import DisKverbs.PageUse
import DisKverbs.StepSystem
import Mathlib.Data.List.Basic

namespace DisKverbs

open CircBuf StepSystem

/-- A PD with the queues that post to it. `live` lists the MRs registered and not
deregistered; `dead` is the history of the keys that deregistration retired. -/
structure MrState where
  pd : DisPd
  k : Kernel
  live : List Nat
  dead : List UInt32
  wq : DisWqType → DisWq

def MrState.table (s : MrState) : MrTable := ⟨s.pd.mrList, s.k.mr⟩

inductive MrAct
  | reg (env : RegEnv) (start length va : UInt64)
  | getDma (kzalloc : Bool)
  | dereg (p : Nat)
  | post (type : DisWqType) (kmalloc : Option PageMap) (wr : IbWr)

def MrState.register (s : MrState) : Option Nat × DisPd × Kernel → MrState
  | (ret, pd, k) => { s with pd := pd, k := k, live := ret.toList ++ s.live }

/-- Callers deregister each MR at most once. -/
def mrStep (lib : SciLib) (s : MrState) : MrAct → Option MrState
  | .reg env start length va => some (s.register (disRegUserMr env start length va s.pd s.k))
  | .getDma kzalloc => some (s.register (disGetDmaMr kzalloc s.pd s.k))
  | .dereg p =>
    if p ∈ s.live then
      some { s with
        k := disDeregMr p s.k, live := s.live.erase p, dead := (s.k.mr p).lkey :: s.dead }
    else none
  | .post type kmalloc wr =>
    some { s with
      wq := Function.update s.wq type
        (disQpPostOne lib type s.table kmalloc (s.wq type) wr).wq }

/-- A new PD, zeroed by the core before `dis_alloc_pd`. -/
def MrInit (s : MrState) : Prop :=
  s.pd = disAllocPd ⟨fun _ => none, fun _ => none, 0, 0⟩ ∧ s.live = [] ∧ s.dead = []

inductive Registers (pd : DisPd) (k : Kernel) : Option Nat × DisPd × Kernel → Prop
  | failed {k'} : k.fresh ≤ k'.fresh → k'.mr = k.mr → Registers pd k (none, pd, k')
  | added {k'} (mr : DisMr) : pd.mrC < disMrMax → mr.lkey = UInt32.ofNat pd.mrC →
      k'.fresh = k.fresh + 1 → k'.mr = Function.update k.mr k.fresh mr →
      Registers pd k (some k.fresh, pd.addMr k.fresh, k')

theorem disRegUserMr_registers (env : RegEnv) (start length va : UInt64) (pd : DisPd)
    (k : Kernel) : Registers pd k (disRegUserMr env start length va pd k) := by
  unfold disRegUserMr
  split
  next => exact .failed le_rfl rfl
  next hmax =>
    split
    next => exact .failed le_rfl rfl
    next =>
      split
      next => exact .failed (Nat.le_succ _) rfl
      next u _ =>
        simp only
        split
        next => exact .failed (Nat.le_succ _) rfl
        next =>
          split
          next => exact .failed (Nat.le_succ _) rfl
          next =>
            split
            next => exact .failed (Nat.le_succ _) rfl
            next => exact .added _ (by omega) rfl rfl rfl

theorem disGetDmaMr_registers (kzalloc : Bool) (pd : DisPd) (k : Kernel) :
    Registers pd k (disGetDmaMr kzalloc pd k) := by
  unfold disGetDmaMr
  split
  next => exact .failed le_rfl rfl
  next hmax =>
    split
    next => exact .failed le_rfl rfl
    next => exact .added _ (by omega) rfl rfl rfl

@[simp] theorem disDeregMr_mr (p : Nat) (k : Kernel) : (disDeregMr p k).mr = k.mr := by
  unfold disDeregMr; split <;> rfl

@[simp] theorem disDeregMr_fresh (p : Nat) (k : Kernel) : (disDeregMr p k).fresh = k.fresh := by
  unfold disDeregMr; split <;> rfl

/-- Table entries are never taken back: they are live until something is deregistered. -/
structure MrInv (s : MrState) : Prop where
  count_le : s.pd.mrC ≤ disMrMax
  unused : ∀ i, s.pd.mrC ≤ i → s.pd.mrList i = none
  entry : ∀ i p, s.pd.mrList i = some p → p < s.k.fresh ∧ (s.k.mr p).lkey.toNat = i
  listed : ∀ p ∈ s.live, ∃ i, s.pd.mrList i = some p
  nodup : s.live.Nodup
  retired : ∀ key ∈ s.dead, ∃ p, s.pd.mrList key.toNat = some p ∧ p ∉ s.live
  kept : s.dead = [] → ∀ i p, s.pd.mrList i = some p → p ∈ s.live

theorem mrInit_inv {s : MrState} (h : MrInit s) : MrInv s := by
  obtain ⟨hp, hl, hd⟩ := h
  refine ⟨?_, ?_, ?_, ?_, ?_, ?_, ?_⟩ <;> simp [hp, hl, hd, disAllocPd, disMrIni]

theorem MrInv.register {s : MrState} (hi : MrInv s) {r : Option Nat × DisPd × Kernel}
    (h : Registers s.pd s.k r) : MrInv (s.register r) := by
  cases h with
  | failed hf hm =>
    refine { hi with entry := ?_ }
    intro i p hp
    obtain ⟨hlt, hk⟩ := hi.entry i p hp
    exact ⟨by simpa [MrState.register] using Nat.lt_of_lt_of_le hlt hf,
      by simpa [MrState.register, hm] using hk⟩
  | @added k' mr hmax hkey hf hm =>
    have old : ∀ p i, s.pd.mrList i = some p → p ≠ s.k.fresh ∧ i ≠ s.pd.mrC := by
      intro p i hp
      refine ⟨(hi.entry i p hp).1.ne, ?_⟩
      rintro rfl
      simp [hi.unused _ le_rfl] at hp
    have entries : ∀ i p, (s.pd.addMr s.k.fresh).mrList i = some p ↔
        (i = s.pd.mrC ∧ p = s.k.fresh) ∨ s.pd.mrList i = some p := by
      intro i p
      by_cases he : i = s.pd.mrC
      · simp [DisPd.addMr, he, hi.unused, eq_comm]
      · simp [DisPd.addMr, he]
    simp only [disMrMax] at hmax
    refine ⟨by simp [MrState.register, DisPd.addMr, disMrMax]; omega, ?_, ?_, ?_, ?_, ?_, ?_⟩
    · intro i hle
      simp only [MrState.register, DisPd.addMr] at hle ⊢
      rw [Function.update_of_ne (by omega)]
      exact hi.unused i (by omega)
    · intro i p hp
      rcases (entries i p).mp hp with ⟨rfl, rfl⟩ | hp
      · refine ⟨by simp [MrState.register, hf], ?_⟩
        simp only [MrState.register, hm, Function.update_self, hkey]
        exact UInt32.toNat_ofNat_of_lt' (lt_trans hmax (by decide))
      · obtain ⟨hlt, hk⟩ := hi.entry i p hp
        refine ⟨by simp only [MrState.register]; omega, ?_⟩
        simpa [MrState.register, hm, (old p i hp).1] using hk
    · intro p hp
      rcases List.mem_append.mp hp with hp | hp
      · exact ⟨s.pd.mrC, (entries _ p).mpr (.inl ⟨rfl, by simpa using hp⟩)⟩
      · obtain ⟨i, hi'⟩ := hi.listed p hp
        exact ⟨i, (entries i p).mpr (.inr hi')⟩
    · refine List.nodup_cons.mpr ⟨?_, hi.nodup⟩
      intro hmem
      obtain ⟨i, hi'⟩ := hi.listed _ hmem
      exact (old _ i hi').1 rfl
    · intro key hkey'
      obtain ⟨p, hp, hn⟩ := hi.retired key hkey'
      refine ⟨p, (entries _ p).mpr (.inr hp), ?_⟩
      simpa [MrState.register, (old p _ hp).1] using hn
    · intro hd i p hp
      rcases (entries i p).mp hp with ⟨_, rfl⟩ | hp
      · simp [MrState.register]
      · exact List.mem_append_right _ (hi.kept hd i p hp)

theorem MrInv.dereg {s : MrState} (hi : MrInv s) {p : Nat} (hp : p ∈ s.live) :
    MrInv { s with
      k := disDeregMr p s.k, live := s.live.erase p, dead := (s.k.mr p).lkey :: s.dead } := by
  refine ⟨hi.count_le, hi.unused, ?_, ?_, hi.nodup.erase p, ?_, by simp⟩
  · simpa using hi.entry
  · exact fun q hq => hi.listed q (List.mem_of_mem_erase hq)
  · intro key hkey
    rcases List.mem_cons.mp hkey with rfl | hkey
    · obtain ⟨i, hentry⟩ := hi.listed p hp
      refine ⟨p, ?_, hi.nodup.not_mem_erase⟩
      rw [(hi.entry i p hentry).2]
      exact hentry
    · obtain ⟨q, hq, hn⟩ := hi.retired key hkey
      exact ⟨q, hq, fun hm => hn (List.mem_of_mem_erase hm)⟩

theorem MrInv.step {lib : SciLib} {s t : MrState} {a : MrAct} (hi : MrInv s)
    (h : mrStep lib s a = some t) : MrInv t := by
  cases a with
  | reg env start length va =>
    cases Option.some.inj h
    exact hi.register (disRegUserMr_registers ..)
  | getDma kzalloc =>
    cases Option.some.inj h
    exact hi.register (disGetDmaMr_registers ..)
  | dereg p =>
    simp only [mrStep] at h
    split at h
    next hp => cases Option.some.inj h; exact hi.dereg hp
    next => simp at h
  | post type kmalloc wr =>
    cases Option.some.inj h
    exact { hi with }

theorem reach_mrInv {lib : SciLib} {s : MrState}
    (h : Reach MrInit (Acts (mrStep lib) anyAct) s) : MrInv s :=
  h.invariant (fun _ => mrInit_inv) fun _ _ _ hi ⟨_, _, hs⟩ => hi.step hs

end DisKverbs
