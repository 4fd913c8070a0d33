import DisKverbs.MrPins
import DisKverbs.StaleKeys
import DisKverbs.WqSpec
import DisKverbs.PageUse
import DisKverbs.CompletionStage

namespace DisKverbs

open CellProg CircBuf RingMachine StepSystem

variable {ι : Type} [DecidableEq ι]

/-- A PD with its MRs and any number of work queues that post to it. -/
structure PdState (ι : Type) where
  mrs : MrState
  wq : ι → WqState

inductive PdAct (ι : Type)
  | mr (a : MrAct)
  | post (i : ι) (wr : IbWr)
  | queue (i : ι) (a : WqAct)

/-- A post reads the MR table of the PD; everything else a queue does is its own. -/
def pdStep (lib : SciLib) (cfg : ι → WqCfg) (s : PdState ι) : PdAct ι → Option (PdState ι)
  | .mr (.post ..) => none
  | .mr a => (mrStep lib s.mrs a).map fun mrs => { s with mrs := mrs }
  | .post i wr =>
    (wqStep (cfg i) (s.wq i) (.start ⟨s.mrs.table, wr⟩)).map fun wq =>
      { s with wq := Function.update s.wq i wq }
  | .queue _ (.start _) => none
  | .queue i a =>
    (wqStep (cfg i) (s.wq i) a).map fun wq => { s with wq := Function.update s.wq i wq }

def PdInit (s : PdState ι) : Prop := MrInit s.mrs ∧ s.mrs.k.log = [] ∧ ∀ i, WqInit (s.wq i)

/-- The kernel's answers to registrations are right. -/
def KernelOk (_ : PdState ι) : PdAct ι → Prop
  | .mr a => UmemOk a
  | _ => True

/-- A step is one of the MR verbs, or one of a queue; a post starts with the table. -/
inductive PdMove (lib : SciLib) (cfg : ι → WqCfg) (s : PdState ι) : PdAct ι → PdState ι → Prop
  | mr {a mrs} : mrStep lib s.mrs a = some mrs → PdMove lib cfg s (.mr a) { s with mrs := mrs }
  | queue {i b a wq} : (∀ req, a = .start req → req.table = s.mrs.table) →
      wqStep (cfg i) (s.wq i) a = some wq →
      PdMove lib cfg s b { s with wq := Function.update s.wq i wq }

def PosterPc.req : PosterPc → Option PostReq
  | .idle => none
  | .gotHead req _ => some req
  | .fill req _ _ _ _ => some req

/-- The requests that a queue is posting or has posted. -/
def WqState.Uses (s : WqState) (req : PostReq) : Prop :=
  s.poster.req = some req ∨ ∃ e ∈ s.posted, e.req = req

section

variable {lib : SciLib} {cfg : ι → WqCfg} {s t : PdState ι}

theorem pdStep_move {a : PdAct ι} (h : pdStep lib cfg s a = some t) : PdMove lib cfg s a t := by
  unfold pdStep at h
  split at h
  next => simp at h
  next =>
    obtain ⟨mrs, hs, rfl⟩ := Option.map_eq_some_iff.mp h
    exact .mr hs
  next =>
    obtain ⟨wq, hs, rfl⟩ := Option.map_eq_some_iff.mp h
    exact .queue (fun req he => by cases he; rfl) hs
  next => simp at h
  next ha =>
    obtain ⟨wq, hs, rfl⟩ := Option.map_eq_some_iff.mp h
    exact .queue (fun req he => absurd he (ha req)) hs

theorem PosterMove.uses {cfg : WqCfg} {s t : WqState} (h : PosterMove cfg s t) :
    (t.poster.req = s.poster.req ∨ t.poster.req = none) ∧
      (t.posted = s.posted ∨ ∃ e, t.posted = s.posted ++ [e] ∧ s.poster.req = some e.req) := by
  cases h with
  | full hp _ => exact ⟨.inr rfl, .inl rfl⟩
  | abandon hp => exact ⟨.inr rfl, .inl rfl⟩
  | publish hp => exact ⟨.inr rfl, .inr ⟨_, rfl, by rw [hp]; rfl⟩⟩
  | reserve hp _ => exact ⟨.inl (by rw [hp]; rfl), .inl rfl⟩
  | load hp => exact ⟨.inl (by rw [hp]; rfl), .inl rfl⟩
  | store hp => exact ⟨.inl (by rw [hp]; rfl), .inl rfl⟩
  | noMem hp => exact ⟨.inl (by rw [hp]; rfl), .inl rfl⟩
  | alloc _ hp => exact ⟨.inl (by rw [hp]; rfl), .inl rfl⟩

theorem wqStep_uses {cfg : WqCfg} {s t : WqState} {a : WqAct} {req : PostReq}
    (h : wqStep cfg s a = some t) (hu : t.Uses req) : a = .start req ∨ s.Uses req := by
  cases a with
  | start req' =>
    obtain ⟨_, rfl⟩ := wqStep_start h
    rcases hu with hp | hposted
    · cases hp
      exact .inl rfl
    · exact .inr (.inr hposted)
  | poster buf =>
    right
    obtain ⟨hreq, hposted⟩ := (posterStep_move h).uses
    rcases hu with hp | ⟨e, hmem, he⟩
    · rcases hreq with hreq | hreq
      · exact .inl (hreq.symm.trans hp)
      · simp [hreq] at hp
    · rcases hposted with hsame | ⟨e', happ, hp⟩
      · exact .inr ⟨e, hsame ▸ hmem, he⟩
      · rw [happ] at hmem
        rcases List.mem_append.mp hmem with hmem | hmem
        · exact .inr ⟨e, hmem, he⟩
        · rw [List.mem_singleton.mp hmem] at he
          exact .inl (hp.trans (congrArg some he))
  | worker out =>
    obtain ⟨hp, hposted, _⟩ := (workerStep_move h).frame
    right
    rw [WqState.Uses, hp, hposted] at hu
    exact hu
  | stop => cases Option.some.inj h; exact .inr hu

theorem reach_pdMrs (h : Reach PdInit (Acts (pdStep lib cfg) KernelOk) s) :
    Reach MrInit (Acts (mrStep lib) anyAct) s.mrs := by
  apply h.project PdState.mrs
  · exact fun s hi => hi.1
  · rintro s t _ _ ⟨a, _, hs⟩
    cases pdStep_move hs with
    | mr hm => exact .inr ⟨_, trivial, hm⟩
    | queue => exact .inl rfl

theorem reach_pdWq (h : Reach PdInit (Acts (pdStep lib cfg) KernelOk) s) (i : ι) :
    Reach WqInit (Acts (wqStep (cfg i)) anyAct) (s.wq i) := by
  apply h.project fun s => s.wq i
  · exact fun s hi => hi.2.2 i
  · rintro s t _ _ ⟨a, _, hs⟩
    cases pdStep_move hs with
    | mr => exact .inl rfl
    | @queue j _ a wq _ hq =>
      by_cases he : i = j
      · subst he
        simp only [Function.update_self]
        exact .inr ⟨a, trivial, hq⟩
      · exact .inl (Function.update_of_ne he _ _)

theorem reach_pdPins (h : Reach PdInit (Acts (pdStep lib cfg) KernelOk) s) : PinInv s.mrs := by
  apply h.invariant
  · rintro s ⟨⟨hpd, hlive, hdead⟩, hlog, _⟩
    exact ⟨by simp [hlog], by simp [hpd, disAllocPd], by simp [hpd, disAllocPd]⟩
  · rintro s t hs hi ⟨a, hok, hstep⟩
    cases pdStep_move hstep with
    | mr hm => exact mrStep_pins hi (reach_mrInv (reach_pdMrs hs)) hok hm
    | queue => exact hi

/-- The MRs that a post found are still where they were. -/
theorem reach_tableKept (h : Reach PdInit (Acts (pdStep lib cfg) KernelOk) s) :
    ∀ i req, (s.wq i).Uses req → TableKept req.table s.mrs := by
  apply h.invariant
  · intro s hi i req hu
    have hw := hi.2.2 i
    rw [hw] at hu
    rcases hu with hp | ⟨e, hmem, _⟩
    · cases hp
    · cases hmem
  · rintro s t hs hi ⟨a, _, hstep⟩ i req hu
    cases pdStep_move hstep with
    | mr hm => exact mrStep_kept (hi i req hu) (reach_mrInv (reach_pdMrs hs)) hm
    | @queue j _ a wq htable hq =>
      by_cases he : i = j
      · subst he
        simp only [Function.update_self] at hu
        rcases wqStep_uses hq hu with rfl | hu
        · intro k p hp
          rw [htable req rfl] at hp ⊢
          exact ⟨hp, rfl⟩
        · exact hi i req hu
      · simp only [Function.update_of_ne he] at hu
        exact hi i req hu

/-- An entry lies in a page of the user MR that the key of an SGE named when it was posted, and
the pages of that MR are pinned exactly until it is deregistered. -/
def Backed (s : MrState) (e : Posted) (x : Iovec) : Prop :=
  ∃ (g : IbSge) (p j : Nat) (b : UInt64), g ∈ e.req.wr.visited ∧
    s.pd.mrList g.lkey.toNat = some p ∧ (s.k.mr p).isDma = false ∧
    x.iovBase = ((s.k.mr p).pages j).iovBase + b ∧
    b.toNat + x.iovLen.toNat ≤ pageSize.toNat ∧
    (InRange (s.k.mr p) g → j < (s.k.mr p).pageCount.toNat) ∧ (s.k.Pinned p ↔ p ∈ s.live)

theorem iovEntries_eraseLen (w : DisWqe) (n : Nat) : w.eraseLen.iovEntries n = w.iovEntries n := rfl

/-- The slot of an outstanding WQE has the entries it was posted with. -/
theorem outstanding_slot {cfg : WqCfg} {s : WqState}
    (hr : RingInv cfg.ring DisWqe.eraseLen s.ring) {k : Nat} (hle : s.retired.length ≤ k)
    {e : Posted} (he : s.posted[k]? = some e) (n : Nat) :
    (s.slots (k % cfg.ring.size)).iovEntries n = e.wqe.iovEntries n := by
  have hkeys := hr.keys k e.wqe hle (by simp [WqState.ring, he])
  have hslot : (s.slots (k % cfg.ring.size)).eraseLen = e.wqe.eraseLen := hkeys
  rw [← iovEntries_eraseLen, hslot, iovEntries_eraseLen]

end

def freshPd : PdState Nat := ⟨freshMrState, fun _ => freshWq⟩

theorem freshPd_init : PdInit freshPd := ⟨⟨rfl, rfl, rfl⟩, rfl, fun _ => rfl⟩

/-- `KernelOk`, as a test. -/
def kernelOk (_ : PdState Nat) : PdAct Nat → Bool
  | .mr (.reg env start length _) =>
    match env.ibUmemGet start length with
    | some u => decide (u.offset.toNat = start.toNat % pageSize.toNat ∧
        u.pageCount.toNat = (start.toNat % pageSize.toNat + length.toNat + (pageSize.toNat - 1)) /
          pageSize.toNat ∧ u.pageAddress.length = u.pageCount.toNat)
    | none => true
  | _ => true

theorem kernelOk_sound (s : PdState Nat) (a : PdAct Nat) (h : kernelOk s a = true) :
    KernelOk s a := by
  cases a with
  | mr a =>
    cases a with
    | reg env start length va =>
      intro u hu
      simp only [kernelOk, hu, decide_eq_true_eq] at h
      exact ⟨h.1, h.2.1, h.2.2⟩
    | _ => trivial
  | _ => trivial

/-- Register a segment and post a WR across its two pages. -/
def postedActs : List (PdAct Nat) :=
  [.mr (.reg twoPageEnv 0x1100 0x1000 0x7100), .post 0 crossingWr] ++
    List.replicate 21 (.queue 0 (.poster none))

def pdRun (acts : List (PdAct Nat)) : PdState Nat :=
  afterChecked (pdStep sciLib64 fun _ => twoSlotSq) kernelOk freshPd acts

theorem pdRun_reach (acts : List (PdAct Nat)) :
    Reach PdInit (Acts (pdStep sciLib64 fun _ => twoSlotSq) KernelOk) (pdRun acts) :=
  reach_afterChecked kernelOk_sound (reach_start freshPd_init) acts

/-- The MR is deregistered while the posted WQE still points into its pages. -/
def deregRun : PdState Nat := pdRun (postedActs ++ [.mr (.dereg 0)])

end DisKverbs
