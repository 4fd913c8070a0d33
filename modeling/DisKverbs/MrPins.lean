import DisKverbs.MrLifetime

namespace DisKverbs

open CircBuf StepSystem

def Resource.owner : Resource → Nat
  | .mr p | .umem p | .pages p => p

def KernelEvent.owner : KernelEvent → Nat
  | .acquire r | .release r => r.owner

/-- The pages of an MR are pinned: its umem was taken and not given back. -/
def Kernel.Pinned (k : Kernel) (p : Nat) : Prop :=
  .acquire (.umem p) ∈ k.log ∧ .release (.umem p) ∉ k.log

instance (k : Kernel) (p : Nat) : Decidable (k.Pinned p) := inferInstanceAs (Decidable (_ ∧ _))

/-- `ib_umem_get` pins the pages of the segment it is asked for. -/
def UmemOk : MrAct → Prop
  | .reg env start length _ => ∀ u, env.ibUmemGet start length = some u → u.Covers start length
  | _ => True

/-- What a registration adds to the log, all about the new structure; a user MR that it
returns is pinned. -/
structure Logged (k : Kernel) (r : Option Nat × DisPd × Kernel) (es : List KernelEvent) : Prop where
  log : r.2.2.log = k.log ++ es
  own : ∀ e ∈ es, e.owner = k.fresh ∧ k.fresh < r.2.2.fresh
  pins : ∀ p, r.1 = some p → (r.2.2.mr p).isDma = false →
    .acquire (.umem p) ∈ es ∧ .release (.umem p) ∉ es

theorem disRegUserMr_logged (env : RegEnv) (start length va : UInt64) (pd : DisPd) (k : Kernel) :
    ∃ es, Logged k (disRegUserMr env start length va pd k) es := by
  let p := k.fresh
  have failed {k' : Kernel} (es : List KernelEvent) (hl : k'.log = k.log ++ es)
      (hf : k.fresh < k'.fresh) (ho : ∀ e ∈ es, e.owner = k.fresh) :
      ∃ es, Logged k (none, pd, k') es := ⟨es, hl, fun e he => ⟨ho e he, hf⟩, by simp⟩
  unfold disRegUserMr
  split
  next => exact ⟨[], by simp, by simp, by simp⟩
  next =>
    split
    next => exact ⟨[], by simp, by simp, by simp⟩
    next =>
      split
      next =>
        exact failed [.acquire (.mr p), .release (.mr p)] (by simp [Kernel.acquire, Kernel.release, p])
          (Nat.lt_succ_self _) (by simp [KernelEvent.owner, Resource.owner, p])
      next =>
        simp only
        split
        next =>
          exact failed [.acquire (.mr p), .acquire (.umem p), .release (.umem p), .release (.mr p)]
            (by simp [Kernel.acquire, Kernel.release, p]) (Nat.lt_succ_self _)
            (by simp [KernelEvent.owner, Resource.owner, p])
        next =>
          split
          next =>
            exact failed [.acquire (.mr p), .acquire (.umem p), .release (.umem p), .release (.mr p)]
              (by simp [Kernel.acquire, Kernel.release, p]) (Nat.lt_succ_self _)
              (by simp [KernelEvent.owner, Resource.owner, p])
          next =>
            split
            next =>
              exact failed [.acquire (.mr p), .acquire (.umem p), .acquire (.pages p),
                  .release (.pages p), .release (.umem p), .release (.mr p)]
                (by simp [Kernel.acquire, Kernel.release, p]) (Nat.lt_succ_self _)
                (by simp [KernelEvent.owner, Resource.owner, p])
            next =>
              refine ⟨[.acquire (.mr p), .acquire (.umem p), .acquire (.pages p)], ?_, ?_, ?_⟩
              · simp [Kernel.acquire, Kernel.setMr, p]
              · simp [KernelEvent.owner, Resource.owner, Kernel.acquire, Kernel.setMr, p]
              · intro q hq _
                cases Option.some.inj hq
                simp [p]

theorem disGetDmaMr_logged (kzalloc : Bool) (pd : DisPd) (k : Kernel) :
    ∃ es, Logged k (disGetDmaMr kzalloc pd k) es := by
  unfold disGetDmaMr
  split
  next => exact ⟨[], by simp, by simp, by simp⟩
  next =>
    split
    next => exact ⟨[], by simp, by simp, by simp⟩
    next =>
      refine ⟨[.acquire (.mr k.fresh)], ?_, ?_, ?_⟩
      · simp [Kernel.acquire, Kernel.setMr]
      · simp [KernelEvent.owner, Resource.owner, Kernel.acquire, Kernel.setMr]
      · intro q hq hdma
        cases Option.some.inj hq
        simp [Kernel.setMr] at hdma

theorem disGetDmaMr_dma {kzalloc : Bool} {pd : DisPd} {k : Kernel} {p : Nat} :
    (disGetDmaMr kzalloc pd k).1 = some p →
      ((disGetDmaMr kzalloc pd k).2.2.mr p).isDma = true := by
  unfold disGetDmaMr
  split
  next => simp
  next =>
    split
    next => simp
    next =>
      intro hret
      cases Option.some.inj hret
      simp [Kernel.setMr]

theorem disDeregMr_log (p : Nat) (k : Kernel) : (disDeregMr p k).log = k.log ++
    if (k.mr p).isDma then [.release (.mr p)]
    else [.release (.pages p), .release (.umem p), .release (.mr p)] := by
  unfold disDeregMr
  split <;> simp [Kernel.release]

theorem disRegUserMr_user {env : RegEnv} {start length va : UInt64} {pd pd' : DisPd}
    {k k' : Kernel} {p : Nat} (hu : UmemOk (.reg env start length va))
    (h : disRegUserMr env start length va pd k = (some p, pd', k')) : UserMr (k'.mr p) := by
  have hsome : ∃ u, env.ibUmemGet start length = some u := by
    cases hg : env.ibUmemGet start length with
    | none =>
      simp only [disRegUserMr, hg] at h
      split at h
      next => simp at h
      next =>
        split at h
        next => simp at h
        next => simp at h
    | some u => exact ⟨u, rfl⟩
  obtain ⟨u, hg⟩ := hsome
  exact ⟨env, start, length, va, pd, k, p, pd', k', u, hg, hu u hg, h, rfl⟩

/-- A user MR of the table is pinned as long as it is not deregistered. -/
structure PinInv (s : MrState) : Prop where
  own : ∀ e ∈ s.k.log, e.owner < s.k.fresh
  pinned : ∀ i p, s.pd.mrList i = some p → (s.k.mr p).isDma = false →
    .acquire (.umem p) ∈ s.k.log ∧ (.release (.umem p) ∈ s.k.log ↔ p ∉ s.live)
  user : ∀ i p, s.pd.mrList i = some p → (s.k.mr p).isDma = true ∨ UserMr (s.k.mr p)

theorem PinInv.iff {s : MrState} (hi : PinInv s) {i p : Nat} (hp : s.pd.mrList i = some p)
    (hd : (s.k.mr p).isDma = false) : s.k.Pinned p ↔ p ∈ s.live := by
  obtain ⟨hacq, hrel⟩ := hi.pinned i p hp hd
  rw [Kernel.Pinned, hrel, not_not]
  exact and_iff_right hacq

/-- The MRs of a table that was read at some time are where they were. -/
def TableKept (t : MrTable) (s : MrState) : Prop :=
  ∀ i p, t.mrList i = some p → s.pd.mrList i = some p ∧ s.k.mr p = t.mr p

section

variable {s : MrState} {r : Option Nat × DisPd × Kernel}

theorem register_entries (hi : MrInv s) (hr : Registers s.pd s.k r) {i p : Nat}
    (hp : s.pd.mrList i = some p) :
    (s.register r).pd.mrList i = some p ∧ (s.register r).k.mr p = s.k.mr p := by
  cases hr with
  | failed hf hm => exact ⟨hp, by rw [MrState.register, hm]⟩
  | @added k' mr hmax hkey hf hm =>
    have hne : i ≠ s.pd.mrC := by
      rintro rfl
      simp [hi.unused _ le_rfl] at hp
    have hlt := (hi.entry i p hp).1
    exact ⟨by simpa [MrState.register, DisPd.addMr, hne] using hp,
      by simp [MrState.register, hm, hlt.ne]⟩

theorem register_new (hr : Registers s.pd s.k r) {i p : Nat}
    (hp : (s.register r).pd.mrList i = some p) :
    s.pd.mrList i = some p ∨ (r.1 = some p ∧ p = s.k.fresh) := by
  cases hr with
  | failed => exact .inl hp
  | added =>
    by_cases he : i = s.pd.mrC
    · right
      simpa [MrState.register, DisPd.addMr, he, eq_comm] using hp
    · left
      simpa [MrState.register, DisPd.addMr, he] using hp

theorem PinInv.register (hp : PinInv s) (hi : MrInv s) (hr : Registers s.pd s.k r)
    {es : List KernelEvent} (hl : Logged s.k r es)
    (hu : ∀ p, r.1 = some p → (r.2.2.mr p).isDma = true ∨ UserMr (r.2.2.mr p)) :
    PinInv (s.register r) := by
  have hfresh : s.k.fresh ≤ r.2.2.fresh := by
    cases hr with
    | failed hf _ => exact hf
    | added _ _ _ hf _ => simp only [hf]; omega
  have hold : ∀ i p, s.pd.mrList i = some p → (s.k.mr p).isDma = false →
      .acquire (.umem p) ∈ r.2.2.log ∧
        (.release (.umem p) ∈ r.2.2.log ↔ p ∉ r.1.toList ++ s.live) := by
    intro i p he hd
    obtain ⟨hacq, hrel⟩ := hp.pinned i p he hd
    have hlt := (hi.entry i p he).1
    have hnot : .release (.umem p) ∉ es := by
      intro hmem
      have howner : p = s.k.fresh := (hl.own _ hmem).1
      omega
    have hret : p ∉ r.1.toList := by
      cases hr with
      | failed => simp
      | added => simp [hlt.ne]
    rw [hl.log]
    refine ⟨List.mem_append_left _ hacq, ?_⟩
    rw [List.mem_append, or_iff_left hnot, hrel, List.mem_append, or_iff_right hret]
  refine ⟨?_, ?_, ?_⟩
  · intro e he
    simp only [MrState.register, hl.log] at he ⊢
    rcases List.mem_append.mp he with he | he
    · exact Nat.lt_of_lt_of_le (hp.own e he) hfresh
    · obtain ⟨howner, hlt⟩ := hl.own e he
      rw [howner]
      exact hlt
  · intro i p he hd
    rcases register_new hr he with hp' | ⟨hret, rfl⟩
    · rw [(register_entries hi hr hp').2] at hd
      exact hold i p hp' hd
    · obtain ⟨hacq, hrel⟩ := hl.pins s.k.fresh hret hd
      have hnot : .release (.umem s.k.fresh) ∉ s.k.log := fun hmem => (hp.own _ hmem).ne rfl
      have hlog : (s.register r).k.log = s.k.log ++ es := hl.log
      have hlive : s.k.fresh ∈ (s.register r).live :=
        List.mem_append_left _ (by rw [hret]; exact List.mem_singleton_self _)
      rw [hlog]
      refine ⟨List.mem_append_right _ hacq, ?_⟩
      simp [hnot, hrel, hlive]
  · intro i p he
    rcases register_new hr he with hp' | ⟨hret, _⟩
    · rw [(register_entries hi hr hp').2]
      exact hp.user i p hp'
    · exact hu p hret

theorem PinInv.dereg (hp : PinInv s) (hi : MrInv s) {p : Nat} (hlive : p ∈ s.live) :
    PinInv { s with
      k := disDeregMr p s.k, live := s.live.erase p, dead := (s.k.mr p).lkey :: s.dead } := by
  obtain ⟨j, hj⟩ := hi.listed p hlive
  have hlt := (hi.entry j p hj).1
  refine ⟨?_, ?_, ?_⟩
  · intro e he
    simp only [disDeregMr_log, disDeregMr_fresh] at he ⊢
    rcases List.mem_append.mp he with he | he
    · exact hp.own e he
    · have howner : e.owner = p := by
        split at he
        · simp only [List.mem_singleton] at he
          rw [he]
          rfl
        · simp only [List.mem_cons, List.not_mem_nil, or_false] at he
          rcases he with rfl | rfl | rfl <;> rfl
      omega
  · intro i q he hd
    simp only [disDeregMr_mr, disDeregMr_log] at hd ⊢
    obtain ⟨hacq, hrel⟩ := hp.pinned i q he hd
    refine ⟨List.mem_append_left _ hacq, ?_⟩
    by_cases hq : q = p
    · subst hq
      have hgone : q ∉ s.live.erase q := hi.nodup.not_mem_erase
      simp [hd, hgone]
    · have hkeep : .release (.umem q) ∉ (if (s.k.mr p).isDma then [KernelEvent.release (.mr p)]
          else [.release (.pages p), .release (.umem p), .release (.mr p)]) := by
        split <;> simp [hq]
      rw [List.mem_append, or_iff_left hkeep, hrel, List.mem_erase_of_ne hq]
  · simpa using hp.user

theorem TableKept.register {t : MrTable} (ht : TableKept t s) (hi : MrInv s)
    (hr : Registers s.pd s.k r) : TableKept t (s.register r) := by
  intro i p hp
  obtain ⟨hentry, hmr⟩ := ht i p hp
  obtain ⟨hentry', hmr'⟩ := register_entries hi hr hentry
  exact ⟨hentry', hmr'.trans hmr⟩

theorem mrStep_pins {lib : SciLib} {a : MrAct} {u : MrState} (hp : PinInv s) (hi : MrInv s)
    (ha : UmemOk a) (h : mrStep lib s a = some u) : PinInv u := by
  cases a with
  | reg env start length va =>
    cases Option.some.inj h
    obtain ⟨es, hl⟩ := disRegUserMr_logged env start length va s.pd s.k
    refine hp.register hi (disRegUserMr_registers ..) hl fun p hret => .inr ?_
    exact disRegUserMr_user ha (Prod.ext hret rfl)
  | getDma kzalloc =>
    cases Option.some.inj h
    obtain ⟨es, hl⟩ := disGetDmaMr_logged kzalloc s.pd s.k
    exact hp.register hi (disGetDmaMr_registers ..) hl fun p hret => .inl (disGetDmaMr_dma hret)
  | dereg p =>
    simp only [mrStep] at h
    split at h
    next hlive => cases Option.some.inj h; exact hp.dereg hi hlive
    next => simp at h
  | post type kmalloc wr =>
    cases Option.some.inj h
    exact ⟨hp.own, hp.pinned, hp.user⟩

theorem mrStep_kept {lib : SciLib} {a : MrAct} {u : MrState} {t : MrTable} (ht : TableKept t s)
    (hi : MrInv s) (h : mrStep lib s a = some u) : TableKept t u := by
  cases a with
  | reg env start length va =>
    cases Option.some.inj h
    exact ht.register hi (disRegUserMr_registers ..)
  | getDma kzalloc =>
    cases Option.some.inj h
    exact ht.register hi (disGetDmaMr_registers ..)
  | dereg p =>
    simp only [mrStep] at h
    split at h
    next hlive =>
      cases Option.some.inj h
      intro i q hq
      simpa using ht i q hq
    next => simp at h
  | post type kmalloc wr =>
    cases Option.some.inj h
    exact ht

end

end DisKverbs
