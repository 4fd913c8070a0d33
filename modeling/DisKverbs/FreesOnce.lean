import DisKverbs.PageMapOwner

namespace DisKverbs

open CellProg CircBuf RingMachine StepSystem

section

variable {cfg : WqCfg} {s t : WqState}

theorem freed_le (hr : RingInv cfg.ring DisWqe.eraseLen s.ring) : s.freed ≤ s.posted.length := by
  refine count_le hr ?_ ?_
  · cases s.worker <;> simp [WorkerPc.freed]
  · intro hw
    cases hp : s.worker with
    | retire tail status => simp [hp, WorkerPc.holds] at hw
    | _ => rfl

theorem consumes_freed {pc : WorkerPc} {tail : Nat} (h : pc.consumes = some tail) :
    pc.freed = 0 := by
  cases pc with
  | retire t st => simp [WorkerPc.consumes] at h
  | _ => rfl

theorem works_freed {pc : WorkerPc} {tail : Nat} (h : pc.Works tail) : pc.freed = 0 := by
  rcases h with h | ⟨status, rfl⟩
  · exact consumes_freed h
  · rfl

/-- What a queue has freed are the maps of the WQEs it has freed, whatever the slots held. -/
theorem WorkerMove.frees (hr : RingInv cfg.ring DisWqe.eraseLen s.ring)
    (hf : s.frees = freedBy s.posted s.freed) (h : WorkerMove cfg s t) :
    t.frees = freedBy t.posted t.freed := by
  have same : ∀ {pc}, pc.freed = s.worker.freed → s.frees = freedBy s.posted
      { s with worker := pc }.freed := by
    intro pc he
    have hn : { s with worker := pc }.freed = s.freed := congrArg (s.retired.length + ·) he
    rw [hn]
    exact hf
  cases h with
  | @rest pc hw hpc =>
    have hs : s.worker.freed = 0 := by rcases hw with hw | hw <;> rw [hw] <;> rfl
    have ht : pc.freed = 0 := by rcases hpc with rfl | rfl | rfl <;> rfl
    exact same (ht.trans hs.symm)
  | peek hw => exact same (by rw [hw]; rfl)
  | empty hw _ => exact same (by rw [hw]; rfl)
  | acquire hw _ hpc => exact same (by rw [hw, consumes_freed hpc]; rfl)
  | hold hs hpc => exact same (by rw [consumes_freed hs, works_freed hpc])
  | touch n hs hpc => exact same (by rw [consumes_freed hs, works_freed hpc])
  | complete hw => exact same (by rw [hw]; rfl)
  | @free tail status hw =>
    have hold : s.worker.holds = some tail := by rw [hw]; rfl
    obtain ⟨e, he, hk⟩ := held_posted hr hold
    have hm := congrArg DisWqe.pageMapDynamic hk
    simp only [DisWqe.eraseLen] at hm
    have hn : s.freed = s.retired.length := by simp [WqState.freed, hw, WorkerPc.freed]
    show s.kfree tail = freedBy s.posted (s.retired.length + 1)
    rw [freedBy_succ he, ← hn, ← hf, hn]
    unfold WqState.kfree Posted.release
    rw [hm]
    cases e.wqe.pageMapDynamic <;> simp
  | @retire tail status hw =>
    have hn : { s with
        tail := circNext tail cfg.ring.size
        worker := .top
        retired := s.retired ++ [status] }.freed = s.freed := by
      simp [WqState.freed, hw, WorkerPc.freed]
    rw [hn]
    exact hf

theorem PosterMove.frees (hr : RingInv cfg.ring DisWqe.eraseLen s.ring)
    (hf : s.frees = freedBy s.posted s.freed) (h : PosterMove cfg s t) :
    t.frees = freedBy t.posted t.freed := by
  cases h with
  | publish hp => exact hf.trans (freedBy_append (freed_le hr) _).symm
  | _ => exact hf

theorem OwnInv.same (hi : OwnInv s) (hp : t.posted = s.posted)
    (ho : t.poster.owned.Sublist s.poster.owned) (hf : t.fresh = s.fresh)
    (hr : t.frees = s.frees) (hn : t.freed = s.freed) : OwnInv t := by
  have hsub : (t.posted.flatMap Posted.owned ++ t.poster.owned).Sublist
      (s.posted.flatMap Posted.owned ++ s.poster.owned) := by
    rw [hp]
    exact (List.Sublist.refl _).append ho
  refine ⟨hp ▸ hi.owns, hi.nodup.sublist hsub, ?_, by rw [hr, hi.frees, hp, hn]⟩
  intro id hid
  rw [hf]
  exact hi.lt_fresh id (hsub.subset hid)

theorem OwnInv.alloc (hi : OwnInv s) {pc : PosterPc} (ho : pc.owned = s.fresh :: s.poster.owned) :
    OwnInv { s with fresh := s.fresh + 1, poster := pc } := by
  have hnew : s.fresh ∉ s.posted.flatMap Posted.owned ++ s.poster.owned :=
    fun hm => absurd (hi.lt_fresh _ hm) (Nat.lt_irrefl _)
  have hperm : (s.posted.flatMap Posted.owned ++ pc.owned).Perm
      (s.fresh :: (s.posted.flatMap Posted.owned ++ s.poster.owned)) := by
    rw [ho]
    exact List.perm_middle
  refine { hi with nodup := ?_, lt_fresh := ?_ }
  · exact hperm.nodup_iff.mpr (List.nodup_cons.mpr ⟨hnew, hi.nodup⟩)
  · intro id hid
    rcases List.mem_cons.mp (hperm.subset hid) with rfl | hid
    · exact Nat.lt_succ_self _
    · exact Nat.lt_succ_of_lt (hi.lt_fresh id hid)

theorem OwnInv.poster (hi : OwnInv s) (hq : WqInv cfg s)
    (hr : RingInv cfg.ring DisWqe.eraseLen s.ring)
    (hclean : ∀ req head used owned start,
      s.poster = .fill req head (.ret (some used)) owned start →
      iovTotal req.table req.wr.visited ≤ disSgePerWqe → (s.slots head).pageMapDynamic = none)
    (h : PosterMove cfg s t) : OwnInv t := by
  cases h with
  | full hp hs => exact hi.same rfl (List.nil_sublist _) rfl rfl rfl
  | reserve hp hs => exact hi.same rfl (List.nil_sublist _) rfl rfl rfl
  | load hp => exact hi.same rfl (by rw [hp]; exact List.Sublist.refl _) rfl rfl rfl
  | store hp => exact hi.same rfl (by rw [hp]; exact List.Sublist.refl _) rfl rfl rfl
  | noMem hp => exact hi.same rfl (by rw [hp]; exact List.Sublist.refl _) rfl rfl rfl
  | alloc entries hp => exact hi.alloc (by rw [hp]; rfl)
  | abandon hp => exact hi.same rfl (List.nil_sublist _) rfl rfl rfl
  | @publish req head used owned start hp =>
    have hn := hi.nodup
    have hl := hi.lt_fresh
    simp only [hp, PosterPc.owned] at hn hl
    have hrun := (hq.fill _ _ _ _ _ hp owned (List.Subset.refl _)).finish
    have hown := postOneBody_owns (e := ⟨req, s.slots head, used, owned, start⟩) hrun
      (hclean _ _ _ _ _ hp)
    refine ⟨?_, by simpa [PosterPc.owned] using hn, by simpa [PosterPc.owned] using hl,
      (PosterMove.publish hp).frees hr hi.frees⟩
    intro e he
    rcases List.mem_append.mp he with he | he
    · exact hi.owns e he
    · rw [List.mem_singleton.mp he]
      exact hown

theorem OwnInv.worker (hi : OwnInv s) (hr : RingInv cfg.ring DisWqe.eraseLen s.ring)
    (h : WorkerMove cfg s t) : OwnInv t := by
  obtain ⟨hp, hq, hf, _⟩ := h.frame
  refine ⟨hq ▸ hi.owns, ?_, ?_, h.frees hr hi.frees⟩
  · rw [hp, hq]
    exact hi.nodup
  · rw [hp, hq, hf]
    exact hi.lt_fresh

theorem OwnInv.step (hi : OwnInv s) (hq : WqInv cfg s)
    (hr : RingInv cfg.ring DisWqe.eraseLen s.ring) {a : WqAct} (hclean : CleanSlots s a)
    (h : wqStep cfg s a = some t) : OwnInv t := by
  cases a with
  | start req =>
    obtain ⟨_, rfl⟩ := wqStep_start h
    exact hi.same rfl (List.nil_sublist _) rfl rfl rfl
  | poster buf => exact hi.poster hq hr hclean (posterStep_move h)
  | worker out => exact hi.worker hr (workerStep_move h)
  | stop => cases Option.some.inj h; exact hi.same rfl (List.Sublist.refl _) rfl rfl rfl

end

theorem reach_frees {cfg : WqCfg} {s : WqState} (h : Reach WqInit (Acts (wqStep cfg) anyAct) s) :
    s.frees = freedBy s.posted s.freed := by
  apply h.invariant
  · rintro s rfl
    rfl
  · rintro s t hr hf ⟨a, _, hs⟩
    cases a with
    | start req =>
      obtain ⟨_, rfl⟩ := wqStep_start hs
      exact hf
    | poster buf => exact (posterStep_move hs).frees (reach_wqRing hr) hf
    | worker out => exact (workerStep_move hs).frees (reach_wqRing hr) hf
    | stop => cases Option.some.inj hs; exact hf

/-- Page maps are freed at most once, by the retirement of the WQE they were allocated
for, and a WQE that uses its static map frees none. -/
structure FreesOnce (s : WqState) : Prop where
  once : (s.frees.map Prod.snd).Nodup
  owner : ∀ i id, (i, id) ∈ s.frees → i < s.freed ∧ ∃ e, s.posted[i]? = some e ∧ id ∈ e.owned ∧
    ∀ j e', s.posted[j]? = some e' → id ∈ e'.owned → j = i
  static : ∀ i e, s.posted[i]? = some e → (∃ n, e.wqe.sciMsg.iov = .static n) →
    ∀ id, (i, id) ∉ s.frees

theorem OwnInv.freesOnce {s : WqState} (hi : OwnInv s) : FreesOnce s := by
  have hd := hi.nodup.of_append_left
  refine ⟨?_, ?_, ?_⟩
  · rw [hi.frees]
    exact freedBy_nodup hi.owns hd _
  · intro i id hf
    rw [hi.frees] at hf
    obtain ⟨hlt, e, m, he, hm, rfl⟩ := mem_freedBy hf
    have hown := (hi.owns e (List.mem_of_getElem? he)).own m hm
    refine ⟨hlt, e, he, hown, ?_⟩
    intro j e' he' hown'
    exact owned_unique hd he' he hown' hown
  · rintro i e he ⟨n, hiov⟩ id hf
    rw [hi.frees] at hf
    obtain ⟨_, e', m, he', hm, _⟩ := mem_freedBy hf
    rw [he] at he'
    cases Option.some.inj he'
    simp [(hi.owns e (List.mem_of_getElem? he)).static n hiov] at hm

/-- Every run that accepts small WRs into clean slots only frees each page map once. -/
theorem reach_freesOnce (cfg : WqCfg) (s : WqState)
    (h : Reach WqInit (Acts (wqStep cfg) CleanSlots) s) : FreesOnce s := by
  apply OwnInv.freesOnce
  apply h.invariant
  · rintro s rfl
    exact ⟨by simp, by simp [PosterPc.owned], by simp [PosterPc.owned], rfl⟩
  · rintro s t hr hi ⟨a, hok, hs⟩
    exact hi.step (reach_wqInv hr) (reach_wqRing hr) hok hs

/-- `CleanSlots`, as a test of the state before the step. -/
def cleanSlots (s : WqState) : WqAct → Bool
  | .poster _ =>
    match s.poster with
    | .fill req head (.ret (some _)) _ _ =>
      decide (disSgePerWqe < iovTotal req.table req.wr.visited) ||
        (s.slots head).pageMapDynamic.isNone
    | _ => true
  | _ => true

theorem cleanSlots_sound (s : WqState) (a : WqAct) (h : cleanSlots s a = true) :
    CleanSlots s a := by
  cases a with
  | poster buf =>
    intro req head used owned start hp hle
    have hlt : ¬ disSgePerWqe < iovTotal req.table req.wr.visited := by omega
    simpa [cleanSlots, hp, hlt] using h
  | _ => trivial

/-- Three large WRs: the third one reuses the slot of the first. -/
def largeLapActs : List WqAct :=
  postActs largeWr 30 ++ sendActs ++ postActs largeWr 30 ++ sendActs ++ postActs largeWr 30 ++
    sendActs

theorem reach_freesOnce_lap :
    (afterChecked (wqStep twoSlotSq) cleanSlots freshWq largeLapActs).frees =
        [(0, 0), (1, 1), (2, 2)] ∧
      FreesOnce (afterChecked (wqStep twoSlotSq) cleanSlots freshWq largeLapActs) :=
  ⟨by decide, reach_freesOnce twoSlotSq _
    (reach_afterChecked cleanSlots_sound (reach_start freshWq_init) largeLapActs)⟩

theorem lap_double_free :
    Reach WqInit (Acts (wqStep twoSlotSq) anyAct) (afterActs (wqStep twoSlotSq) freshWq lapActs) ∧
      (afterActs (wqStep twoSlotSq) freshWq lapActs).frees = [(0, 0), (2, 0)] ∧
      ¬ FreesOnce (afterActs (wqStep twoSlotSq) freshWq lapActs) := by
  have hf : (afterActs (wqStep twoSlotSq) freshWq lapActs).frees = [(0, 0), (2, 0)] := by decide
  refine ⟨reach_afterActs freshWq_init lapActs, hf, fun h => ?_⟩
  have := h.once
  rw [hf] at this
  simp at this

end DisKverbs
