import DisKverbs.CompletionStage

namespace DisKverbs

open CellProg CircBuf RingMachine StepSystem

variable {ι : Type} [DecidableEq ι] {cfg : WqCfg} {r : RingSize} {me : ι} {s t : PairState ι}

/-- Between the completion of a WQE and its retirement. -/
theorem PairPhase.of_completed (hp : PairPhase me s) {status : IbWcStatus}
    (h : s.wq.worker.stage = .completed status) : s.called = false ∧ s.cq.view me = .quiet ∧
      reported (s.cq.mine me) = s.wq.retired ++ [status] := by
  cases hp with
  | quiet hq => exact absurd h (hq _)
  | running hw => simp [hw, WorkerPc.stage] at h
  | returned hw => simp [hw, WorkerPc.stage] at h
  | completed h' hcall hv hm =>
    rw [h] at h'
    cases h'
    exact ⟨hcall, hv, hm⟩

/-- While the completion function runs for the worker. -/
theorem PairPhase.of_running (hp : PairPhase me s) {call : CqeCall}
    (h : s.cq.view me = .running call) : (∃ tail, s.wq.worker = .complete tail call.status) ∧
      s.called = true ∧ Reports s.wq.posted s.wq.retired.length call ∧
      reported (s.cq.mine me) = s.wq.retired := by
  cases hp with
  | quiet _ _ hv => simp [hv] at h
  | running hw hcall hv hrep hm =>
    rw [hv] at h
    cases h
    exact ⟨⟨_, hw⟩, hcall, hrep, hm⟩
  | returned _ _ hv => exact absurd h (hv _)
  | completed _ _ hv => simp [hv] at h

theorem PairPhase.wq (hp : PairPhase me s) {a : WqAct} {wq : WqState}
    (hs : wqStep cfg s.wq a = some wq)
    (hn : ∀ out, a = .worker out → ∀ tail status, s.wq.worker ≠ .complete tail status) :
    PairPhase me { s with wq := wq } := by
  by_cases ha : ∃ out, a = .worker out
  · obtain ⟨out, rfl⟩ := ha
    have hne := hn out rfl
    cases (workerStep_move hs).stage with
    | consume hc ht hret =>
      cases hp with
      | quiet h hcall hv hm => exact .quiet ht hcall hv (by rw [hm]; exact hret.symm)
      | running h => exact absurd h (hne _ _)
      | returned h => exact absurd h (hne _ _)
      | completed h => simp [hc] at h
    | complete h => exact absurd h (hne _ _)
    | free h ht hret =>
      obtain ⟨hcall, hv, hm⟩ := hp.of_completed h
      exact .completed ht hcall hv (by rw [hm]; exact congrArg (· ++ _) hret.symm)
    | retire h ht hret =>
      obtain ⟨hcall, hv, hm⟩ := hp.of_completed h
      exact .quiet (by simp [ht]) hcall hv (by rw [hm]; exact hret.symm)
  · obtain ⟨hw, hret, es, hpost⟩ := wqStep_other (not_exists.mp ha) hs
    cases hp with
    | quiet h hcall hv hm => exact .quiet (by rw [hw]; exact h) hcall hv (by rw [hm]; exact hret.symm)
    | running h hcall hv hrep hm =>
      refine .running (hw.trans h) hcall hv ?_ (by rw [hm]; exact hret.symm)
      rw [hpost, hret]
      exact hrep.append es
    | returned h hcall hv hm =>
      exact .returned (hw.trans h) hcall hv (by rw [hm]; exact congrArg (· ++ _) hret.symm)
    | completed h hcall hv hm =>
      exact .completed (by rw [hw]; exact h) hcall hv
        (by rw [hm]; exact congrArg (· ++ _) hret.symm)

theorem PairPhase.cq (hp : PairPhase me s) {a : CqAct ι} {cq : CqState ι}
    (ha : ∀ call, a ≠ .call me call) (hok : SpaceFor r me s (.cq a))
    (hv : ViewMove r me s.cq a cq) : PairPhase me { s with cq := cq } := by
  cases hv with
  | other hview hmine =>
    cases hp with
    | quiet h hcall hv hm => exact .quiet h hcall (hview.trans hv) (by rw [hmine]; exact hm)
    | running h hcall hv hrep hm =>
      exact .running h hcall (hview.trans hv) hrep (by rw [hmine]; exact hm)
    | returned h hcall hv hm =>
      exact .returned h hcall (by rw [hview]; exact hv) (by rw [hmine]; exact hm)
    | completed h hcall hv hm => exact .completed h hcall (hview.trans hv) (by rw [hmine]; exact hm)
  | call => exact absurd rfl (ha _)
  | full hh hs => exact absurd hs (hok rfl _ _ hh)
  | @insert call cqe _ hrun hret hmine =>
    obtain ⟨⟨tail, hw⟩, hcall, _, hm⟩ := hp.of_running hrun
    refine .returned hw hcall (by simp [hret]) ?_
    rw [hmine, reported, List.map_append, ← reported, hm]
    rfl
  | unlock hret hquiet hmine =>
    cases hp with
    | quiet _ _ hv => simp [hv] at hret
    | running _ _ hv => simp [hv] at hret
    | returned h hcall _ hm => exact .returned h hcall (by simp [hquiet]) (by rw [hmine]; exact hm)
    | completed _ _ hv => simp [hv] at hret

theorem PairInv.cq_entries (hi : PairInv me s) {a : CqAct ι} {cq : CqState ι}
    (hv : ViewMove r me s.cq a cq) :
    ∀ i e, (cq.mine me)[i]? = some e → Reports s.wq.posted i e.call := by
  have keep : cq.mine me = s.cq.mine me →
      ∀ i e, (cq.mine me)[i]? = some e → Reports s.wq.posted i e.call := by
    intro hm
    rw [hm]
    exact hi.entries
  cases hv with
  | other _ hm => exact keep hm
  | call _ _ hm => exact keep hm
  | full _ _ _ hm => exact keep hm
  | unlock _ _ hm => exact keep hm
  | @insert call cqe _ hrun hret hmine =>
    intro i e he
    rw [hmine] at he
    rcases Nat.lt_or_ge i (s.cq.mine me).length with hlt | hge
    · exact hi.entries i e (by rwa [List.getElem?_append_left hlt] at he)
    · rw [List.getElem?_append_right hge, List.getElem?_singleton] at he
      split at he
      next hz =>
        cases Option.some.inj he
        obtain ⟨_, _, hrep, hm⟩ := hi.phase.of_running hrun
        have hlen := congrArg List.length hm
        simp only [reported, List.length_map] at hlen
        have hik : i = s.wq.retired.length := by omega
        rw [hik]
        exact hrep
      next => simp at he

theorem PairInv.move (hi : PairInv me s) (hr : RingInv cfg.ring DisWqe.eraseLen s.wq.ring)
    (hf : LockFree s.cq) {a : PairAct ι} (hok : SpaceFor r me s a)
    (h : PairMove cfg r me s a t) : PairInv me t := by
  cases h with
  | @wq a wq hs hn =>
    refine ⟨?_, hi.phase.wq hs hn⟩
    obtain ⟨es, hpost⟩ := wqStep_posted hs
    intro i e he
    show Reports wq.posted i e.call
    rw [hpost]
    exact (hi.entries i e he).append es
  | @back out wq tail status hw hcall hv hs =>
    have hm := workerStep_move hs
    refine ⟨?_, ?_⟩
    · intro i e he
      show Reports wq.posted i e.call
      rw [hm.frame.2.1]
      exact hi.entries i e he
    · have hstage : s.wq.worker.stage = .completing tail status := by rw [hw]; rfl
      cases hi.phase with
      | quiet _ hc => simp [hc] at hcall
      | running _ _ hv' => simp [hv'] at hv
      | returned hw' _ _ hrep =>
        rw [hw] at hw'
        cases hw'
        cases hm.stage with
        | consume hc => simp [hstage] at hc
        | free hc => simp [hstage] at hc
        | retire hc => simp [hstage] at hc
        | complete hw' ht hret =>
          rw [hw] at hw'
          cases hw'
          exact .completed ht rfl hv (by rw [hrep]; exact congrArg (· ++ _) hret.symm)
      | completed h => simp [hstage] at h
  | @call tail status cq hw hcall hs =>
    obtain ⟨hquiet, hrun, hmine⟩ := (cqStep_move hs).call_view
    have hhold : s.wq.worker.holds = some tail := by rw [hw]; rfl
    refine ⟨?_, ?_⟩
    · intro i e he
      exact hi.entries i e (hmine ▸ he)
    · cases hi.phase with
      | quiet _ _ _ hm =>
        exact .running hw rfl hrun (held_reports hr hhold cfg.type status)
          (by rw [hmine]; exact hm)
      | running _ hc => simp [hcall] at hc
      | returned _ hc => simp [hcall] at hc
      | completed h => rw [hw] at h; simp [WorkerPc.stage] at h
  | @cq a cq ha hs =>
    have hv : ViewMove r me s.cq a cq := (cqStep_move hs).view hf
    exact ⟨hi.cq_entries hv, hi.phase.cq ha hok hv⟩

end DisKverbs
