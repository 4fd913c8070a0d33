import DisKverbs.PairInvariant

namespace DisKverbs

open CellProg CircBuf RingMachine StepSystem

variable {ι : Type} [DecidableEq ι] {s : PairState ι}

/-- Every retired WQE has exactly one completion, in the order of posting; one more
completion may be there for the WQE whose retirement is under way. -/
structure CompletedOnce (me : ι) (s : PairState ι) : Prop where
  one : s.wq.retired.length ≤ (s.cq.mine me).length ∧
    (s.cq.mine me).length ≤ s.wq.retired.length + 1
  order : ∀ (i : Nat) (e : Inserted ι), (s.cq.mine me)[i]? = some e →
    ∃ p : Posted, s.wq.posted[i]? = some p ∧ e.cqe.wrId = p.wqe.wrId ∧
      e.cqe.opcode = p.wqe.opcode ∧ e.cqe.ibqp = p.wqe.ibqp
  status : ∀ (i : Nat) (st : IbWcStatus), s.wq.retired[i]? = some st →
    ∃ e : Inserted ι, (s.cq.mine me)[i]? = some e ∧ e.cqe.status = st

theorem PairInv.completedOnce {me : ι} (hi : PairInv me s) (hf : CqFill s.cq) : CompletedOnce me s := by
  have hrep : reported (s.cq.mine me) = s.wq.retired ∨
      ∃ status, reported (s.cq.mine me) = s.wq.retired ++ [status] := by
    cases hi.phase with
    | quiet _ _ _ hm => exact .inl hm
    | running _ _ _ _ hm => exact .inl hm
    | returned _ _ _ hm => exact .inr ⟨_, hm⟩
    | completed _ _ _ hm => exact .inr ⟨_, hm⟩
  have stored : ∀ (i : Nat) (e : Inserted ι), (s.cq.mine me)[i]? = some e →
      e.cqe = e.call.wqe.cqe e.call.status := by
    intro i e he
    exact hf.entries e (List.mem_of_mem_filter (List.mem_of_getElem? he))
  refine ⟨?_, ?_, ?_⟩
  · have hlen : (reported (s.cq.mine me)).length = (s.cq.mine me).length := by simp [reported]
    rcases hrep with hm | ⟨status, hm⟩
    · rw [hm] at hlen
      omega
    · rw [hm] at hlen
      simp only [List.length_append, List.length_singleton] at hlen
      omega
  · intro i e he
    obtain ⟨p, hp, hk⟩ := hi.entries i e he
    rw [stored i e he]
    have hid := congrArg DisWqe.wrId hk
    have hop := congrArg DisWqe.opcode hk
    have hqp := congrArg DisWqe.ibqp hk
    exact ⟨p, hp, hid, hop, hqp⟩
  · intro i st hst
    have hmem : (reported (s.cq.mine me))[i]? = some st := by
      rcases hrep with hm | ⟨status, hm⟩
      · rw [hm]; exact hst
      · rw [hm, List.getElem?_append_left (List.getElem?_eq_some_iff.mp hst).1]
        exact hst
    rw [reported, List.getElem?_map] at hmem
    obtain ⟨e, he, hs⟩ := Option.map_eq_some_iff.mp hmem
    refine ⟨e, he, ?_⟩
    rw [stored i e he]
    exact hs

/-- While the completion queue never is full for this worker, no WQE is retired without
its completion. -/
theorem reach_completedOnce (cfg : WqCfg) (r : RingSize) (me : ι) (s : PairState ι)
    (h : Reach PairInit (Acts (pairStep cfg r me) (SpaceFor r me)) s) : CompletedOnce me s := by
  have hi : PairInv me s := by
    apply h.invariant
    · rintro ⟨_, _, _⟩ ⟨rfl, rfl, rfl⟩
      exact ⟨by simp [CqState.mine], .quiet (by simp [WorkerPc.stage]) rfl rfl rfl⟩
    · rintro s t hr hi ⟨a, hok, hs⟩
      exact hi.move (reach_wqRing (reach_pairWq hr)) (reach_lockFree (reach_pairCq hr)) hok
        (pairStep_move hs)
  exact hi.completedOnce (reach_cqFill (reach_pairCq h))

def freshPair : PairState Nat := ⟨freshWq, freshCq, false⟩

theorem freshPair_init : PairInit freshPair := ⟨rfl, rfl, rfl⟩

/-- `SpaceFor`, as a test of the state before the step. -/
def hasSpace (r : RingSize) (s : PairState Nat) : PairAct Nat → Bool
  | .cq (.producer _) =>
    match s.cq.holder with
    | some (_, _, .gotHead head) => decide (¬ circSpace head s.cq.tail r.size < 1)
    | _ => true
  | _ => true

theorem hasSpace_sound (r : RingSize) (me : Nat) (s : PairState Nat) (a : PairAct Nat)
    (h : hasSpace r s a = true) : SpaceFor r me s a := by
  cases a with
  | cq a =>
    cases a with
    | producer i =>
      intro _ call head hh
      simpa [hasSpace, hh] using h
    | _ => trivial
  | _ => trivial

def sendPairActs (n : Nat) : List (PairAct Nat) :=
  (postActs emptyWr 11).map .wq ++ List.replicate 5 (.wq (.worker (some 0))) ++ [.call] ++
    List.replicate n (.cq (.producer 0)) ++ List.replicate 3 (.wq (.worker (some 0)))

/-- A poll of at most one entry. -/
def pollPairActs : List (PairAct Nat) := .cq (.poll 1) :: List.replicate 8 (.cq .poller)

theorem reach_completedOnce_poll :
    (afterChecked (pairStep twoSlotSq twoSlots 0) (hasSpace twoSlots) freshPair
        (sendPairActs 10 ++ pollPairActs ++ sendPairActs 10)).wq.retired = [.success, .success] ∧
      CompletedOnce 0 (afterChecked (pairStep twoSlotSq twoSlots 0) (hasSpace twoSlots) freshPair
        (sendPairActs 10 ++ pollPairActs ++ sendPairActs 10)) :=
  ⟨by decide, reach_completedOnce twoSlotSq twoSlots 0 _
    (reach_afterChecked (hasSpace_sound twoSlots 0) (reach_start freshPair_init) _)⟩

/-- Two sends and no poll: the second completion finds the queue full. -/
def overflowPair : PairState Nat :=
  afterActs (pairStep twoSlotSq twoSlots 0) freshPair (sendPairActs 10 ++ sendPairActs 4)

theorem overflow_no_completion :
    Reach PairInit (Acts (pairStep twoSlotSq twoSlots 0) anyAct) overflowPair ∧
      overflowPair.wq.retired = [.success, .success] ∧ (overflowPair.cq.mine 0).length = 1 ∧
      overflowPair.cq.rets = [(0, 0), (0, -42)] ∧ ¬ CompletedOnce 0 overflowPair := by
  have hret : overflowPair.wq.retired = [.success, .success] := by decide
  have hmine : (overflowPair.cq.mine 0).length = 1 := by decide
  refine ⟨reach_afterActs freshPair_init _, hret, hmine, by decide, fun h => ?_⟩
  have hone := h.one.1
  rw [hret, hmine] at hone
  simp at hone

end DisKverbs
