import DisKverbs.WqSpec
import DisKverbs.CqView

namespace DisKverbs

open CellProg CircBuf RingMachine StepSystem

/-- A work queue whose worker is one of the producers of a completion queue; `called` is
set while the worker waits for its completion function to return. -/
structure PairState (ι : Type) where
  wq : WqState
  cq : CqState ι
  called : Bool

inductive PairAct (ι : Type)
  | wq (a : WqAct)
  | call
  | cq (a : CqAct ι)

section

variable {ι : Type} [DecidableEq ι] (cfg : WqCfg) (r : RingSize) (me : ι)

/-- The worker calls its completion function and goes on when it has returned, whatever
it returned. The other producers and the poller act as they like. -/
def pairStep (s : PairState ι) : PairAct ι → Option (PairState ι)
  | .wq (.worker out) =>
    match s.wq.worker with
    | .complete _ _ =>
      match s.called, s.cq.view me with
      | true, .quiet =>
        (workerStep cfg out s.wq).map fun wq => { s with wq := wq, called := false }
      | _, _ => none
    | _ => (workerStep cfg out s.wq).map fun wq => { s with wq := wq }
  | .wq a => (wqStep cfg s.wq a).map fun wq => { s with wq := wq }
  | .call =>
    match s.wq.worker, s.called with
    | .complete tail status, false =>
      (cqStep r s.cq (.call me ⟨cfg.type, s.wq.slots tail, status⟩)).map fun cq =>
        { s with cq := cq, called := true }
    | _, _ => none
  | .cq (.call i call) =>
    if i = me then none else (cqStep r s.cq (.call i call)).map fun cq => { s with cq := cq }
  | .cq a => (cqStep r s.cq a).map fun cq => { s with cq := cq }

def PairInit (s : PairState ι) : Prop := WqInit s.wq ∧ CqInit s.cq ∧ s.called = false

inductive PairMove (s : PairState ι) : PairAct ι → PairState ι → Prop
  | wq {a wq} : wqStep cfg s.wq a = some wq →
      (∀ out, a = .worker out → ∀ tail status, s.wq.worker ≠ .complete tail status) →
      PairMove s (.wq a) { s with wq := wq }
  | back {out wq tail status} : s.wq.worker = .complete tail status → s.called = true →
      s.cq.view me = .quiet → workerStep cfg out s.wq = some wq →
      PairMove s (.wq (.worker out)) { s with wq := wq, called := false }
  | call {tail status cq} : s.wq.worker = .complete tail status → s.called = false →
      cqStep r s.cq (.call me ⟨cfg.type, s.wq.slots tail, status⟩) = some cq →
      PairMove s .call { s with cq := cq, called := true }
  | cq {a cq} : (∀ call, a ≠ .call me call) → cqStep r s.cq a = some cq →
      PairMove s (.cq a) { s with cq := cq }

variable {cfg r me} {s t : PairState ι}

theorem pairStep_move {a : PairAct ι} (h : pairStep cfg r me s a = some t) :
    PairMove cfg r me s a t := by
  unfold pairStep at h
  split at h
  next out =>
    split at h
    next hw =>
      split at h
      next hc hv =>
        obtain ⟨wq, hs, rfl⟩ := Option.map_eq_some_iff.mp h
        exact .back hw hc hv hs
      next => simp at h
    next hw =>
      obtain ⟨wq, hs, rfl⟩ := Option.map_eq_some_iff.mp h
      exact .wq hs fun _ _ tail status he => hw tail status he
  next a hw =>
    obtain ⟨wq, hs, rfl⟩ := Option.map_eq_some_iff.mp h
    exact .wq hs fun out he => absurd he (hw out)
  next =>
    split at h
    next hw hc =>
      obtain ⟨cq, hs, rfl⟩ := Option.map_eq_some_iff.mp h
      exact .call hw hc hs
    next => simp at h
  next i call =>
    split at h
    next => simp at h
    next hne =>
      obtain ⟨cq, hs, rfl⟩ := Option.map_eq_some_iff.mp h
      exact .cq (fun call' he => hne (by cases he; rfl)) hs
  next a ha =>
    obtain ⟨cq, hs, rfl⟩ := Option.map_eq_some_iff.mp h
    exact .cq (fun call he => ha me call he) hs

variable {ok : PairState ι → PairAct ι → Prop}

/-- A pair runs its work queue and its completion queue by their own steps. -/
theorem reach_pairWq (h : Reach PairInit (Acts (pairStep cfg r me) ok) s) :
    Reach WqInit (Acts (wqStep cfg) anyAct) s.wq := by
  apply h.project PairState.wq
  · exact fun s hi => hi.1
  · rintro s t _ _ ⟨a, _, hs⟩
    cases pairStep_move hs with
    | wq hq _ => exact .inr ⟨_, trivial, hq⟩
    | @back out wq tail status _ _ _ hq => exact .inr ⟨.worker out, trivial, hq⟩
    | _ => exact .inl rfl

theorem reach_pairCq (h : Reach PairInit (Acts (pairStep cfg r me) ok) s) :
    Reach CqInit (Acts (cqStep r) anyAct) s.cq := by
  apply h.project PairState.cq
  · exact fun s hi => hi.2.1
  · rintro s t _ _ ⟨a, _, hs⟩
    cases pairStep_move hs with
    | call _ _ hq => exact .inr ⟨_, trivial, hq⟩
    | cq _ hq => exact .inr ⟨_, trivial, hq⟩
    | _ => exact .inl rfl

end

end DisKverbs
