import DisKverbs.Link

namespace DisKverbs

open ByteMem CellProg RingMachine StepSystem

inductive LinkMove (cfg : LinkCfg) (s : LinkState) : LinkAct → LinkState → Prop
  | sq {a sq} : wqStep cfg.sq s.sq a = some sq →
      LinkMove cfg s (.sq a) { s with
        sq := sq
        channel := s.channel ++ s.sent a
        offered := s.offered ++ s.accepted sq
        handed := s.handed ++ s.sent a }
  | rq {a rq} : s.rq.moving a = none → wqStep cfg.rq s.rq a = some rq →
      LinkMove cfg s (.rq a) { s with rq := rq, delivered := s.delivered ++ s.completed a }
  | receive {a tail m rest rq} : s.rq.moving a = some tail → s.channel = m :: rest →
      m.length = (s.rq.slots tail).byteLen.toNat →
      wqStep cfg.rq s.rq (.worker (some (s.rq.slots tail).byteLen)) = some rq →
      LinkMove cfg s (.rq a) { s with
        rq := rq
        channel := rest
        recvMem := writeBytes s.recvMem (s.rq.slots tail).msgBytes m }
  | sendWrite {addr v} :
      LinkMove cfg s (.sendWrite addr v) { s with sendMem := Function.update s.sendMem addr v }
  | recvWrite {addr v} :
      LinkMove cfg s (.recvWrite addr v) { s with recvMem := Function.update s.recvMem addr v }

/-- The worker is receiving: a send queue never does. -/
def WorkerPc.receives : WorkerPc → Prop
  | .recvTotal _ | .recvLeft _ _ | .recvTop _ _ _ | .recvCall _ _ _ | .recvGot _ _ _
  | .recvWhole _ _ | .recvAgain _ _ _ => True
  | _ => False

section

variable {keep : Nat → Prop} {cfg : LinkCfg} {s t : LinkState}

theorem linkStep_move {a : LinkAct} (h : linkStep cfg s a = some t) : LinkMove cfg s a t := by
  cases a with
  | sq a =>
    obtain ⟨sq, hs, rfl⟩ := Option.map_eq_some_iff.mp h
    exact .sq hs
  | rq a =>
    simp only [linkStep, LinkState.rqStep] at h
    split at h
    next hm =>
      obtain ⟨rq, hs, rfl⟩ := Option.map_eq_some_iff.mp h
      exact .rq hm hs
    next => simp at h
    next hm hc =>
      split at h
      next hl =>
        obtain ⟨rq, hs, rfl⟩ := Option.map_eq_some_iff.mp h
        exact .receive hm hc hl hs
      next => simp at h
  | sendWrite addr v => cases Option.some.inj h; exact .sendWrite
  | recvWrite addr v => cases Option.some.inj h; exact .recvWrite

theorem workerStep_sends {cfg : WqCfg} (hq : cfg.type = .sq) {s t : WqState} {out : Option UInt32}
    (hs : ¬ s.worker.receives) (h : workerStep cfg out s = some t) : ¬ t.worker.receives := by
  have hn {pc : WorkerPc} (hw : s.worker = pc) (hp : pc.receives) : ¬ t.worker.receives := by
    rw [hw] at hs
    exact absurd hp hs
  cases workerStep_access h with
  | acquireRqe _ _ hrq => simp [hq] at hrq
  | loadTotal hw | loadLeft hw | recvCalled hw | recvFailed hw | received hw | whole hw
  | part hw | again hw => exact hn hw trivial
  | _ => exact not_false

theorem reach_sends {cfg : WqCfg} (hq : cfg.type = .sq) {s : WqState}
    {ok : WqState → WqAct → Prop} (h : Reach WqInit (Acts (wqStep cfg) ok) s) :
    ¬ s.worker.receives := by
  apply h.invariant
  · rintro s rfl
    exact not_false
  · rintro s t _ hn ⟨a, _, hs⟩
    by_cases ha : ∃ out, a = .worker out
    · obtain ⟨out, rfl⟩ := ha
      exact workerStep_sends hq hn hs
    · rw [(wqStep_other (not_exists.mp ha) hs).1]
      exact hn

/-- The requester of a link runs its queue by the queue's own steps. -/
theorem reach_linkSq (h : Reach LinkInit (Acts (linkStep cfg) (LinkOk keep cfg)) s) :
    Reach WqInit (Acts (wqStep cfg.sq) WholeAct) s.sq := by
  apply h.project LinkState.sq
  · exact fun s hi => hi.1
  · rintro s t _ hr ⟨a, ⟨hok, _⟩, hs⟩
    cases linkStep_move hs with
    | @sq a sq hq =>
      refine .inr ⟨a, ?_, hq⟩
      cases a with
      | stop => exact hok
      | worker out =>
        cases out with
        | none => trivial
        | some n =>
          intro tail total left hw
          have hn := reach_sends cfg.sqType hr
          rw [hw] at hn
          exact absurd trivial hn
      | _ => trivial
    | _ => exact .inl rfl

theorem moving_recv {s : WqState} {a : WqAct} {tail tail' : Nat} {total left : UInt32}
    (h : s.moving a = some tail) (hw : s.worker = .recvCall tail' total left) : tail = tail' := by
  cases a with
  | worker out =>
    cases out with
    | none => simp [WqState.moving] at h
    | some n => simpa [WqState.moving, hw, eq_comm] using h
  | _ => simp [WqState.moving] at h

theorem reach_linkRq (h : Reach LinkInit (Acts (linkStep cfg) (LinkOk keep cfg)) s) :
    Reach WqInit (Acts (wqStep cfg.rq) WholeAct) s.rq := by
  apply h.project LinkState.rq
  · exact fun s hi => hi.2.1
  · rintro s t _ _ ⟨a, ⟨hok, _⟩, hs⟩
    cases linkStep_move hs with
    | @rq a rq hm hq =>
      refine .inr ⟨a, ?_, hq⟩
      cases a with
      | stop => exact hok
      | worker out =>
        cases out with
        | none => trivial
        | some n =>
          intro tail total left hw
          simp [WqState.moving, hw] at hm
      | _ => trivial
    | @receive a tail m rest rq hm _ _ hq =>
      refine .inr ⟨_, ?_, hq⟩
      intro tail' total left hw
      rw [moving_recv hm hw]
    | _ => exact .inl rfl

theorem reach_linkSound (h : Reach LinkInit (Acts (linkStep cfg) (LinkOk keep cfg)) s) :
    LinkSound keep s := by
  apply h.invariant
  · rintro s ⟨hs, hr, _⟩
    rw [WqInit] at hs hr
    refine ⟨?_, ?_, ?_, ?_⟩ <;> simp [hs, hr]
  · rintro s t _ _ ⟨a, ⟨_, hok⟩, hs⟩
    exact hok t hs

end

end DisKverbs
