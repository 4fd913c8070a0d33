import DisKverbs.WqThread
import DisKverbs.WqSpec

namespace DisKverbs

open StepSystem TraceBracket

/-- What a call does to the message queue; only a successful creation or connection opens it. -/
def MsqCall.mark : MsqCall → Mark
  | .createMsq ret | .connectMsq ret => if ret = 0 then .opens else .skips
  | .receiveVMsg _ | .sendVMsg _ => .uses
  | .removeMsq | .disconnectMsq => .closes

/-- The queues whose workers make a call. -/
def MsqCall.type : MsqCall → DisWqType
  | .createMsq _ | .receiveVMsg _ | .removeMsq => .rq
  | .connectMsq _ | .sendVMsg _ | .disconnectMsq => .sq

/-- The queues whose workers come to a place. -/
def WorkerPc.side : WorkerPc → Option DisWqType
  | .sendTop _ | .sendCall _ => some .sq
  | .recvTotal _ | .recvLeft .. | .recvTop .. | .recvCall .. | .recvGot .. | .recvWhole ..
  | .recvAgain .. => some .rq
  | _ => none

def WqThreadPc.phase : WqThreadPc → Phase
  | .setRunning | .initTop | .initCall | .initFailed => .before
  | .setExited => .after
  | .returned ret => if ret = 0 then .after else .before
  | _ => .inside

def WqThreadPc.status : WqThreadPc → DisWqStatus
  | .setRunning => .initialized
  | .returned _ => .exited
  | _ => .running

/-- The calls so far have brought the message queue where the thread is. -/
structure ThreadInv (cfg : WqCfg) (s : WqThread) : Prop where
  phase : phase MsqCall.mark .before s.calls = some s.pc.phase
  own : ∀ c ∈ s.calls, c.type = cfg.type
  side : ∀ type, s.wq.worker.side = some type → type = cfg.type
  status : s.wqState = s.pc.status

section

variable {cfg : WqCfg} {p : SciIf} {qpn : WqQpn} {s t : WqThread}

theorem workerStep_side {out : Option UInt32} {s t : WqState} (h : workerStep cfg out s = some t)
    (hs : ∀ type, s.worker.side = some type → type = cfg.type) (type : DisWqType)
    (ht : t.worker.side = some type) : type = cfg.type := by
  cases workerStep_access h with
  | acquireSqe _ _ he | acquireRqe _ _ he =>
    cases ht
    exact he.symm
  | sendCalled hw _ | sendFailed hw | loadTotal hw | loadLeft hw | recvCalled hw _ | recvFailed hw
  | received hw | whole hw _ | part hw _ | again hw =>
    exact hs type (by rw [hw]; exact ht)
  | leave _ _ | enter _ _ | peek _ | empty _ _ | _ => simp [WorkerPc.side] at ht

/-- The transfers of a worker are those of its queue. -/
theorem call_uses {pc : WorkerPc} {out : Option UInt32} {c : MsqCall} (h : c ∈ pc.call out) :
    c.mark = .uses ∧ pc.side = some c.type := by
  cases pc with
  | sendCall tail | recvCall tail total left =>
    rw [List.mem_singleton.mp h]
    exact ⟨rfl, rfl⟩
  | _ => simp [WorkerPc.call] at h

theorem phase_uses {calls : List MsqCall} (h : ∀ c ∈ calls, c.mark = .uses) :
    phase MsqCall.mark .inside calls = some .inside := by
  induction calls with
  | nil => rfl
  | cons c calls ih =>
    rw [phase, h c (List.mem_cons_self ..)]
    exact ih fun c hc => h c (List.mem_cons_of_mem _ hc)

theorem after_phase (pc : WorkerPc) : pc.after.phase = .inside ∧ pc.after.status = .running := by
  cases pc <;> exact ⟨rfl, rfl⟩

theorem initCall_mark {type : DisWqType} {ret : Int} :
    (disWqInitCall type ret).type = type ∧
      (disWqInitCall type ret).mark = if ret = 0 then .opens else .skips := by
  cases type <;> exact ⟨rfl, rfl⟩

theorem wqExit_mark {type : DisWqType} :
    (disWqExit type).type = type ∧ (disWqExit type).mark = .closes := by
  cases type <;> exact ⟨rfl, rfl⟩

/-- The accesses of the thread: it goes on within a phase, makes a call that leads it to
another, or goes on in `dis_wq_consume_all`. -/
inductive WqThreadMove (cfg : WqCfg) (s : WqThread) : WqThread → Prop
  | goes {pc st flag} : pc.phase = s.pc.phase → (s.wqState = s.pc.status → st = pc.status) →
      WqThreadMove cfg s { s with pc := pc, wqState := st, wqFlag := flag }
  | calls {c pc} : c.type = cfg.type → s.pc.phase.next c.mark = some pc.phase →
      pc.status = s.pc.status → WqThreadMove cfg s { s with calls := s.calls ++ [c], pc := pc }
  | consume {out w} : s.pc = .consume → workerStep cfg out s.wq = some w →
      WqThreadMove cfg s { s with
        wq := w
        calls := s.calls ++ s.wq.worker.call out
        pc := w.worker.after }

theorem wqThreadStep_move {scil : MsqArgs → SciError} {out : Option UInt32}
    (h : wqThreadStep cfg p qpn scil out s = some t) : WqThreadMove cfg s t := by
  have quiet {pc : WqThreadPc} (he : { s with pc := pc } = t) (hp : pc.phase = s.pc.phase)
      (hs : pc.status = s.pc.status) : WqThreadMove cfg s t := by
    subst he
    exact .goes hp fun h => h.trans hs.symm
  unfold wqThreadStep at h
  split at h
  next hp => cases Option.some.inj h; exact .goes (by rw [hp]; rfl) fun _ => rfl
  next hp =>
    refine quiet (Option.some.inj h) ?_ ?_ <;> rw [hp] <;> cases s.wq.shouldStop <;> rfl
  next hp =>
    cases Option.some.inj h
    obtain ⟨htype, hmark⟩ := @initCall_mark cfg.type (disWqInitTry scil p cfg.type qpn)
    refine .calls htype ?_ ?_
    · rw [hmark, hp]
      split <;> rfl
    · rw [hp]
      split <;> rfl
  next hp => cases Option.some.inj h; exact .goes (by rw [hp]; rfl) fun _ => rfl
  next hp =>
    refine quiet (Option.some.inj h) ?_ ?_ <;> rw [hp] <;> cases s.wq.shouldStop <;> rfl
  next hp =>
    cases Option.some.inj h
    exact .goes (by rw [hp]; rfl) fun hs => hs.trans (by rw [hp]; rfl)
  next hp =>
    obtain ⟨w, hw, rfl⟩ := Option.map_eq_some_iff.mp h
    exact .consume hp hw
  next hp =>
    refine quiet (Option.some.inj h) ?_ ?_ <;> rw [hp] <;> split <;> rfl
  next signal hp =>
    split at h
    next => exact quiet (Option.some.inj h) (by rw [hp]; rfl) (by rw [hp]; rfl)
    next =>
      cases signal with
      | none => exact quiet (Option.some.inj h) (by rw [hp]; rfl) (by rw [hp]; rfl)
      | some killed =>
        refine quiet (Option.some.inj h) ?_ ?_ <;> rw [hp] <;> cases killed <;> rfl
  next hp => exact quiet (Option.some.inj h) (by rw [hp]; rfl) (by rw [hp]; rfl)
  next hp => exact quiet (Option.some.inj h) (by rw [hp]; rfl) (by rw [hp]; rfl)
  next hp =>
    cases Option.some.inj h
    obtain ⟨htype, hmark⟩ := @wqExit_mark cfg.type
    exact .calls htype (by rw [hmark, hp]; rfl) (by rw [hp]; rfl)
  next hp => cases Option.some.inj h; exact .goes (by rw [hp]; rfl) fun _ => rfl
  next => simp at h

theorem ThreadInv.thread (hi : ThreadInv cfg s) (h : WqThreadMove cfg s t) : ThreadInv cfg t := by
  cases h with
  | goes hp hs => exact ⟨by rw [hp]; exact hi.phase, hi.own, hi.side, hs hi.status⟩
  | @calls c pc htype hp hs =>
    refine ⟨(phase_snoc hi.phase).trans hp, ?_, hi.side, hi.status.trans hs.symm⟩
    intro c' hc'
    rcases List.mem_append.mp hc' with hc' | hc'
    · exact hi.own c' hc'
    · rw [List.mem_singleton.mp hc']
      exact htype
  | @consume out w hp hw =>
    obtain ⟨hphase, hafter⟩ := after_phase w.worker
    have hbefore := hi.phase
    have hstatus := hi.status
    rw [hp] at hbefore hstatus
    refine ⟨?_, ?_, workerStep_side hw hi.side, hstatus.trans hafter.symm⟩
    · rw [phase_append, hbefore, hphase]
      exact phase_uses fun c hc => (call_uses hc).1
    · intro c hc
      rcases List.mem_append.mp hc with hc | hc
      · exact hi.own c hc
      · exact hi.side _ (call_uses hc).2

/-- The other contexts call nothing and leave the thread where it is. -/
theorem wqThreadRun_cases {a : WqThreadAct} (h : wqThreadRun cfg p qpn s a = some t) :
    (∃ scil out, wqThreadStep cfg p qpn scil out s = some t) ∨
      t.pc = s.pc ∧ t.wqState = s.wqState ∧ t.calls = s.calls ∧ t.wq.worker = s.wq.worker := by
  cases a with
  | thread scil out => exact .inl ⟨scil, out, h⟩
  | start req =>
    obtain ⟨w, hw, rfl⟩ := Option.map_eq_some_iff.mp h
    obtain ⟨_, rfl⟩ := wqStep_start hw
    exact .inr ⟨rfl, rfl, rfl, rfl⟩
  | poster buf =>
    obtain ⟨w, hw, rfl⟩ := Option.map_eq_some_iff.mp h
    refine .inr ⟨rfl, rfl, rfl, ?_⟩
    cases posterStep_move hw <;> rfl
  | notify | stop | kill =>
    cases Option.some.inj h
    exact .inr ⟨rfl, rfl, rfl, rfl⟩

/-- Everything that is known of a queue holds with the whole thread around its worker. -/
theorem reach_threadWq (h : Reach WqThreadInit (Acts (wqThreadRun cfg p qpn) anyAct) s) :
    Reach WqInit (Acts (wqStep cfg) anyAct) s.wq := by
  apply h.project WqThread.wq
  · exact fun s hi => hi.1
  · rintro s t _ _ ⟨a, _, hs⟩
    cases a with
    | thread scil out =>
      cases wqThreadStep_move hs with
      | goes _ _ | calls _ _ _ => exact .inl rfl
      | @consume out w _ hw => exact .inr ⟨.worker out, trivial, hw⟩
    | start req =>
      obtain ⟨w, hw, rfl⟩ := Option.map_eq_some_iff.mp hs
      exact .inr ⟨.start req, trivial, hw⟩
    | poster buf =>
      obtain ⟨w, hw, rfl⟩ := Option.map_eq_some_iff.mp hs
      exact .inr ⟨.poster buf, trivial, hw⟩
    | stop =>
      cases Option.some.inj hs
      exact .inr ⟨.stop, trivial, rfl⟩
    | notify | kill =>
      cases Option.some.inj hs
      exact .inl rfl

theorem reach_threadInv (h : Reach WqThreadInit (Acts (wqThreadRun cfg p qpn) anyAct) s) :
    ThreadInv cfg s := by
  apply h.invariant
  · rintro s ⟨hw, hp, hs, hc⟩
    refine ⟨by rw [hc, hp]; rfl, by simp [hc], ?_, by rw [hs, hp]; rfl⟩
    intro type hside
    rw [hw] at hside
    simp [WorkerPc.side] at hside
  · rintro s t _ hi ⟨a, _, hs⟩
    rcases wqThreadRun_cases hs with ⟨scil, out, hm⟩ | ⟨hp, hst, hc, hw⟩
    · exact hi.thread (wqThreadStep_move hm)
    · refine ⟨by rw [hc, hp]; exact hi.phase, hc ▸ hi.own, ?_, ?_⟩
      · rw [hw]
        exact hi.side
      · rw [hst, hp]
        exact hi.status

end

/-- The calls of a worker keep to the time that its message queue is open. -/
structure MsqBracket (cfg : WqCfg) (p : SciIf) (qpn : WqQpn) (s : WqThread) : Prop where
  own : ∀ c ∈ s.calls, c.type = cfg.type
  once : opened MsqCall.mark s.calls ≤ 1
  inside : ∀ pre c post, s.calls = pre ++ c :: post → c.mark = .uses →
    opened MsqCall.mark pre = 1 ∧ closed MsqCall.mark pre = 0
  closed_le : closed MsqCall.mark s.calls ≤ opened MsqCall.mark s.calls
  returned : ∀ ret, s.pc = .returned ret →
    closed MsqCall.mark s.calls = opened MsqCall.mark s.calls ∧ s.wqState = .exited
  exited : s.wqState = .exited → ∀ t,
    Relation.ReflTransGen (Acts (wqThreadRun cfg p qpn) anyAct) s t →
      t.calls = s.calls ∧ t.wqState = .exited

section

variable {cfg : WqCfg} {p : SciIf} {qpn : WqQpn} {s t : WqThread}

/-- The thread is gone for good. -/
theorem returned_stays {ret : Int} (hp : s.pc = .returned ret)
    (h : Relation.ReflTransGen (Acts (wqThreadRun cfg p qpn) anyAct) s t) :
    t.pc = .returned ret ∧ t.wqState = s.wqState ∧ t.calls = s.calls := by
  induction h with
  | refl => exact ⟨hp, rfl, rfl⟩
  | @tail t u _ hs ih =>
    obtain ⟨a, _, hs⟩ := hs
    obtain ⟨hpt, hst, hct⟩ := ih
    rcases wqThreadRun_cases hs with ⟨scil, out, hm⟩ | ⟨hp', hst', hct', _⟩
    · simp [wqThreadStep, hpt] at hm
    · exact ⟨hp'.trans hpt, hst'.trans hst, hct'.trans hct⟩

theorem status_exited {pc : WqThreadPc} (h : pc.status = .exited) : ∃ ret, pc = .returned ret := by
  cases pc with
  | returned ret => exact ⟨ret, rfl⟩
  | _ => simp [WqThreadPc.status] at h

end

/-- Whatever the library answers and whenever the stop or the kill comes, the worker opens its
message queue once at most, uses it only then, and closes it exactly if it opened it, before it
gives its end to know. -/
theorem reach_msqBracket (cfg : WqCfg) (p : SciIf) (qpn : WqQpn) (s : WqThread)
    (h : Reach WqThreadInit (Acts (wqThreadRun cfg p qpn) anyAct) s) :
    MsqBracket cfg p qpn s := by
  have hi := reach_threadInv h
  obtain ⟨honce, hle⟩ := phase_once hi.phase
  refine ⟨hi.own, honce, ?_, hle, fun ret hp => ?_, fun hs t ht => ?_⟩
  · intro pre c post hc hu
    have hphase := hi.phase
    rw [hc] at hphase
    exact used_inside hphase hu
  · have hcount := phase_counts hi.phase
    refine ⟨?_, by rw [hi.status, hp]; rfl⟩
    rw [hp, WqThreadPc.phase] at hcount
    split at hcount <;> simp only [Phase.counts, Nat.zero_add, Prod.mk.injEq] at hcount <;> omega
  · obtain ⟨ret, hp⟩ := status_exited (hi.status.symm.trans hs)
    obtain ⟨_, hst, hc⟩ := returned_stays hp ht
    exact ⟨hc, hst.trans hs⟩

def freshThread : WqThread := ⟨freshWq, .setRunning, .initialized, .empty, false, []⟩

theorem freshThread_init : WqThreadInit freshThread := ⟨rfl, rfl, rfl, rfl⟩

def acceptAll : MsqArgs → SciError := fun _ => .ok

/-- An SQ with one WQE: the second attempt connects, and the stop comes before the second call
of the send. -/
def oneSendActs : List WqThreadAct :=
  .start ⟨twoPageTable, emptyWr⟩ :: List.replicate 11 (.poster none) ++
    List.replicate 3 (.thread (fun _ => .connectionRefused) none) ++
    List.replicate 10 (.thread acceptAll none) ++ [.stop] ++
    List.replicate 7 (.thread acceptAll (some 0))

def oneSend : WqThread :=
  afterActs (wqThreadRun twoSlotSq initiatorIf ⟨100, 100⟩) freshThread oneSendActs

theorem reach_msqBracket_oneSend :
    oneSend.pc = .returned 0 ∧ MsqBracket twoSlotSq initiatorIf ⟨100, 100⟩ oneSend :=
  ⟨by decide, reach_msqBracket twoSlotSq initiatorIf ⟨100, 100⟩ oneSend
    (reach_afterActs freshThread_init oneSendActs)⟩

example : oneSend.calls = [.connectMsq (-42), .connectMsq 0, .sendVMsg false, .sendVMsg true,
    .disconnectMsq] := by decide

end DisKverbs
