import DisKverbs.OwnSteps
import DisKverbs.ThreadBracket
import DisKverbs.WorkerProgress

namespace DisKverbs

open CircBuf OwnSteps StepSystem

/-- The accesses with which a worker that was told to stop comes out of `dis_wq_consume_all`. -/
def WorkerPc.stopCost : WorkerPc → Nat
  | .exited => 0
  | .top => 1
  | .idle | .retire .. => 2
  | .free .. => 3
  | .complete .. => 4
  | .sendTop _ | .recvTop .. | .recvWhole .. => 5
  | .sendCall _ | .recvAgain .. | .recvLeft .. => 6
  | .recvTotal _ | .recvGot .. => 7
  | .recvCall .. | .gotHead _ => 8
  | .check => 9

/-- The WQEs that a worker which was told to stop may still retire. -/
def WorkerPc.owes (pc : WorkerPc) : Nat :=
  match pc with
  | .check | .gotHead _ => 1
  | pc => if pc.holds.isSome then 1 else 0

/-- The transfers that it may still ask for. -/
def WorkerPc.asks : WorkerPc → Nat
  | .sendCall _ | .recvCall .. => 1
  | _ => 0

/-- The accesses of a thread that was told to stop, before the one that ends it. -/
def WqThreadPc.stopCost (w : WorkerPc) : WqThreadPc → Nat
  | .setExited | .initFailed | .returned _ => 0
  | .exit | .initTop => 1
  | .top | .setRunning => 2
  | .testStop _ | .initCall => 3
  | .testFlag _ => 4
  | .prepare => 5
  | .blocked => 6
  | .consume => w.stopCost + 1
  | .setEmpty => 11

/-- Where the worker has left `dis_wq_consume_all` for good. -/
def WqThreadPc.out : WqThreadPc → Prop
  | .exit | .setExited | .returned _ => True
  | _ => False

def WqThreadAct.byThread : WqThreadAct → Bool
  | .thread .. => true
  | _ => false

def transfers (calls : List MsqCall) : Nat := calls.countP fun c => c.mark = .uses

section

variable {cfg : WqCfg} {p : SciIf} {qpn : WqQpn}

/-- An access of a worker that was told to stop brings it closer to its exit. -/
theorem WorkerAccess.stopped {out : Option UInt32} {q q' : WqState} (hs : q.shouldStop = true)
    (h : WorkerAccess cfg q out q') : q'.shouldStop = true ∧
      q'.worker.after.stopCost q'.worker ≤ q.worker.stopCost ∧
      q'.retired.length + q'.worker.owes ≤ q.retired.length + q.worker.owes ∧
      transfers (q.worker.call out) + q'.worker.asks ≤ q.worker.asks := by
  cases h with
  | enter _ hgo | sendCalled _ hgo | recvCalled _ hgo => simp [hgo] at hs
  | wake hw | leave hw | peek hw | empty hw | acquireSqe hw | acquireRqe hw | sendStopped hw
  | sendFailed hw | sent hw | loadTotal hw | loadLeft hw | recvStopped hw | recvFailed hw
  | received hw | whole hw | part hw | restore hw | again hw | complete hw | free hw | retire hw =>
    refine ⟨hs, ?_, ?_, ?_⟩
    · simp [hw, WorkerPc.stopCost, WorkerPc.after, WqThreadPc.stopCost]
    · simp [hw, WorkerPc.owes, WorkerPc.holds, WorkerPc.consumes, WqState.setByteLen]
    · simp [hw, WorkerPc.asks, WorkerPc.call, transfers, MsqCall.mark]

theorem stopCost_worker (pc : WorkerPc) : pc.stopCost ≤ 9 := by
  cases pc <;> simp [WorkerPc.stopCost]

/-- A thread that was told to stop has not returned yet. It retires WQEs up to the number `retired`
and makes transfers up to the number `uses`. -/
structure Stopping (retired uses : Nat) (s : WqThread) (n : Nat) : Prop where
  stop : s.wq.shouldStop = true
  inside : s.wq.worker = .exited → s.pc.out
  running : ∀ ret, s.pc ≠ .returned ret
  cost : s.pc.stopCost s.wq.worker ≤ n
  retires : s.wq.retired.length + s.wq.worker.owes ≤ retired
  uses : transfers s.calls + s.wq.worker.asks ≤ uses

structure Returned (retired uses : Nat) (s : WqThread) : Prop where
  ret : ∃ ret, s.pc = .returned ret
  state : s.wqState = .exited
  retires : s.wq.retired.length ≤ retired
  uses : transfers s.calls ≤ uses

variable {s t : WqThread} {retired uses n : Nat}

/-- The thread goes on, and makes a call at most, which is no transfer. -/
theorem Stopping.goes (h : Stopping retired uses s n) (hwq : t.wq = s.wq)
    (huses : transfers t.calls = transfers s.calls) (hin : s.pc.out → t.pc.out)
    (hpc : ∀ ret, t.pc ≠ .returned ret)
    (hcost : t.pc.stopCost s.wq.worker < s.pc.stopCost s.wq.worker) :
    Returned retired uses t ∨ ∃ m, m < n ∧ Stopping retired uses t m := by
  refine .inr ⟨_, lt_of_lt_of_le hcost h.cost, ?_, ?_, hpc, ?_, ?_, ?_⟩
  · rw [hwq]
    exact h.stop
  · rw [hwq]
    exact fun hw => hin (h.inside hw)
  · rw [hwq]
  · rw [hwq]
    exact h.retires
  · rw [hwq, huses]
    exact h.uses

theorem Stopping.ends (h : Stopping retired uses s n) {ret : Int} :
    Returned retired uses { s with wqState := .exited, pc := .returned ret } := by
  have hretires := h.retires
  have huses := h.uses
  exact ⟨⟨ret, rfl⟩, rfl, by simp only; omega, by simp only; omega⟩

theorem Stopping.consume (h : Stopping retired uses s n) (hp : s.pc = .consume)
    {out : Option UInt32} {w : WqState} (hw : workerStep cfg out s.wq = some w) :
    ∃ m, m < n ∧ Stopping retired uses { s with
      wq := w, calls := s.calls ++ s.wq.worker.call out, pc := w.worker.after } m := by
  obtain ⟨hstop, hcost, hretires, hcalls⟩ := (workerStep_access hw).stopped h.stop
  have hbudget := h.cost
  have hretired := h.retires
  have huses := h.uses
  rw [hp] at hbudget
  simp only [WqThreadPc.stopCost] at hbudget
  refine ⟨w.worker.after.stopCost w.worker, by omega, hstop, fun he => ?_, fun ret => ?_, le_rfl,
    by simp only; omega, ?_⟩
  · show w.worker.after.out
    rw [he]
    trivial
  · show w.worker.after ≠ .returned ret
    cases w.worker <;> simp [WorkerPc.after]
  · simp only [transfers, List.countP_append] at hcalls huses ⊢
    omega

theorem Stopping.thread (h : Stopping retired uses s n) {scil : MsqArgs → SciError}
    {out : Option UInt32} (hs : wqThreadStep cfg p qpn scil out s = some t) :
    Returned retired uses t ∨ ∃ m, m < n ∧ Stopping retired uses t m := by
  have hstop := h.stop
  cases hp : s.pc with
  | setRunning | prepare | blocked =>
    simp only [wqThreadStep, hp, Option.some.injEq] at hs
    subst hs
    exact h.goes rfl rfl (by simp [hp, WqThreadPc.out]) (by simp) (by simp [hp, WqThreadPc.stopCost])
  | initTop | top | testStop =>
    simp only [wqThreadStep, hp, hstop, if_true, Option.some.injEq] at hs
    subst hs
    exact h.goes rfl rfl (by simp [hp, WqThreadPc.out]) (by simp) (by simp [hp, WqThreadPc.stopCost])
  | initCall =>
    have hcall (ret : Int) : transfers (s.calls ++ [disWqInitCall cfg.type ret]) =
        transfers s.calls := by
      cases hty : cfg.type <;> simp [transfers, disWqInitCall, MsqCall.mark] <;> split <;> simp
    simp only [wqThreadStep, hp, Option.some.injEq] at hs
    subst hs
    refine h.goes rfl (hcall _) (by simp [hp, WqThreadPc.out]) ?_ ?_
    · intro ret
      split <;> simp
    · simp only [hp]
      split <;> simp [WqThreadPc.stopCost]
  | initFailed =>
    simp only [wqThreadStep, hp, Option.some.injEq] at hs
    subst hs
    exact .inl h.ends
  | setEmpty =>
    have hworker := stopCost_worker s.wq.worker
    simp only [wqThreadStep, hp, Option.some.injEq] at hs
    subst hs
    refine h.goes rfl rfl (by simp [hp, WqThreadPc.out]) (by simp) ?_
    simp only [hp, WqThreadPc.stopCost]
    omega
  | consume =>
    simp only [wqThreadStep, hp] at hs
    obtain ⟨w, hw, rfl⟩ := Option.map_eq_some_iff.mp hs
    exact .inr (h.consume hp hw)
  | testFlag signal =>
    simp only [wqThreadStep, hp, Option.some.injEq] at hs
    subst hs
    refine h.goes rfl rfl (by simp [hp, WqThreadPc.out]) ?_ ?_
    · intro ret
      split <;> simp
    · simp only [hp]
      split <;> simp [WqThreadPc.stopCost]
  | exit =>
    have hcall : transfers (s.calls ++ [disWqExit cfg.type]) = transfers s.calls := by
      cases hty : cfg.type <;> simp [transfers, disWqExit, MsqCall.mark]
    simp only [wqThreadStep, hp, Option.some.injEq] at hs
    subst hs
    exact h.goes rfl hcall (fun _ => trivial) (by simp) (by simp [hp, WqThreadPc.stopCost])
  | setExited =>
    simp only [wqThreadStep, hp, Option.some.injEq] at hs
    subst hs
    exact .inl h.ends
  | returned ret => exact absurd hp (h.running ret)

/-- The other contexts, and a second stop, change nothing about that. -/
theorem Stopping.other (h : Stopping retired uses s n) {a : WqThreadAct}
    (ha : a.byThread = false) (hs : wqThreadRun cfg p qpn s a = some t) :
    Stopping retired uses t n := by
  cases a with
  | thread scil out => simp [WqThreadAct.byThread] at ha
  | start req =>
    obtain ⟨w, hw, rfl⟩ := Option.map_eq_some_iff.mp hs
    obtain ⟨_, rfl⟩ := wqStep_start hw
    exact ⟨h.stop, h.inside, h.running, h.cost, h.retires, h.uses⟩
  | poster buf =>
    obtain ⟨w, hw, rfl⟩ := Option.map_eq_some_iff.mp hs
    cases posterStep_move hw <;>
      exact ⟨h.stop, h.inside, h.running, h.cost, h.retires, h.uses⟩
  | stop =>
    cases Option.some.inj hs
    exact ⟨rfl, h.inside, h.running, h.cost, h.retires, h.uses⟩
  | notify | kill =>
    cases Option.some.inj hs
    exact ⟨h.stop, h.inside, h.running, h.cost, h.retires, h.uses⟩

theorem Stopping.free (h : Stopping retired uses s n) (scil : MsqArgs → SciError)
    (out : Option UInt32) : ∃ t, wqThreadStep cfg p qpn scil out s = some t := by
  cases hp : s.pc with
  | consume =>
    have hin : s.wq.worker ≠ .exited := by
      intro hw
      have hout := h.inside hw
      rw [hp] at hout
      exact hout
    obtain ⟨w, hw⟩ := workerStep_some out hin
    rw [wqThreadStep, hp]
    exact ⟨_, Option.map_eq_some_iff.mpr ⟨w, hw, rfl⟩⟩
  | testStop signal =>
    simp only [wqThreadStep, hp, h.stop, if_true]
    exact ⟨_, rfl⟩
  | returned ret => exact absurd hp (h.running ret)
  | _ => exact ⟨_, by simp only [wqThreadStep, hp]; rfl⟩

theorem Returned.stays {a : WqThreadAct} (h : Returned retired uses s)
    (hs : wqThreadRun cfg p qpn s a = some t) : a.byThread = false ∧ Returned retired uses t := by
  obtain ⟨ret, hret⟩ := h.ret
  cases a with
  | thread scil out => simp [wqThreadRun, wqThreadStep, hret] at hs
  | start req =>
    obtain ⟨w, hw, rfl⟩ := Option.map_eq_some_iff.mp hs
    obtain ⟨_, rfl⟩ := wqStep_start hw
    exact ⟨rfl, ⟨ret, hret⟩, h.state, h.retires, h.uses⟩
  | poster buf =>
    obtain ⟨w, hw, rfl⟩ := Option.map_eq_some_iff.mp hs
    cases posterStep_move hw <;> exact ⟨rfl, ⟨ret, hret⟩, h.state, h.retires, h.uses⟩
  | notify | stop | kill =>
    cases Option.some.inj hs
    exact ⟨rfl, ⟨ret, hret⟩, h.state, h.retires, h.uses⟩

theorem stopping_bounded (cfg : WqCfg) (p : SciIf) (qpn : WqQpn) (retired uses : Nat) :
    Bounded (wqThreadRun cfg p qpn) WqThreadAct.byThread (Stopping retired uses)
      (Returned retired uses) := by
  refine ⟨fun {s t a n} h ha hs => ?_, fun {s t a n} h ha hs => h.other ha hs, fun {s n} h => ?_⟩
  · cases a with
    | thread scil out => exact h.thread hs
    | start | poster | notify | stop | kill => simp [WqThreadAct.byThread] at ha
  · obtain ⟨t, ht⟩ : ∃ t, wqThreadStep cfg p qpn (fun _ => .ok) none s = some t :=
      h.free (fun _ => .ok) none
    exact ⟨.thread (fun _ => .ok) none, t, rfl, ht⟩

/-- A worker that has left `dis_wq_consume_all` does not come back to it. -/
theorem reach_inside (h : Reach WqThreadInit (Acts (wqThreadRun cfg p qpn) anyAct) s)
    (hw : s.wq.worker = .exited) : s.pc.out := by
  revert hw
  apply h.invariant
  · rintro s ⟨hq, _⟩ hw
    rw [hq] at hw
    cases hw
  · rintro s t _ hi ⟨a, _, hs⟩ hw
    rcases wqThreadRun_cases hs with ⟨scil, out, hm⟩ | ⟨hpc, _, _, hworker⟩
    · have hleaves : s.pc.out → t.pc.out := by
        intro hout
        cases hp : s.pc with
        | exit | setExited =>
          simp only [wqThreadStep, hp, Option.some.injEq] at hm
          subst hm
          trivial
        | returned ret => simp [wqThreadStep, hp] at hm
        | _ =>
          rw [hp] at hout
          exact hout.elim
      cases wqThreadStep_move hm with
      | goes | calls => exact hleaves (hi hw)
      | @consume out w _ _ =>
        have hexit : w.worker = .exited := hw
        show w.worker.after.out
        rw [hexit]
        trivial
    · rw [hpc]
      exact hi (hworker.symm.trans hw)

theorem stopCost_thread (w : WorkerPc) (pc : WqThreadPc) : pc.stopCost w ≤ 11 := by
  have hworker := stopCost_worker w
  cases pc <;> simp only [WqThreadPc.stopCost] <;> omega

theorem owes_le (pc : WorkerPc) : pc.owes ≤ 1 := by
  unfold WorkerPc.owes
  split
  next => exact le_rfl
  next => exact le_rfl
  next => split <;> omega

theorem asks_le (pc : WorkerPc) : pc.asks ≤ 1 := by
  unfold WorkerPc.asks
  split <;> omega

end

/-- A thread that is told to stop has twelve accesses left at most, wherever it is, whatever the
library answers and whatever the others do, and it can make the next one until it has returned. It
makes one more transfer and retires one more WQE at most. -/
theorem reach_stopReturns (cfg : WqCfg) (p : SciIf) (qpn : WqQpn) (s : WqThread)
    (h : Reach WqThreadInit (Acts (wqThreadRun cfg p qpn) anyAct) s)
    (hs : s.wq.shouldStop = true) (as : List WqThreadAct) (t : WqThread)
    (hrun : runActs (wqThreadRun cfg p qpn) s as = some t) :
    as.countP WqThreadAct.byThread ≤ 12 ∧
      ((∃ ret, t.pc = .returned ret ∧ t.wqState = .exited) ∨
        ∀ scil out, ∃ u, wqThreadRun cfg p qpn t (.thread scil out) = some u) ∧
      t.wq.retired.length ≤ s.wq.retired.length + 1 ∧
      transfers t.calls ≤ transfers s.calls + 1 := by
  have howes := owes_le s.wq.worker
  have hasks := asks_le s.wq.worker
  have hat : Stopping (s.wq.retired.length + 1) (transfers s.calls + 1) s 11 ∨
      Returned (s.wq.retired.length + 1) (transfers s.calls + 1) s := by
    by_cases hrunning : ∀ ret, s.pc ≠ .returned ret
    · exact .inl ⟨hs, reach_inside h, hrunning, stopCost_thread .., by omega, by omega⟩
    · obtain ⟨ret, hret⟩ := not_forall_not.mp hrunning
      refine .inr ⟨⟨ret, hret⟩, ?_, by omega, by omega⟩
      rw [(reach_threadInv h).status, hret]
      rfl
  obtain ⟨hcount, ⟨m, _, ht⟩ | ht⟩ := (stopping_bounded cfg p qpn _ _).spent (fun _ hd => hd)
    (fun _ _ _ => Returned.stays) hat hrun
  · have hretired := ht.retires
    have huses := ht.uses
    exact ⟨hcount, .inr fun scil out => ht.free scil out, by omega, by omega⟩
  · obtain ⟨ret, hret⟩ := ht.ret
    exact ⟨hcount, .inl ⟨ret, hret, ht.state⟩, ht.retires, ht.uses⟩

/-- The thread is told to stop before the second call of a send. -/
def stoppedSend : WqThread :=
  afterActs (wqThreadRun twoSlotSq initiatorIf ⟨100, 100⟩) freshThread (oneSendActs.take 26)

def sendEnds : List WqThreadAct := List.replicate 7 (.thread acceptAll (some 0))

theorem reach_stopReturns_oneSend :
    let t := afterActs (wqThreadRun twoSlotSq initiatorIf ⟨100, 100⟩) stoppedSend sendEnds
    t.pc = .returned 0 ∧ transfers stoppedSend.calls = 1 ∧ transfers t.calls = 2 ∧
      sendEnds.countP WqThreadAct.byThread ≤ 12 ∧
      ((∃ ret, t.pc = .returned ret ∧ t.wqState = .exited) ∨
        ∀ scil out, ∃ u, wqThreadRun twoSlotSq initiatorIf ⟨100, 100⟩ t (.thread scil out) =
          some u) ∧
      t.wq.retired.length ≤ stoppedSend.wq.retired.length + 1 ∧
      transfers t.calls ≤ transfers stoppedSend.calls + 1 :=
  ⟨by decide, by decide, by decide,
    reach_stopReturns twoSlotSq initiatorIf ⟨100, 100⟩ stoppedSend
      (reach_afterActs freshThread_init _) (by decide) sendEnds _ (runActs_afterActs (by decide))⟩

end DisKverbs
