import DisKverbs.TraceBracket
import DisKverbs.WqMoves
import DisKverbs.QueueLife
import DisKverbs.StepSystem

namespace DisKverbs

open CircBuf StepSystem

/-- The calls of a worker that concern its message queue, with what they returned or whether
they succeeded. -/
inductive MsqCall
  | createMsq (ret : Int)
  | connectMsq (ret : Int)
  | receiveVMsg (ok : Bool)
  | sendVMsg (ok : Bool)
  | removeMsq
  | disconnectMsq
  deriving DecidableEq

/-- Where `dis_wq_thread` is. In `consume` it is where the worker of the queue is. Its wait
tests the flag and the stop, at first as it is and then after each `prepare`, which also looks
for a signal; `blocked` is its call of the scheduler. -/
inductive WqThreadPc
  | setRunning
  | initTop
  | initCall
  | initFailed
  | top
  | setEmpty
  | consume
  | testFlag (signal : Option Bool)
  | testStop (signal : Option Bool)
  | prepare
  | blocked
  | exit
  | setExited
  | returned (ret : Int)
  deriving DecidableEq

/-- A work queue with the one thread that serves it. -/
structure WqThread where
  wq : WqState
  pc : WqThreadPc
  wqState : DisWqStatus
  wqFlag : DisWqFlag
  killed : Bool
  calls : List MsqCall

/-- The call of `dis_wq_init`, by the type of the queue. -/
def disWqInitCall (type : DisWqType) (ret : Int) : MsqCall :=
  match type with
  | .rq => .createMsq ret
  | .sq => .connectMsq ret

def disWqExit : DisWqType → MsqCall
  | .rq => .removeMsq
  | .sq => .disconnectMsq

/-- The call that an access of `dis_wq_consume_all` is, if it is one. -/
def WorkerPc.call (out : Option UInt32) : WorkerPc → List MsqCall
  | .sendCall _ => [.sendVMsg out.isSome]
  | .recvCall _ _ _ => [.receiveVMsg out.isSome]
  | _ => []

/-- Where the thread goes on that is done with an access of `dis_wq_consume_all`. -/
def WorkerPc.after : WorkerPc → WqThreadPc
  | .idle => .testFlag none
  | .exited => .exit
  | _ => .consume

/-- The next access of `dis_wq_thread`; `scil` stands for the library's answer to an attempt to
connect, `out` for that to a transfer. -/
def wqThreadStep (cfg : WqCfg) (p : SciIf) (qpn : WqQpn) (scil : MsqArgs → SciError)
    (out : Option UInt32) (s : WqThread) : Option WqThread :=
  match s.pc with
  | .setRunning => some { s with wqState := .running, pc := .initTop }
  | .initTop => some { s with pc := if s.wq.shouldStop then .initFailed else .initCall }
  | .initCall =>
    let ret := disWqInitTry scil p cfg.type qpn
    some { s with
      calls := s.calls ++ [disWqInitCall cfg.type ret]
      pc := if ret = 0 then .top else .initTop }
  | .initFailed => some { s with wqState := .exited, pc := .returned (-42) }
  | .top => some { s with pc := if s.wq.shouldStop then .exit else .setEmpty }
  | .setEmpty => some { s with wqFlag := .empty, pc := .consume }
  | .consume =>
    (workerStep cfg out s.wq).map fun w => { s with
      wq := w
      calls := s.calls ++ s.wq.worker.call out
      pc := w.worker.after }
  | .testFlag signal => some { s with pc := if s.wqFlag = .empty then .testStop signal else .top }
  | .testStop signal =>
    if s.wq.shouldStop then some { s with pc := .top }
    else
      match signal with
      | none => some { s with pc := .prepare }
      | some killed => some { s with pc := if killed then .exit else .blocked }
  | .prepare => some { s with pc := .testFlag (some s.killed) }
  | .blocked => some { s with pc := .prepare }
  | .exit => some { s with calls := s.calls ++ [disWqExit cfg.type], pc := .setExited }
  | .setExited => some { s with wqState := .exited, pc := .returned 0 }
  | .returned _ => none

inductive WqThreadAct
  | thread (scil : MsqArgs → SciError) (out : Option UInt32)
  | start (req : PostReq)
  | poster (buf : Option (Nat → Iovec))
  | notify
  | stop
  | kill

/-- The posting context, its `dis_qp_notify`, a stop and a kill come at any time. -/
def wqThreadRun (cfg : WqCfg) (p : SciIf) (qpn : WqQpn) (s : WqThread) :
    WqThreadAct → Option WqThread
  | .thread scil out => wqThreadStep cfg p qpn scil out s
  | .start req => (wqStep cfg s.wq (.start req)).map fun w => { s with wq := w }
  | .poster buf => (posterStep cfg buf s.wq).map fun w => { s with wq := w }
  | .notify => some { s with wqFlag := .post }
  | .stop => some { s with wq := { s.wq with shouldStop := true } }
  | .kill => some { s with killed := true }

/-- The thread has just entered its function. -/
def WqThreadInit (s : WqThread) : Prop :=
  WqInit s.wq ∧ s.pc = .setRunning ∧ s.wqState = .initialized ∧ s.calls = []

end DisKverbs
