import DisKverbs.CircBuf
import DisKverbs.StepSystem
import DisKverbs.Verbs

namespace DisKverbs

open CircBuf

/-- Where a posting context is: in a post until it stores head, then in `dis_qp_notify`. -/
inductive NotifyPc
  | idle
  | gotHead (head : Nat)
  | store (head : Nat)
  | testState
  | setFlag
  | wake
  deriving DecidableEq

inductive InitPc
  | testState
  | setState
  | setFlag
  | create
  | undo
  | wakeThread
  | done
  deriving DecidableEq

/-- Where `dis_wq_thread` is; a `first` test of the wait condition comes before the thread
is on the wait queue, and `blocked` is its call of the scheduler. -/
inductive ThreadPc
  | absent
  | created
  | setRunning
  | connect
  | top
  | setEmpty
  | drainTop
  | loadHead
  | gotHead (head : Nat)
  | consume (tail : Nat)
  | advance (tail : Nat)
  | testFlag (first : Bool)
  | testStop (first : Bool)
  | prepare
  | blocked
  | disconnect
  | setExited
  | gone
  deriving DecidableEq

/-- The part of `struct dis_wq` that posting contexts, `dis_qp_init` and the worker share;
`runnable` is the worker's task state, which going on the wait queue clears. -/
structure WakeState (ι : Type*) where
  head : Nat
  tail : Nat
  wqState : DisWqStatus
  wqFlag : DisWqFlag
  shouldStop : Bool
  runnable : Bool
  posters : ι → NotifyPc
  init : InitPc
  thread : ThreadPc

variable {ι : Type*} [DecidableEq ι]

def WakeState.setPoster (s : WakeState ι) (i : ι) (pc : NotifyPc) : WakeState ι :=
  { s with posters := Function.update s.posters i pc }

/-- The next access of a posting context; `accepts` says whether the post maps its SGEs. -/
def notifyStep (size : Nat) (i : ι) (accepts : Bool) (s : WakeState ι) : WakeState ι :=
  match s.posters i with
  | .idle => s.setPoster i (.gotHead s.head)
  | .gotHead head =>
    if circSpace head s.tail size < 1 then s.setPoster i .idle
    else s.setPoster i (if accepts then .store head else .idle)
  | .store head => { s.setPoster i .testState with head := circNext head size }
  | .testState => s.setPoster i (if s.wqState = .uninitialized then .idle else .setFlag)
  | .setFlag => { s.setPoster i .wake with wqFlag := .post }
  | .wake => { s.setPoster i .idle with runnable := true }

/-- The next access of `dis_qp_init`; `ok` says whether `kthread_create` gave a thread. -/
def initStep (ok : Bool) (s : WakeState ι) : Option (WakeState ι) :=
  match s.init with
  | .testState => some { s with init := if s.wqState = .exited then .done else .setState }
  | .setState => some { s with wqState := .initialized, init := .setFlag }
  | .setFlag => some { s with wqFlag := .empty, init := .create }
  | .create =>
    if ok then some { s with thread := .created, init := .wakeThread }
    else some { s with init := .undo }
  | .undo => some { s with wqState := .uninitialized, init := .done }
  | .wakeThread => some { s with thread := .setRunning, init := .done }
  | .done => none

/-- The next access of the worker; `ok` says whether an attempt to connect succeeds. What
`dis_wq_consume_one_*` does to its slot touches nothing of this state. -/
def threadStep (size : Nat) (ok : Bool) (s : WakeState ι) : Option (WakeState ι) :=
  match s.thread with
  | .absent => none
  | .created => none
  | .setRunning => some { s with wqState := .running, thread := .connect }
  | .connect =>
    if s.shouldStop then some { s with thread := .setExited }
    else some { s with thread := if ok then .top else .connect }
  | .top => some { s with thread := if s.shouldStop then .disconnect else .setEmpty }
  | .setEmpty => some { s with wqFlag := .empty, thread := .drainTop }
  | .drainTop => some { s with thread := if s.shouldStop then .disconnect else .loadHead }
  | .loadHead => some { s with thread := .gotHead s.head }
  | .gotHead head =>
    if circCnt head s.tail size < 1 then some { s with thread := .testFlag true }
    else some { s with thread := .consume s.tail }
  | .consume tail => some { s with thread := .advance tail }
  | .advance tail => some { s with tail := circNext tail size, thread := .drainTop }
  | .testFlag first =>
    some { s with thread := if s.wqFlag = .empty then .testStop first else .top }
  | .testStop first =>
    if s.shouldStop then some { s with thread := .top }
    else some { s with thread := if first then .prepare else .blocked }
  | .prepare => some { s with runnable := false, thread := .testFlag false }
  | .blocked => if s.runnable then some { s with thread := .prepare } else none
  | .disconnect => some { s with thread := .setExited }
  | .setExited => some { s with wqState := .exited, thread := .gone }
  | .gone => none

inductive WakeAct (ι : Type*)
  | poster (i : ι) (accepts : Bool)
  | init (ok : Bool)
  | thread (ok : Bool)
  | kill
  | stop

/-- A fatal signal ends the wait; `kthread_stop` sets the stop flag and wakes the thread. -/
def wakeStep (size : Nat) (s : WakeState ι) : WakeAct ι → Option (WakeState ι)
  | .poster i accepts => some (notifyStep size i accepts s)
  | .init ok => initStep ok s
  | .thread ok => threadStep size ok s
  | .kill => if s.thread = .blocked then some { s with thread := .disconnect } else none
  | .stop => some { s with shouldStop := true, runnable := true }

def WakeInit (s : WakeState ι) : Prop :=
  s = ⟨0, 0, .uninitialized, .empty, false, true, fun _ => .idle, .testState, .absent⟩

end DisKverbs
