import DisKverbs.SciIf

namespace DisKverbs

/-- `wq->thread`: the number of a thread, or a pointer that names none. -/
inductive KthreadPtr
  | null
  | errPtr
  | task (i : Nat)
  deriving DecidableEq

/-- Where a kernel thread made for `dis_wq_thread` is. It enters the function when it has
been woken without a stop request, and is `skipped` otherwise. Its store of `DIS_WQ_EXITED`
is its last access and counts as its end. -/
inductive TaskPc
  | absent
  | created
  | woken
  | skipped
  | setRunning
  | connect
  | top
  | drain
  | wait
  | tearDown
  | setExited
  | gone
  deriving DecidableEq

structure Task where
  pc : TaskPc
  shouldStop : Bool
  deriving DecidableEq

/-- The part of `struct dis_wq` that its worker's life depends on, and the threads that were
made for it, by number. -/
structure LifeQueue where
  wqState : DisWqStatus
  thread : KthreadPtr
  qpn : WqQpn
  mtu : UInt32
  tasks : Nat → Task
  fresh : Nat

def LifeQueue.setTask (q : LifeQueue) (i : Nat) (pc : TaskPc) : LifeQueue :=
  { q with tasks := Function.update q.tasks i { q.tasks i with pc := pc } }

/-- `wake_up_process`: only a thread that was never woken before depends on it. -/
def LifeQueue.wake (q : LifeQueue) (i : Nat) : LifeQueue :=
  if (q.tasks i).pc = .created then q.setTask i .woken else q

/-- The first half of `kthread_stop`. -/
def LifeQueue.stop (q : LifeQueue) (i : Nat) : LifeQueue :=
  { q with tasks := Function.update q.tasks i { q.tasks i with shouldStop := true } }.wake i

def TaskPc.ended : TaskPc → Bool
  | .skipped | .gone => true
  | _ => false

inductive KthreadCreate
  | thread
  | errPtr
  | null

inductive QpInitPc
  | testState
  | setState
  | create
  | undo
  | wake
  | ret (ret : Int)
  deriving DecidableEq

/-- The next access of `dis_qp_init`; `out` is what `kthread_create` answers. What waking an
error pointer does is undefined: no step models it. -/
def qpInitStep (out : KthreadCreate) (q : LifeQueue) : QpInitPc → Option (LifeQueue × QpInitPc)
  | .testState => some (q, if q.wqState = .exited then .ret (-42) else .setState)
  | .setState => some ({ q with wqState := .initialized }, .create)
  | .create =>
    match out with
    | .thread =>
      some ({ q with
        thread := .task q.fresh
        tasks := Function.update q.tasks q.fresh ⟨.created, false⟩
        fresh := q.fresh + 1 }, .wake)
    | .errPtr => some ({ q with thread := .errPtr }, .wake)
    | .null => some ({ q with thread := .null }, .undo)
  | .undo => some ({ q with wqState := .uninitialized }, .ret (-42))
  | .wake =>
    match q.thread with
    | .task i => some (q.wake i, .ret 0)
    | _ => none
  | .ret _ => none

/-- One attempt of `dis_wq_init`; `scil` stands for the library. -/
def disWqInitTry (scil : MsqArgs → SciError) (p : SciIf) (type : DisWqType) (wq : WqQpn) : Int :=
  match type with
  | .rq => disSciIfCreateMsq scil p wq
  | .sq => disSciIfConnectMsq scil p wq

/-- What happens to a worker at its next access: the library's answer to an attempt to
connect, and whether a drain finds the ring empty or a wait ends without a signal. -/
structure TaskEnv where
  scil : MsqArgs → SciError
  fine : Bool

def fineEnv : TaskEnv := ⟨fun _ => .ok, true⟩

/-- The next access of thread `i`; draining and waiting touch nothing of this state. -/
def taskStep (p : SciIf) (type : DisWqType) (env : TaskEnv) (q : LifeQueue) (i : Nat) :
    Option LifeQueue :=
  match (q.tasks i).pc with
  | .absent => none
  | .created => none
  | .woken => some (q.setTask i (if (q.tasks i).shouldStop then .skipped else .setRunning))
  | .skipped => none
  | .setRunning => some { q.setTask i .connect with wqState := .running }
  | .connect =>
    if (q.tasks i).shouldStop then some (q.setTask i .setExited)
    else if disWqInitTry env.scil p type q.qpn = 0 then some (q.setTask i .top)
    else some q
  | .top => some (q.setTask i (if (q.tasks i).shouldStop then .tearDown else .drain))
  | .drain =>
    if env.fine then some (q.setTask i .wait)
    else if (q.tasks i).shouldStop then some (q.setTask i .tearDown)
    else some q
  | .wait => some (q.setTask i (if env.fine then .top else .tearDown))
  | .tearDown => some (q.setTask i .setExited)
  | .setExited => some { q.setTask i .gone with wqState := .exited }
  | .gone => none

inductive QpExitPc
  | testState
  | stop
  | join (i : Nat)
  | wake
  | loop
  | done
  deriving DecidableEq

/-- The next access of `dis_qp_exit`; `join` is the wait inside `kthread_stop`. -/
def qpExitStep (q : LifeQueue) : QpExitPc → Option (LifeQueue × QpExitPc)
  | .testState =>
    some (q, if q.wqState = .uninitialized ∨ q.wqState = .exited then .done else .stop)
  | .stop =>
    match q.thread with
    | .task i => some (q.stop i, .join i)
    | _ => none
  | .join i => if (q.tasks i).pc.ended then some (q, .wake) else none
  | .wake => some (q, .loop)
  | .loop => some (q, if q.wqState = .exited then .done else .loop)
  | .done => none

/-- A new queue of a zeroed QP. -/
def zeroLife : LifeQueue := ⟨.uninitialized, .null, ⟨0, 0⟩, 0, fun _ => ⟨.absent, false⟩, 0⟩

end DisKverbs
