import DisKverbs.ScatterGather
import DisKverbs.RingMachine

namespace DisKverbs

open CellProg CircBuf

structure WqCfg where
  lib : SciLib
  ring : RingSize
  type : DisWqType
  ibqp : Nat
  sciMsq : Nat

structure PostReq where
  table : MrTable
  wr : IbWr

def WqCfg.body (cfg : WqCfg) (req : PostReq) : SlotProg (Option (List (List Nat))) :=
  postOneBody cfg.lib cfg.type.opcode cfg.ibqp cfg.sciMsq req.table req.wr

/-- Where the posting context is. While it fills a slot, `prog` is what it has still
to do, `owned` lists the page maps it allocated and `start` is the slot it found. -/
inductive PosterPc
  | idle
  | gotHead (req : PostReq) (head : Nat)
  | fill (req : PostReq) (head : Nat) (prog : SlotProg (Option (List (List Nat))))
      (owned : List Nat) (start : DisWqe)

/-- Where the worker is in `dis_wq_consume_all`; the slots are named by the tail it
loaded, `total` and `left` are `bytes_total` and `bytes_left`. -/
inductive WorkerPc
  | idle
  | top
  | check
  | gotHead (head : Nat)
  | sendTop (tail : Nat)
  | sendCall (tail : Nat)
  | recvTotal (tail : Nat)
  | recvLeft (tail : Nat) (total : UInt32)
  | recvTop (tail : Nat) (total left : UInt32)
  | recvCall (tail : Nat) (total left : UInt32)
  | recvGot (tail : Nat) (total left : UInt32)
  | recvWhole (tail : Nat) (total : UInt32)
  | recvAgain (tail : Nat) (total left : UInt32)
  | complete (tail : Nat) (status : IbWcStatus)
  | free (tail : Nat) (status : IbWcStatus)
  | retire (tail : Nat) (status : IbWcStatus)
  | exited

/-- An accepted post: its slot when head was stored, and how it came about. -/
structure Posted where
  req : PostReq
  wqe : DisWqe
  used : List (List Nat)
  owned : List Nat
  start : DisWqe

/-- One work queue with its history: what posts returned, the accepted posts, the statuses
of the retired WQEs, and for each `kfree` the index of the WQE and the page map. -/
structure WqState where
  head : Nat
  tail : Nat
  slots : Nat → DisWqe
  poster : PosterPc
  worker : WorkerPc
  shouldStop : Bool
  fresh : Nat
  rets : List Int
  posted : List Posted
  retired : List IbWcStatus
  frees : List (Nat × Nat)

/-- The next access of the posting context; `buf` is what `kmalloc` would return. -/
def posterStep (cfg : WqCfg) (buf : Option (Nat → Iovec)) (s : WqState) : Option WqState :=
  match s.poster with
  | .idle => none
  | .gotHead req head =>
    if circSpace head s.tail cfg.ring.size < 1 then
      some { s with poster := .idle, rets := s.rets ++ [-42] }
    else some { s with poster := .fill req head (cfg.body req) [] (s.slots head) }
  | .fill req head (.load k) owned start =>
    some { s with poster := .fill req head (k (s.slots head)) owned start }
  | .fill req head (.store w k) owned start =>
    some { s with
      slots := Function.update s.slots head (w.put (s.slots head))
      poster := .fill req head k owned start }
  | .fill req head (.ask k) owned start =>
    match buf with
    | none => some { s with poster := .fill req head (k none) owned start }
    | some entries =>
      some { s with
        fresh := s.fresh + 1
        poster := .fill req head (k (some ⟨s.fresh, entries⟩)) (s.fresh :: owned) start }
  | .fill _ _ (.ret none) _ _ => some { s with poster := .idle, rets := s.rets ++ [-42] }
  | .fill req head (.ret (some used)) owned start =>
    some { s with
      head := circNext head cfg.ring.size
      poster := .idle
      rets := s.rets ++ [0]
      posted := s.posted ++ [⟨req, s.slots head, used, owned, start⟩] }

def WqState.setByteLen (s : WqState) (tail : Nat) (n : UInt32) : WqState :=
  { s with slots := Function.update s.slots tail { s.slots tail with byteLen := n } }

def WqState.kfree (s : WqState) (tail : Nat) : List (Nat × Nat) :=
  match (s.slots tail).pageMapDynamic with
  | some m => s.frees ++ [(s.retired.length, m.id)]
  | none => s.frees

/-- The next access of the worker; `out` is the outcome of a transport call: `none` for
an error, else the `byte_len` that a receive leaves in the slot. -/
def workerStep (cfg : WqCfg) (out : Option UInt32) (s : WqState) : Option WqState :=
  match s.worker with
  | .idle => some { s with worker := .top }
  | .top => some { s with worker := if s.shouldStop then .exited else .check }
  | .check => some { s with worker := .gotHead s.head }
  | .gotHead head =>
    if circCnt head s.tail cfg.ring.size < 1 then some { s with worker := .idle }
    else
      match cfg.type with
      | .sq => some { s with worker := .sendTop s.tail }
      | .rq => some { s with worker := .recvTotal s.tail }
  | .sendTop tail =>
    some { s with
      worker := if s.shouldStop then .complete tail .respTimeoutErr else .sendCall tail }
  | .sendCall tail =>
    match out with
    | none => some { s with worker := .sendTop tail }
    | some _ => some { s with worker := .complete tail .success }
  | .recvTotal tail => some { s with worker := .recvLeft tail (s.slots tail).byteLen }
  | .recvLeft tail total => some { s with worker := .recvTop tail total (s.slots tail).byteLen }
  | .recvTop tail total left =>
    some { s with
      worker := if s.shouldStop then .complete tail .respTimeoutErr else .recvCall tail total left }
  | .recvCall tail total left =>
    match out with
    | none => some { s with worker := .recvAgain tail total left }
    | some n => some { s.setByteLen tail n with worker := .recvGot tail total left }
  | .recvGot tail total left =>
    let left := left - (s.slots tail).byteLen
    some { s with worker := if left = 0 then .recvWhole tail total else .recvAgain tail total left }
  | .recvWhole tail total => some { s.setByteLen tail total with worker := .complete tail .success }
  | .recvAgain tail total left =>
    some { s.setByteLen tail left with worker := .recvTop tail total left }
  | .complete tail status => some { s with worker := .free tail status }
  | .free tail status => some { s with frees := s.kfree tail, worker := .retire tail status }
  | .retire tail status =>
    some { s with
      tail := circNext tail cfg.ring.size
      worker := .top
      retired := s.retired ++ [status] }
  | .exited => none

inductive WqAct
  | start (req : PostReq)
  | poster (buf : Option (Nat → Iovec))
  | worker (out : Option UInt32)
  | stop

def wqStep (cfg : WqCfg) (s : WqState) : WqAct → Option WqState
  | .start req =>
    match s.poster with
    | .idle => some { s with poster := .gotHead req s.head }
    | _ => none
  | .poster buf => posterStep cfg buf s
  | .worker out => workerStep cfg out s
  | .stop => some { s with shouldStop := true }

/-- A new queue: a zeroed ring, no post, and a worker about to drain it. -/
def WqInit (s : WqState) : Prop :=
  s = ⟨0, 0, fun _ => default, .idle, .top, false, 0, [], [], [], []⟩

end DisKverbs
