import DisKverbs.Completion
import DisKverbs.RingRuns

namespace DisKverbs

open CellProg CircBuf

structure CqeCall where
  type : DisWqType
  wqe : DisWqe
  status : IbWcStatus

inductive HolderPc
  | enter
  | gotHead (head : Nat)
  | fill (head : Nat) (prog : CqeProg Unit)
  | unlock (ret : Int)

/-- Where `dis_poll_cq` is: `got` are the entries it copied so far, `pending` is how many
entries the ring held when head was loaded. -/
inductive PollerPc
  | idle
  | loop (numWc : Int) (got : List IbWc)
  | gotHead (numWc : Int) (got : List IbWc) (head pending : Nat)
  | copy (numWc : Int) (got : List IbWc) (tail : Nat) (prog : CqeProg IbWc)

structure Inserted (ι : Type) where
  producer : ι
  call : CqeCall
  cqe : DisCqe

/-- A finished poll; `pending` is set when an empty test ended it. -/
structure PollResult where
  numWc : Int
  wcs : List IbWc
  pending : Option Nat

/-- A completion queue shared by the producers `ι`: those that wait for `cqe_lock`, the
one that holds it, and the poller, which takes no lock. -/
structure CqState (ι : Type) where
  head : Nat
  tail : Nat
  slots : Nat → DisCqe
  waiting : ι → Option CqeCall
  holder : Option (ι × CqeCall × HolderPc)
  poller : PollerPc
  inserted : List (Inserted ι)
  rets : List (ι × Int)
  taken : Nat
  polls : List PollResult

variable {ι : Type} [DecidableEq ι] (r : RingSize)

def holderStep (s : CqState ι) (i : ι) (call : CqeCall) : HolderPc → Option (CqState ι)
  | .enter => some { s with holder := some (i, call, .gotHead s.head) }
  | .gotHead head =>
    if circSpace head s.tail r.size < 1 then some { s with holder := some (i, call, .unlock (-42)) }
    else
      some { s with
        holder := some (i, call, .fill head (disWqPostCqe call.type call.wqe call.status)) }
  | .fill head (.load k) => some { s with holder := some (i, call, .fill head (k (s.slots head))) }
  | .fill head (.store w k) =>
    some { s with
      slots := Function.update s.slots head (w.put (s.slots head))
      holder := some (i, call, .fill head k) }
  | .fill head (.ask k) => some { s with holder := some (i, call, .fill head (k ())) }
  | .fill head (.ret ()) =>
    some { s with
      head := circNext head r.size
      holder := some (i, call, .unlock 0)
      inserted := s.inserted ++ [⟨i, call, s.slots head⟩] }
  | .unlock ret => some { s with holder := none, rets := s.rets ++ [(i, ret)] }

/-- The next access of the poller; a poll stores nothing into the ring but its tail. -/
def pollerStep (s : CqState ι) : Option (CqState ι) :=
  match s.poller with
  | .idle => none
  | .loop numWc got =>
    if (got.length : Int) < numWc then
      some { s with poller := .gotHead numWc got s.head (s.inserted.length - s.taken) }
    else some { s with poller := .idle, polls := s.polls ++ [⟨numWc, got, none⟩] }
  | .gotHead numWc got head pending =>
    if circCnt head s.tail r.size < 1 then
      some { s with poller := .idle, polls := s.polls ++ [⟨numWc, got, some pending⟩] }
    else some { s with poller := .copy numWc got s.tail copyCqe }
  | .copy numWc got tail (.load k) =>
    some { s with poller := .copy numWc got tail (k (s.slots tail)) }
  | .copy numWc got tail (.ret wc) =>
    some { s with
      tail := circNext tail r.size
      poller := .loop numWc (got ++ [wc])
      taken := s.taken + 1 }
  | .copy .. => none

inductive CqAct (ι : Type)
  | call (i : ι) (call : CqeCall)
  | producer (i : ι)
  | poll (numWc : Int)
  | poller

/-- A context inserts one completion at a time and polls do not overlap. -/
def cqStep (s : CqState ι) : CqAct ι → Option (CqState ι)
  | .call i call =>
    match s.waiting i, s.holder with
    | none, some (j, _, _) =>
      if j = i then none else some { s with waiting := Function.update s.waiting i (some call) }
    | none, none => some { s with waiting := Function.update s.waiting i (some call) }
    | some _, _ => none
  | .producer i =>
    match s.holder with
    | some (j, call, pc) => if j = i then holderStep r s i call pc else none
    | none =>
      match s.waiting i with
      | some call =>
        some { s with
          waiting := Function.update s.waiting i none
          holder := some (i, call, .enter) }
      | none => none
  | .poll numWc =>
    match s.poller with
    | .idle => some { s with poller := .loop numWc [] }
    | _ => none
  | .poller => pollerStep r s

def CqInit (s : CqState ι) : Prop :=
  s = ⟨0, 0, fun _ => default, fun _ => none, none, .idle, [], [], 0, []⟩

end DisKverbs
