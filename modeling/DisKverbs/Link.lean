import DisKverbs.ByteMem
import DisKverbs.Messages
import DisKverbs.Transfers

namespace DisKverbs

open ByteMem StepSystem

structure LinkCfg where
  sq : WqCfg
  rq : WqCfg
  sqType : sq.type = .sq
  rqType : rq.type = .rq

/-- The buffer of a completed receive, and what it held when the receive completed. -/
structure Delivery where
  addrs : List UInt64
  bytes : List UInt8

/-- The SQ of a requester and the RQ of a responder, the memory of the two hosts and the
messages under way. The histories hold the bytes of the accepted sends when they were
accepted, the messages handed to the transport and the completed receives. -/
structure LinkState where
  sq : WqState
  rq : WqState
  sendMem : UInt64 → UInt8
  recvMem : UInt64 → UInt8
  channel : List (List UInt8)
  offered : List (List UInt8)
  handed : List (List UInt8)
  delivered : List Delivery

def LinkState.sent (s : LinkState) (a : WqAct) : List (List UInt8) :=
  match s.sq.moving a with
  | some tail => [(s.sq.slots tail).msgBytes.map s.sendMem]
  | none => []

def LinkState.completed (s : LinkState) (a : WqAct) : List Delivery :=
  match s.rq.completing a with
  | some tail => [⟨(s.rq.slots tail).msgBytes, (s.rq.slots tail).msgBytes.map s.recvMem⟩]
  | none => []

/-- The sends that a step accepts, as their buffers are at that time. -/
def LinkState.accepted (s : LinkState) (sq : WqState) : List (List UInt8) :=
  (sq.posted.drop s.sq.posted.length).map fun p => p.req.bytes.map s.sendMem

/-- An access of the responder. A receive call succeeds only with the first message under
way, and only when that has `byte_len` bytes; otherwise it fails without effect. -/
def LinkState.rqStep (cfg : LinkCfg) (s : LinkState) (a : WqAct) : Option LinkState :=
  match s.rq.moving a, s.channel with
  | none, _ =>
    (wqStep cfg.rq s.rq a).map fun rq =>
      { s with rq := rq, delivered := s.delivered ++ s.completed a }
  | some _, [] => none
  | some tail, m :: rest =>
    if m.length = (s.rq.slots tail).byteLen.toNat then
      (wqStep cfg.rq s.rq (.worker (some (s.rq.slots tail).byteLen))).map fun rq =>
        { s with
          rq := rq
          channel := rest
          recvMem := writeBytes s.recvMem (s.rq.slots tail).msgBytes m }
    else none

inductive LinkAct
  | sq (a : WqAct)
  | rq (a : WqAct)
  | sendWrite (addr : UInt64) (v : UInt8)
  | recvWrite (addr : UInt64) (v : UInt8)

def linkStep (cfg : LinkCfg) (s : LinkState) : LinkAct → Option LinkState
  | .sq a =>
    (wqStep cfg.sq s.sq a).map fun sq =>
      { s with
        sq := sq
        channel := s.channel ++ s.sent a
        offered := s.offered ++ s.accepted sq
        handed := s.handed ++ s.sent a }
  | .rq a => s.rqStep cfg a
  | .sendWrite addr v => some { s with sendMem := Function.update s.sendMem addr v }
  | .recvWrite addr v => some { s with recvMem := Function.update s.recvMem addr v }

def LinkInit (s : LinkState) : Prop :=
  WqInit s.sq ∧ WqInit s.rq ∧ s.channel = [] ∧ s.offered = [] ∧ s.handed = [] ∧ s.delivered = []

/-- A receive buffer is in use until its receive completes, and for good if the
application keeps it. -/
def LinkState.inUse (keep : Nat → Prop) (s : LinkState) (i : Nat) : Prop :=
  s.delivered.length ≤ i ∨ keep i

/-- What the two applications see to: they post requests that fit, and receive buffers in
use do not overlap. -/
structure LinkSound (keep : Nat → Prop) (s : LinkState) : Prop where
  sends : ∀ (i : Nat) (p : Posted), s.sq.posted[i]? = some p → p.req.Fits
  recvs : ∀ (i : Nat) (p : Posted), s.rq.posted[i]? = some p → p.req.Fits
  nodup : ∀ (i : Nat) (p : Posted), s.rq.posted[i]? = some p → s.inUse keep i →
    p.req.bytes.Nodup
  apart : ∀ (i j : Nat) (p q : Posted), i ≠ j → s.rq.posted[i]? = some p →
    s.rq.posted[j]? = some q → s.inUse keep i → s.inUse keep j → ∀ x ∈ p.req.bytes, x ∉ q.req.bytes

/-- No worker is stopped, and no application writes to a buffer that was not sent yet or
that is in use for receiving. -/
def LinkState.Allows (keep : Nat → Prop) (s : LinkState) : LinkAct → Prop
  | .sq .stop => False
  | .rq .stop => False
  | .sendWrite addr _ => ∀ (i : Nat) (p : Posted), s.sq.posted[i]? = some p →
      s.handed.length ≤ i → addr ∉ p.req.bytes
  | .recvWrite addr _ => ∀ (i : Nat) (p : Posted), s.rq.posted[i]? = some p →
      s.inUse keep i → addr ∉ p.req.bytes
  | _ => True

def LinkOk (keep : Nat → Prop) (cfg : LinkCfg) (s : LinkState) (a : LinkAct) : Prop :=
  s.Allows keep a ∧ ∀ t, linkStep cfg s a = some t → LinkSound keep t

end DisKverbs
