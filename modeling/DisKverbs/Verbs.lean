import DisKverbs.CellProg
import Mathlib.Logic.Function.Basic

namespace DisKverbs

/-- `PAGE_SIZE` of the x86-64 build. -/
def pageSize : UInt64 := 4096

def disQpIni : Nat := 100
def disQpMax : Nat := 200
def disMrIni : Nat := 0
def disMrMax : Nat := 100
def disSgePerWqe : Nat := 4
def disMaxIovlen : Nat := 1024

inductive DisWqFlag
  | empty
  | post
  deriving DecidableEq

inductive DisWqStatus
  | uninitialized
  | initialized
  | running
  | exited
  deriving DecidableEq

inductive DisWqType
  | sq
  | rq
  deriving DecidableEq

inductive IbWcOpcode
  | send
  | recv
  deriving DecidableEq

inductive IbWcStatus
  | success
  | respTimeoutErr
  deriving DecidableEq

/-- What `sci_msg_t`, defined outside the repository, leaves open. -/
structure SciLib where
  iovlenBits : Nat
  iovlenBits_ge : 32 ≤ iovlenBits

structure Iovec where
  iovBase : UInt64
  iovLen : UInt64
  deriving DecidableEq, Inhabited

/-- The physical addresses an entry describes, in order. -/
def Iovec.bytes (e : Iovec) : List UInt64 :=
  (List.range e.iovLen.toNat).map fun k => e.iovBase + UInt64.ofNat k

/-- `struct dis_mr`; `pages` is the memory its page list points to. -/
structure DisMr where
  lkey : UInt32
  pages : Nat → Iovec
  mrVa : UInt64
  mrVaOffset : UInt64
  mrLength : UInt64
  pageCount : UInt32
  isDma : Bool

/-- `struct dis_pd`; table entries are pointers, `none` is NULL. -/
structure DisPd where
  qpList : Nat → Option Nat
  mrList : Nat → Option Nat
  qpC : Nat
  mrC : Nat

structure IbSge where
  addr : UInt64
  length : UInt32
  lkey : UInt32

/-- What posting reads of an `ib_send_wr` or `ib_recv_wr`. -/
structure IbWr where
  wrId : UInt64
  sgList : List IbSge
  numSge : Int
  numSge_le : numSge ≤ sgList.length

/-- The SGEs both loops of a post visit: `min(num_sge, DIS_SGE_PER_WQE)` of them. -/
def IbWr.visited (wr : IbWr) : List IbSge :=
  wr.sgList.take (min wr.numSge disSgePerWqe).toNat

/-- Where `sci_msg.iov` points: into the slot itself or into the dynamic map. -/
inductive IovPtr
  | null
  | static (i : Nat)
  | dynamic (i : Nat)
  deriving DecidableEq

def IovPtr.add : IovPtr → Nat → IovPtr
  | .null, _ => .null
  | .static i, n => .static (i + n)
  | .dynamic i, n => .dynamic (i + n)

structure SciMsg where
  iov : IovPtr
  iovlen : Nat

/-- A buffer returned by `kmalloc`: which allocation it is, and its contents. -/
structure PageMap where
  id : Nat
  entries : Nat → Iovec

/-- `struct dis_wqe`; queues and QPs are named by number. -/
structure DisWqe where
  ibqp : Nat
  pageMapDynamic : Option PageMap
  pageMapStatic : Nat → Iovec
  sciMsq : Nat
  sciMsg : SciMsg
  wrId : UInt32
  byteLen : UInt32
  opcode : IbWcOpcode

instance : Inhabited DisWqe := ⟨⟨0, none, fun _ => default, 0, ⟨.null, 0⟩, 0, 0, .send⟩⟩

def DisWqe.deref (w : DisWqe) : IovPtr → Iovec
  | .null => default
  | .static i => w.pageMapStatic i
  | .dynamic i =>
    match w.pageMapDynamic with
    | some m => m.entries i
    | none => default

/-- The first `n` entries of `sci_msg.iov`. -/
def DisWqe.iovEntries (w : DisWqe) (n : Nat) : List Iovec :=
  (List.range n).map fun i => w.deref (w.sciMsg.iov.add i)

/-- The addresses of a message: the first `byte_len` bytes the list describes. -/
def DisWqe.msgBytes (w : DisWqe) : List UInt64 :=
  ((w.iovEntries w.sciMsg.iovlen).flatMap Iovec.bytes).take w.byteLen.toNat

end DisKverbs
