import DisKverbs.MemoryRegion
import DisKverbs.CircBuf

namespace DisKverbs

open CellProg CircBuf

/-- The elementary stores of a post into its slot; `base` and `len` write through
an iovec pointer. -/
inductive WqeStore
  | opcode (v : IbWcOpcode)
  | sciMsq (v : Nat)
  | byteLen (v : UInt32)
  | ibqp (v : Nat)
  | wrId (v : UInt32)
  | iovlen (v : Nat)
  | iov (v : IovPtr)
  | pageMapDynamic (v : Option PageMap)
  | base (p : IovPtr) (v : UInt64)
  | len (p : IovPtr) (v : UInt64)

def DisWqe.modify (w : DisWqe) (p : IovPtr) (f : Iovec → Iovec) : DisWqe :=
  match p with
  | .null => w
  | .static i => { w with pageMapStatic := Function.update w.pageMapStatic i (f (w.pageMapStatic i)) }
  | .dynamic i => { w with pageMapDynamic := w.pageMapDynamic.map fun m =>
      { m with entries := Function.update m.entries i (f (m.entries i)) } }

def WqeStore.put : WqeStore → DisWqe → DisWqe
  | .opcode v, w => { w with opcode := v }
  | .sciMsq v, w => { w with sciMsq := v }
  | .byteLen v, w => { w with byteLen := v }
  | .ibqp v, w => { w with ibqp := v }
  | .wrId v, w => { w with wrId := v }
  | .iovlen v, w => { w with sciMsg := { w.sciMsg with iovlen := v } }
  | .iov v, w => { w with sciMsg := { w.sciMsg with iov := v } }
  | .pageMapDynamic v, w => { w with pageMapDynamic := v }
  | .base p v, w => w.modify p fun e => { e with iovBase := v }
  | .len p v, w => w.modify p fun e => { e with iovLen := v }

instance : Cell DisWqe WqeStore := ⟨WqeStore.put⟩

/-- Programs on one ring slot; the environment answers `kmalloc`, `none` is NULL. -/
abbrev SlotProg := Prog DisWqe WqeStore (Option PageMap)

structure PagePtr where
  pages : Nat → Iovec
  idx : Nat

structure DisSgeMap where
  mrPages : PagePtr
  baseOffset : UInt64
  pageOffset : UInt64
  pageCount : UInt64
  sgeLen : UInt64
  isDma : Bool

/-- The fields of a DMA SGE's map other than `is_dma` are never read. -/
def dmaSgeMap : DisSgeMap := ⟨⟨fun _ => default, 0⟩, 0, 0, 0, 0, true⟩

def userSgeMap (mr : DisMr) (ibsge : IbSge) : DisSgeMap :=
  let sgeLen := ibsge.length.toUInt64
  let offset := (ibsge.addr - mr.mrVa) + mr.mrVaOffset
  let pageOffset := offset / pageSize
  let baseOffset := offset - pageOffset * pageSize
  { isDma := false
    mrPages := ⟨mr.pages, pageOffset.toNat⟩
    sgeLen := sgeLen
    baseOffset := baseOffset
    pageOffset := pageOffset
    pageCount := (sgeLen + baseOffset) / pageSize + 1 }

/-- The memory a post reads besides its slot: the MR table of the PD and the MRs. -/
structure MrTable where
  mrList : Nat → Option Nat
  mr : Nat → DisMr

/-- `pd->mr_list[lkey]`, followed to the MR. -/
def MrTable.lookup (t : MrTable) (lkey : UInt32) : Option DisMr :=
  (t.mrList lkey.toNat).map t.mr

variable (lib : SciLib)

def addIovlen (n : Nat) : SlotProg Unit := do
  let w ← load
  store (.iovlen ((w.sciMsg.iovlen + n) % 2 ^ lib.iovlenBits))

def addByteLen (n : UInt32) : SlotProg Unit := do
  let w ← load
  store (.byteLen (w.byteLen + n))

def storeEntry (sgePage : IovPtr) (e : Iovec) : SlotProg Unit := do
  store (.base sgePage e.iovBase)
  store (.len sgePage e.iovLen)
  addByteLen e.iovLen.toUInt32

def spanSge (i : Nat) (ibsge : IbSge) : Option DisMr → SlotProg (Option DisSgeMap)
  | none => pure none
  | some mr =>
    if mr.isDma then do
      storeEntry (.static i) ⟨ibsge.addr, ibsge.length.toUInt64⟩
      store (.iov (.static i))
      addIovlen lib 1
      pure (some dmaSgeMap)
    else do
      addIovlen lib (userSgeMap mr ibsge).pageCount.toNat
      pure (some (userSgeMap mr ibsge))

/-- The first loop; `none` when a key names no MR. -/
def spanSges (t : MrTable) : Nat → List IbSge → SlotProg (Option (List DisSgeMap))
  | _, [] => pure (some [])
  | i, ibsge :: rest => do
    match ← spanSge lib i ibsge (t.lookup ibsge.lkey) with
    | none => pure none
    | some sge =>
      match ← spanSges t (i + 1) rest with
      | none => pure none
      | some sges => pure (some (sge :: sges))

/-- The choice of the store for the page map; `false` is the error exit. -/
def chooseStore : SlotProg Bool := do
  let w ← load
  if disMaxIovlen < w.sciMsg.iovlen then pure false
  else if w.sciMsg.iovlen ≤ disSgePerWqe then do
    store (.iov (.static 0))
    pure true
  else do
    let buf ← ask
    store (.pageMapDynamic buf)
    let w ← load
    if w.pageMapDynamic.isNone then pure false
    else do
      store (.iov (.dynamic 0))
      pure true

def kmin (a b : UInt64) : UInt64 := if a < b then a else b

/-- The chunk loop of one SGE. Every round maps at least one byte, so `sge_len`
rounds suffice. The result is the cursor and the pages that were read. -/
def mapPages (pages : Nat → Iovec) : Nat → Nat → UInt64 → UInt64 → IovPtr →
    SlotProg (IovPtr × List Nat)
  | 0, _, _, _, sgePage => pure (sgePage, [])
  | fuel + 1, mrPage, sgeLen, baseOffset, sgePage =>
    if 0 < sgeLen then do
      let sgeChunk := kmin sgeLen (pageSize - baseOffset)
      storeEntry sgePage ⟨(pages mrPage).iovBase + baseOffset, sgeChunk⟩
      let (cursor, used) ← mapPages pages fuel (mrPage + 1) (sgeLen - sgeChunk) 0 (sgePage.add 1)
      pure (cursor, mrPage :: used)
    else pure (sgePage, [])

/-- The second loop; the result lists, for each SGE, the pages its entries came from. -/
def mapSges : List DisSgeMap → IovPtr → SlotProg (List (List Nat))
  | [], _ => pure []
  | sge :: rest, sgePage =>
    if sge.isDma then do
      let used ← mapSges rest sgePage
      pure ([] :: used)
    else do
      let (cursor, pages) ← mapPages sge.mrPages.pages sge.sgeLen.toNat sge.mrPages.idx sge.sgeLen
        sge.baseOffset sgePage
      let used ← mapSges rest cursor
      pure (pages :: used)

/-- The two posting functions between their full test and their store of head;
`none` is the exit with -42. They differ in the opcode only: the receive side
assigns `mr_page` before its DMA test, but reads it after the test. -/
def postOneBody (opcode : IbWcOpcode) (ibqp sciMsq : Nat) (t : MrTable) (wr : IbWr) :
    SlotProg (Option (List (List Nat))) := do
  store (.opcode opcode)
  store (.sciMsq sciMsq)
  store (.byteLen 0)
  store (.ibqp ibqp)
  store (.wrId wr.wrId.toUInt32)
  store (.iovlen 0)
  match ← spanSges lib t 0 wr.visited with
  | none => pure none
  | some sges =>
    if ← chooseStore then do
      let w ← load
      let used ← mapSges sges w.sciMsg.iov
      pure (some used)
    else pure none

structure DisWq where
  head : Nat
  tail : Nat
  buf : Nat → DisWqe
  wqeMax : Nat
  ibqp : Nat
  sciMsq : Nat
  wqFlag : DisWqFlag
  wqState : DisWqStatus

structure PostResult where
  ret : Int
  wq : DisWq
  used : List (List Nat)

def postOne (opcode : IbWcOpcode) (t : MrTable) (kmalloc : Option PageMap) (wq : DisWq)
    (wr : IbWr) : PostResult :=
  if circSpace wq.head wq.tail wq.wqeMax < 1 then ⟨-42, wq, []⟩
  else
    match (postOneBody lib opcode wq.ibqp wq.sciMsq t wr).run kmalloc (wq.buf wq.head) with
    | (none, wqe) => ⟨-42, { wq with buf := Function.update wq.buf wq.head wqe }, []⟩
    | (some used, wqe) =>
      ⟨0, { wq with
        buf := Function.update wq.buf wq.head wqe
        head := circNext wq.head wq.wqeMax }, used⟩

def disQpPostOneSqe := postOne lib .send

def disQpPostOneRqe := postOne lib .recv

end DisKverbs
