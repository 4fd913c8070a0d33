import DisKverbs.DmaPlacement
import DisKverbs.AcceptedWqe
import DisKverbs.SciIf

namespace DisKverbs

open CellProg CircBuf

/-- The bytes of a list of SGEs. -/
def sgeTotal (gs : List IbSge) : Nat := (gs.map fun g => g.length.toNat).sum

/-- The `num_sge` SGEs of a WR. -/
def IbWr.sges (wr : IbWr) : List IbSge := wr.sgList.take wr.numSge.toNat

/-- The WR without the SGEs that no loop visits. -/
def IbWr.cut (wr : IbWr) : IbWr := ⟨wr.wrId, wr.visited, wr.visited.length, le_rfl⟩

/-- The SGEs contribute to the length of a WQE, and those of one kind to its list: its entries
and the bytes these name. -/
structure CarriesSges (t : MrTable) (gs : List IbSge) (wqe : DisWqe) : Prop where
  byteLen : sgeTotal gs < 2 ^ 32 → wqe.byteLen.toNat = sgeTotal gs
  chunks : wqe.iovEntries (chunkTotal t gs) = gs.flatMap fun g => (sgeMapOf t g).entries
  dmaEntries : (∀ g ∈ gs, (t.mrOf g).isDma = true) →
    wqe.iovEntries wqe.sciMsg.iovlen = gs.map dmaEntry
  users : (wqe.iovEntries (chunkTotal t gs)).flatMap Iovec.bytes =
    (gs.filter fun g => !(t.mrOf g).isDma).flatMap (sgeAddrs t)
  dma : (∀ g ∈ gs, (t.mrOf g).isDma = true) →
    (wqe.iovEntries wqe.sciMsg.iovlen).flatMap Iovec.bytes = gs.flatMap (sgeAddrs t)

theorem visited_cut (wr : IbWr) : wr.cut.visited = wr.visited :=
  visited_eq rfl (visited_length wr)

theorem visited_sges {wr : IbWr} (h4 : wr.numSge ≤ 4) : wr.visited = wr.sges := by
  simp only [IbWr.visited, IbWr.sges, disSgePerWqe]
  congr 1
  omega

/-- A post reads no more of a WR than its name and the SGEs it visits. -/
theorem disQpPostOne_cut (lib : SciLib) (type : DisWqType) (t : MrTable)
    (kmalloc : Option PageMap) (wq : DisWq) (wr : IbWr) :
    disQpPostOne lib type t kmalloc wq wr.cut = disQpPostOne lib type t kmalloc wq wr := by
  have hbody : postOneBody lib type.opcode wq.ibqp wq.sciMsq t wr.cut =
      postOneBody lib type.opcode wq.ibqp wq.sciMsq t wr := by
    rw [postOneBody, postOneBody, visited_cut]
    rfl
  rw [disQpPostOne_eq, postOne, postOne, hbody]

section

variable {A : Option PageMap → Prop} {lib : SciLib} {t : MrTable} {opcode : IbWcOpcode}
  {ibqp sciMsq : Nat} {wr : IbWr} {w w' : DisWqe} {used : List (List Nat)}
  (h : Runs A (postOneBody lib opcode ibqp sciMsq t wr) w (some used) w')

theorem chunk_bytes (t : MrTable) (gs : List IbSge) :
    (gs.flatMap fun g => (sgeMapOf t g).entries).flatMap Iovec.bytes =
      (gs.filter fun g => !(t.mrOf g).isDma).flatMap (sgeAddrs t) := by
  induction gs with
  | nil => rfl
  | cons g gs ih =>
    rw [List.flatMap_cons, List.flatMap_append, ih]
    cases hd : (t.mrOf g).isDma with
    | true =>
      have hz : (sgeMapOf t g).entries = [] := List.length_eq_zero_iff.mp (dma_counts hd).1
      simp [hz, hd]
    | false =>
      have he : (sgeMapOf t g).entries = sgeIovecs t g := by simp [sgeMapOf, sgeIovecs, hd]
      simp [he, hd, sgeIovecs_bytes]

include h

theorem postOneBody_chunks : w'.iovEntries (chunkTotal t wr.visited) =
    wr.visited.flatMap fun g => (sgeMapOf t g).entries := by
  obtain ⟨_, _, _, w₁, hm, rfl⟩ := postOneBody_some lib t h
  rw [chunkTotal, iovEntries_mapEntries hm.valid]

theorem postOneBody_dmaEntries (hdma : ∀ g ∈ wr.visited, (t.mrOf g).isDma = true) :
    w'.iovEntries w'.sciMsg.iovlen = wr.visited.map dmaEntry := by
  have hn := iovTotal_ones fun g hg => (dma_counts (hdma g hg)).2
  have h4 := visited_length wr
  have hzero : chunkTotal t wr.visited = 0 := by
    rw [chunkTotal, (dma_iovecs hdma).1, List.length_nil]
  rw [(postOneBody_list h).1, hn]
  apply List.ext_getElem (by simp [DisWqe.iovEntries])
  intro k hk _
  have hb : k < wr.visited.length := by simpa [DisWqe.iovEntries] using hk
  simpa [DisWqe.iovEntries] using postOneBody_dma h (List.getElem?_eq_getElem hb)
    (hdma _ (List.getElem_mem hb)) (by omega) (by rw [hn]; exact h4)

theorem postOneBody_carries : CarriesSges t wr.visited w' := by
  refine ⟨fun hlt => ?_, postOneBody_chunks h, postOneBody_dmaEntries h, ?_, fun hdma => ?_⟩
  · rw [postOneBody_byteLen h]
    exact Nat.mod_eq_of_lt hlt
  · rw [postOneBody_chunks h, chunk_bytes]
  · rw [postOneBody_dmaEntries h hdma, ← (dma_iovecs hdma).2, List.flatMap_assoc]
    exact List.flatMap_congr fun g _ => sgeIovecs_bytes t g

end

/-- An accepted WR is the WR cut to the SGEs of a WQE, and all of these contribute. -/
theorem disQpPostOne_carries (lib : SciLib) (type : DisWqType) (t : MrTable)
    (kmalloc : Option PageMap) (wq : DisWq) (wr : IbWr)
    (hret : (disQpPostOne lib type t kmalloc wq wr).ret = 0) :
    disQpPostOne lib type t kmalloc wq wr = disQpPostOne lib type t kmalloc wq wr.cut ∧
      CarriesSges t wr.visited ((disQpPostOne lib type t kmalloc wq wr).wq.buf wq.head) :=
  ⟨(disQpPostOne_cut lib type t kmalloc wq wr).symm,
    postOneBody_carries (disQpPostOne_slot hret).2⟩

/-- Five SGEs of eight bytes. -/
def fiveSgesWr : IbWr := ⟨7, List.replicate 5 ⟨0x7200, 8, 0⟩, 5, by decide⟩

theorem disQpPostOne_carries_five :
    disQpPostOne sciLib64 .sq mixedTable none (emptyWq 2) fiveSgesWr =
        disQpPostOne sciLib64 .sq mixedTable none (emptyWq 2) fiveSgesWr.cut ∧
      CarriesSges mixedTable fiveSgesWr.visited
        ((disQpPostOne sciLib64 .sq mixedTable none (emptyWq 2) fiveSgesWr).wq.buf 0) :=
  disQpPostOne_carries sciLib64 .sq mixedTable none (emptyWq 2) fiveSgesWr (by decide)

/-- The fifth SGE is dropped and the post succeeds. -/
theorem fiveSges_shortened :
    (disQpPostOne sciLib64 .sq mixedTable none (emptyWq 2) fiveSgesWr).ret = 0 ∧
      sgeTotal fiveSgesWr.sges = 40 ∧
      ((disQpPostOne sciLib64 .sq mixedTable none (emptyWq 2) fiveSgesWr).wq.buf 0).byteLen = 32 := by
  decide

/-- The bytes of an SGE on a user MR. -/
def userLength (t : MrTable) (g : IbSge) : Nat := if (t.mrOf g).isDma then 0 else g.length.toNat

/-- The length of a WQE is that of its message, and no more than the device advertises. -/
def LengthExact (gs : List IbSge) (wqe : DisWqe) : Prop :=
  wqe.byteLen.toNat = sgeTotal gs ∧ sgeTotal gs ≤ disMsgSizeMax

theorem sgeTotal_split (t : MrTable) (gs : List IbSge) :
    sgeTotal gs = (gs.map (userLength t)).sum + (gs.map (dmaLength t)).sum := by
  induction gs with
  | nil => rfl
  | cons g gs ih =>
    have hg : g.length.toNat = userLength t g + dmaLength t g := by
      unfold userLength dmaLength
      split <;> omega
    simp only [sgeTotal, List.map_cons, List.sum_cons] at ih ⊢
    omega

/-- The count of entries bounds the bytes on user MRs. -/
theorem userTotal_le (t : MrTable) (gs : List IbSge) :
    (gs.map (userLength t)).sum ≤ iovTotal t gs * 4096 := by
  induction gs with
  | nil => simp
  | cons g gs ih =>
    have hg : userLength t g ≤ sgeCount t g * 4096 := by
      unfold userLength sgeCount
      split
      next => omega
      next =>
        rw [userSgeMap_pageCount]
        omega
    rw [iovTotal_cons, List.map_cons, List.sum_cons]
    omega

/-- The count of entries bounds a message unless SGEs on DMA MRs make up too much of it. -/
theorem disQpPostOne_length_iff (lib : SciLib) (type : DisWqType) (t : MrTable)
    (kmalloc : Option PageMap) (wq : DisWq) (wr : IbWr) (h4 : wr.numSge ≤ 4)
    (hret : (disQpPostOne lib type t kmalloc wq wr).ret = 0) :
    LengthExact wr.sges ((disQpPostOne lib type t kmalloc wq wr).wq.buf wq.head) ↔
      (∀ g ∈ wr.sges, (t.mrOf g).isDma = false) ∨
        (wr.sges.map (dmaLength t)).sum ≤ disMsgSizeMax - (wr.sges.map (userLength t)).sum := by
  have hr := (disQpPostOne_slot hret).2
  have hcount := (postOneBody_some lib t hr).2.1
  have hbyte := postOneBody_byteLen hr
  have hmax : disMsgSizeMax = disMaxIovlen * 4096 := rfl
  rw [IbWr.length, visited_sges h4] at hbyte
  rw [visited_sges h4] at hcount
  have hsplit := sgeTotal_split t wr.sges
  have huser := userTotal_le t wr.sges
  simp only [disMaxIovlen] at hmax hcount
  constructor
  · rintro ⟨_, hle⟩
    exact .inr (by omega)
  · intro h
    have hfit : (wr.sges.map (dmaLength t)).sum ≤
        disMsgSizeMax - (wr.sges.map (userLength t)).sum := by
      rcases h with hu | hfit
      · have hzero : (wr.sges.map (dmaLength t)).sum = 0 := by
          refine List.sum_eq_zero fun n hn => ?_
          obtain ⟨g, hg, rfl⟩ := List.mem_map.mp hn
          simp [dmaLength, hu g hg]
        omega
      · exact hfit
    have hle : sgeTotal wr.sges ≤ disMsgSizeMax := by omega
    refine ⟨?_, hle⟩
    rw [hbyte]
    exact Nat.mod_eq_of_lt (by
      show sgeTotal wr.sges < 2 ^ 32
      omega)

theorem disQpPostOne_length_userFirst :
    LengthExact userFirstWr.sges
        ((disQpPostOne sciLib64 .sq mixedTable none (emptyWq 2) userFirstWr).wq.buf 0) ↔
      (∀ g ∈ userFirstWr.sges, (mixedTable.mrOf g).isDma = false) ∨
        (userFirstWr.sges.map (dmaLength mixedTable)).sum ≤
          disMsgSizeMax - (userFirstWr.sges.map (userLength mixedTable)).sum :=
  disQpPostOne_length_iff sciLib64 .sq mixedTable none (emptyWq 2) userFirstWr (by decide)
    (by decide)

/-- Two gigabytes twice, on a DMA MR. -/
def hugeDmaWr : IbWr := ⟨7, [⟨0x9000, 0x80000000, 1⟩, ⟨0x9000, 0x80000000, 1⟩], 2, by decide⟩

/-- The length of the accepted WQE wraps around to nothing. -/
theorem hugeDma_wraps :
    (disQpPostOne sciLib64 .sq mixedTable none (emptyWq 2) hugeDmaWr).ret = 0 ∧
      ((disQpPostOne sciLib64 .sq mixedTable none (emptyWq 2) hugeDmaWr).wq.buf 0).byteLen = 0 ∧
      ¬ LengthExact hugeDmaWr.sges
        ((disQpPostOne sciLib64 .sq mixedTable none (emptyWq 2) hugeDmaWr).wq.buf 0) := by
  refine ⟨by decide, by decide, ?_⟩
  rintro ⟨_, hle⟩
  revert hle
  decide

end DisKverbs
