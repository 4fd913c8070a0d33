import DisKverbs.PostSpec
import Mathlib.Algebra.BigOperators.Group.List.Basic

namespace DisKverbs

open CellProg CircBuf

def disQpPostOne (lib : SciLib) : DisWqType → MrTable → Option PageMap → DisWq → IbWr → PostResult
  | .sq => disQpPostOneSqe lib
  | .rq => disQpPostOneRqe lib

def DisWqType.opcode : DisWqType → IbWcOpcode
  | .sq => .send
  | .rq => .recv

theorem disQpPostOne_eq (lib : SciLib) (type : DisWqType) :
    disQpPostOne lib type = postOne lib type.opcode := by cases type <;> rfl

/-- Byte `k` lies `k` bytes after the offset of the SGE in the pages of its MR. -/
def sgeBytes (mr : DisMr) (g : IbSge) : List UInt64 :=
  (List.range g.length.toNat).map fun k =>
    pageByte mr.pages 0 (mr.mrVaOffset.toNat + (g.addr.toNat - mr.mrVa.toNat) + k)

def InRange (mr : DisMr) (g : IbSge) : Prop :=
  mr.mrVa.toNat ≤ g.addr.toNat ∧
    g.addr.toNat + g.length.toNat ≤ mr.mrVa.toNat + mr.mrLength.toNat

instance (mr : DisMr) (g : IbSge) : Decidable (InRange mr g) :=
  inferInstanceAs (Decidable (_ ∧ _))

/-- The WQE describes exactly the bytes of the SGEs: `used` lists, for each SGE, the
page of every entry the mapping loop wrote. -/
structure MapsSges (t : MrTable) (wr : IbWr) (wqe : DisWqe) (used : List (List Nat)) : Prop where
  bytes : (wqe.iovEntries used.flatten.length).flatMap Iovec.bytes =
    wr.sgList.flatMap fun g => sgeBytes (t.mrOf g) g
  entry : ∀ e ∈ wqe.iovEntries used.flatten.length, 0 < e.iovLen.toNat ∧
    ∃ g ∈ wr.sgList, ∃ j < (t.mrOf g).pageCount.toNat, ∃ r : UInt64,
      e.iovBase = ((t.mrOf g).pages j).iovBase + r ∧ r.toNat + e.iovLen.toNat ≤ pageSize.toNat
  pages : List.Forall₂ (fun g js => ∀ j ∈ js, j < (t.mrOf g).pageCount.toNat) wr.sgList used
  byteLen : wqe.byteLen.toNat = (wr.sgList.map fun g => g.length.toNat).sum

theorem userMr_layout {mr : DisMr} (h : UserMr mr) :
    mr.isDma = false ∧
      mr.mrVaOffset.toNat + mr.mrLength.toNat ≤ mr.pageCount.toNat * 4096 := by
  obtain ⟨env, start, length, va, pd, k, p, pd', k', u, hu, hc, hr, rfl⟩ := h
  simp only [disRegUserMr, hu] at hr
  split at hr
  next => simp at hr
  next =>
    split at hr
    next => simp at hr
    next =>
      split at hr
      next => simp at hr
      next =>
        split at hr
        next => simp at hr
        next =>
          split at hr
          next => simp at hr
          next =>
            obtain ⟨rfl, rfl, rfl⟩ := by simpa using hr
            have ho := hc.offset_eq
            have hn := hc.count_eq
            simp only [pageSize_toNat] at ho hn
            simp only [Kernel.setMr, Kernel.acquire, Function.update_self, true_and]
            omega

section

variable {mr : DisMr} {g : IbSge}

theorem inRange_offset (hu : UserMr mr) (hr : InRange mr g) :
    (sgeOffset mr g).toNat = mr.mrVaOffset.toNat + (g.addr.toNat - mr.mrVa.toNat) ∧
      (sgeOffset mr g).toNat + g.length.toNat ≤ mr.pageCount.toNat * 4096 := by
  have hl := (userMr_layout hu).2
  have hc := mr.pageCount.toNat_lt
  obtain ⟨hva, hend⟩ := hr
  have hs : (g.addr - mr.mrVa).toNat = g.addr.toNat - mr.mrVa.toNat :=
    UInt64.toNat_sub_of_le _ _ (UInt64.le_iff_toNat_le.mpr hva)
  have he : (sgeOffset mr g).toNat = mr.mrVaOffset.toNat + (g.addr.toNat - mr.mrVa.toNat) := by
    rw [sgeOffset, UInt64.toNat_add, hs]
    omega
  exact ⟨he, by omega⟩

theorem pageByte_shift (pages : Nat → Iovec) (n k : Nat) :
    pageByte pages (n / 4096) (n % 4096 + k) = pageByte pages 0 (n + k) := by
  have hq : n / 4096 + (n % 4096 + k) / 4096 = 0 + (n + k) / 4096 := by omega
  have hr : (n % 4096 + k) % 4096 = (n + k) % 4096 := by omega
  rw [pageByte, pageByte, hq, hr]

theorem userEntries (mr : DisMr) (g : IbSge) : (userSgeMap mr g).entries =
    chunks mr.pages g.length.toNat ((sgeOffset mr g).toNat / 4096) g.length.toUInt64
      (userSgeMap mr g).baseOffset := by
  have hi := userSgeMap_idx mr g
  have hl := userSgeMap_sgeLen mr g
  simp only [DisSgeMap.entries, hi, hl]
  rfl

theorem userEntries_bytes (mr : DisMr) (g : IbSge) :
    (userSgeMap mr g).entries.flatMap Iovec.bytes = (List.range g.length.toNat).map fun k =>
      pageByte mr.pages 0 ((sgeOffset mr g).toNat + k) := by
  rw [userEntries, chunks_bytes (userSgeMap_baseOffset_lt mr g) (by simp), userSgeMap_baseOffset,
    UInt32.toNat_toUInt64]
  exact List.map_congr_left fun k _ => pageByte_shift mr.pages (sgeOffset mr g).toNat k

theorem userEntries_length (mr : DisMr) (g : IbSge) :
    (userSgeMap mr g).entries.length = if g.length.toNat = 0 then 0
      else ((sgeOffset mr g).toNat % 4096 + g.length.toNat + 4095) / 4096 := by
  rw [userEntries, chunks_length (userSgeMap_baseOffset_lt mr g) (by simp), userSgeMap_baseOffset,
    UInt32.toNat_toUInt64]

theorem userEntries_le (mr : DisMr) (g : IbSge) :
    (userSgeMap mr g).entries.length ≤ (userSgeMap mr g).pageCount.toNat := by
  rw [userEntries_length, userSgeMap_pageCount]
  split <;> omega

theorem mem_usedPages {j : Nat} (h : j ∈ (userSgeMap mr g).usedPages) :
    (sgeOffset mr g).toNat / 4096 ≤ j ∧
      j * 4096 < (sgeOffset mr g).toNat + g.length.toNat := by
  simp only [DisSgeMap.usedPages, List.mem_map, List.mem_range, userEntries_length,
    userSgeMap_idx] at h
  obtain ⟨n, hn, rfl⟩ := h
  split at hn <;> omega

theorem userEntries_entry {e : Iovec} (he : e ∈ (userSgeMap mr g).entries) :
    0 < e.iovLen.toNat ∧ ∃ j ∈ (userSgeMap mr g).usedPages, ∃ r : UInt64,
      e.iovBase = (mr.pages j).iovBase + r ∧ r.toNat + e.iovLen.toNat ≤ pageSize.toNat := by
  obtain ⟨n, hn⟩ := List.mem_iff_getElem?.mp he
  have hb := (List.getElem?_eq_some_iff.mp hn).1
  rw [userEntries] at hn
  obtain ⟨r, hbase, hpos, hin⟩ := chunks_entry (userSgeMap_baseOffset_lt mr g) hn
  refine ⟨hpos, _, List.mem_map.mpr ⟨n, by simpa using hb, rfl⟩, r, ?_, hin⟩
  rw [userSgeMap_idx]
  exact hbase

end

theorem mapEntries_byteLen (w : DisWqe) (p : IovPtr) (es : List Iovec) :
    (w.mapEntries p es).byteLen.toNat =
      (w.byteLen.toNat + (es.flatMap Iovec.bytes).length) % 2 ^ 32 := by
  induction es generalizing w p with
  | nil => simp [DisWqe.mapEntries]
  | cons e es ih =>
    rw [DisWqe.mapEntries, ih]
    simp only [DisWqe.mapEntry, UInt32.toNat_add, UInt64.toNat_toUInt32, List.flatMap_cons,
      List.length_append, bytes_length]
    omega

theorem iovEntries_mapEntries {w : DisWqe} {es : List Iovec} (hv : w.Valid w.sciMsg.iov) :
    (w.mapEntries w.sciMsg.iov es).iovEntries es.length = es := by
  apply List.ext_getElem (by simp [DisWqe.iovEntries])
  intro i _ hi
  simp [DisWqe.iovEntries, deref_mapEntries hv hi]

end DisKverbs
