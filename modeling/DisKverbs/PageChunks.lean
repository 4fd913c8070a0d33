import DisKverbs.PostOne
import Mathlib.Data.List.Range

namespace DisKverbs

def chunks (pages : Nat → Iovec) : Nat → Nat → UInt64 → UInt64 → List Iovec
  | 0, _, _, _ => []
  | fuel + 1, mrPage, sgeLen, baseOffset =>
    if 0 < sgeLen then
      let sgeChunk := kmin sgeLen (pageSize - baseOffset)
      ⟨(pages mrPage).iovBase + baseOffset, sgeChunk⟩ ::
        chunks pages fuel (mrPage + 1) (sgeLen - sgeChunk) 0
    else []

@[simp] theorem pageSize_toNat : pageSize.toNat = 4096 := rfl

theorem kmin_toNat (a b : UInt64) : (kmin a b).toNat = min a.toNat b.toNat := by
  unfold kmin
  split
  next h => have := UInt64.lt_iff_toNat_lt.mp h; omega
  next h => have := mt UInt64.lt_iff_toNat_lt.mpr h; omega

theorem sgeChunk_toNat {len off : UInt64} (ho : off.toNat < 4096) :
    (kmin len (pageSize - off)).toNat = min len.toNat (4096 - off.toNat) := by
  rw [kmin_toNat, UInt64.toNat_sub_of_le _ _ (UInt64.le_iff_toNat_le.mpr (by simp; omega))]
  rfl

theorem sgeRest_toNat (len : UInt64) {off : UInt64} (ho : off.toNat < 4096) :
    (len - kmin len (pageSize - off)).toNat = len.toNat - min len.toNat (4096 - off.toNat) := by
  rw [UInt64.toNat_sub_of_le _ _ (UInt64.le_iff_toNat_le.mpr (by rw [kmin_toNat]; omega)),
    sgeChunk_toNat ho]

theorem sgeLen_pos_iff {len : UInt64} : 0 < len ↔ 0 < len.toNat := by
  simpa using UInt64.lt_iff_toNat_lt (a := 0) (b := len)

section

variable {pages : Nat → Iovec} {fuel j : Nat} {len off : UInt64}

/-- Entry `n` starts at offset `r` of page `j + n`, is not empty and ends inside that page. -/
theorem chunks_entry (ho : off.toNat < 4096) {n : Nat} {e : Iovec}
    (he : (chunks pages fuel j len off)[n]? = some e) :
    ∃ r : UInt64, e.iovBase = (pages (j + n)).iovBase + r ∧ 0 < e.iovLen.toNat ∧
      r.toNat + e.iovLen.toNat ≤ 4096 := by
  induction fuel generalizing j len off n with
  | zero => simp [chunks] at he
  | succ fuel ih =>
    rw [chunks] at he
    split at he
    next hpos =>
      have hl := sgeLen_pos_iff.mp hpos
      cases n with
      | zero =>
        cases Option.some.inj he
        refine ⟨off, rfl, ?_, ?_⟩ <;> simp only [sgeChunk_toNat ho] <;> omega
      | succ n =>
        obtain ⟨r, hb, hp, hr⟩ := ih (show (0 : UInt64).toNat < 4096 by simp) (by simpa using he)
        exact ⟨r, by rw [hb, Nat.add_assoc, Nat.add_comm 1], hp, hr⟩
    next => simp at he

theorem chunks_length (ho : off.toNat < 4096) (hf : len.toNat ≤ fuel) :
    (chunks pages fuel j len off).length =
      if len.toNat = 0 then 0 else (off.toNat + len.toNat + 4095) / 4096 := by
  induction fuel generalizing j len off with
  | zero => simp [chunks, show len.toNat = 0 by omega]
  | succ fuel ih =>
    rw [chunks]
    split
    next hpos =>
      have hl := sgeLen_pos_iff.mp hpos
      have hrest := sgeRest_toNat len ho
      simp only [List.length_cons]
      rw [ih (by simp) (by rw [hrest]; omega), hrest]
      simp only [UInt64.toNat_zero]
      split <;> split <;> omega
    next hpos =>
      have : len.toNat = 0 := by have := mt sgeLen_pos_iff.mpr hpos; omega
      simp [this]

/-- Byte `k` of the SGE lies in page `j + (off + k) / PAGE_SIZE`. -/
def pageByte (pages : Nat → Iovec) (j k : Nat) : UInt64 :=
  (pages (j + k / 4096)).iovBase + UInt64.ofNat (k % 4096)

theorem chunks_bytes (ho : off.toNat < 4096) (hf : len.toNat ≤ fuel) :
    (chunks pages fuel j len off).flatMap Iovec.bytes =
      (List.range len.toNat).map fun k => pageByte pages j (off.toNat + k) := by
  induction fuel generalizing j len off with
  | zero => simp [chunks, show len.toNat = 0 by omega]
  | succ fuel ih =>
    rw [chunks]
    split
    next hpos =>
      have hl := sgeLen_pos_iff.mp hpos
      have hrest := sgeRest_toNat len ho
      have hsplit : len.toNat = min len.toNat (4096 - off.toNat) +
          (len.toNat - min len.toNat (4096 - off.toNat)) := by omega
      rw [List.flatMap_cons, ih (by simp) (by rw [hrest]; omega), hrest]
      conv_rhs => rw [hsplit, List.range_add, List.map_append, List.map_map]
      refine congrArg₂ (· ++ ·) ?_ ?_
      · simp only [Iovec.bytes, sgeChunk_toNat ho]
        apply List.map_congr_left
        intro k hk
        have hk' : off.toNat + k < 4096 := by simp at hk; omega
        have hsum : off + UInt64.ofNat k = UInt64.ofNat (off.toNat + k) := by simp
        rw [pageByte, Nat.div_eq_of_lt hk', Nat.mod_eq_of_lt hk', Nat.add_zero, ← hsum, UInt64.add_assoc]
      · apply List.map_congr_left
        intro k hk
        have hfull : min len.toNat (4096 - off.toNat) = 4096 - off.toNat := by simp at hk; omega
        have hnext : off.toNat + (4096 - off.toNat + k) = k + 4096 := by omega
        simp only [Function.comp, pageByte, UInt64.toNat_zero, Nat.zero_add, hfull, hnext,
          Nat.add_mod_right, Nat.add_div_right _ (show 0 < 4096 by omega)]
        congr 3
        omega
    next hpos =>
      have : len.toNat = 0 := by have := mt sgeLen_pos_iff.mpr hpos; omega
      simp [this]

theorem bytes_length (e : Iovec) : e.bytes.length = e.iovLen.toNat := by simp [Iovec.bytes]

end

end DisKverbs
