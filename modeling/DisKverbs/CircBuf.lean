import Mathlib.Data.Nat.ModEq

namespace CircBuf

/-- `size - 1` for a size of 32 bits, where 0 wraps around. -/
def circMask (size : Nat) : Nat := if size = 0 then 2 ^ 32 - 1 else size - 1

@[simp] theorem circMask_one : circMask 1 = 0 := rfl

theorem circMask_lt {size : Nat} (h : size ≤ 2 ^ 32) : circMask size < 2 ^ 32 := by
  unfold circMask
  split <;> omega

/-- `CIRC_CNT` of the kernel's circular buffers, on 64-bit indices. -/
def circCnt (head tail size : Nat) : Nat :=
  ((head + 2 ^ 64 - tail) % 2 ^ 64) &&& circMask size

/-- `CIRC_SPACE`: one slot always stays empty. -/
def circSpace (head tail size : Nat) : Nat := circCnt tail (head + 1) size

/-- The masked successor by which producers and consumers advance an index. -/
def circNext (i size : Nat) : Nat := (i + 1) &&& circMask size

/-- The mask cuts off what an index of 64 bits loses when it wraps around. -/
theorem circNext_wraps (i : Nat) {size : Nat} (h : size ≤ 2 ^ 32) :
    (i + 1) % 2 ^ 64 &&& circMask size = circNext i size := by
  have hmask := circMask_lt h
  have hle : circNext i size ≤ circMask size := Nat.and_le_right
  calc (i + 1) % 2 ^ 64 &&& circMask size
      = (i + 1) % 2 ^ 64 &&& circMask size % 2 ^ 64 := by
        rw [Nat.mod_eq_of_lt (show circMask size < 2 ^ 64 by omega)]
    _ = circNext i size % 2 ^ 64 := (Nat.and_mod_two_pow ..).symm
    _ = circNext i size := Nat.mod_eq_of_lt (by omega)

/-- Sizes for which masking by `size - 1` is reduction modulo `size`. -/
structure RingSize where
  log : Nat
  log_pos : 0 < log
  log_lt : log < 64

def RingSize.size (r : RingSize) : Nat := 2 ^ r.log

def twoSlots : RingSize := ⟨1, by decide, by decide⟩

def fourSlots : RingSize := ⟨2, by decide, by decide⟩

variable (r : RingSize)

theorem RingSize.two_le : 2 ≤ r.size := by
  calc 2 = 2 ^ 1 := rfl
    _ ≤ 2 ^ r.log := Nat.pow_le_pow_right (by omega) r.log_pos

theorem RingSize.size_pos : 0 < r.size := by have := r.two_le; omega

theorem RingSize.size_dvd : r.size ∣ 2 ^ 64 := Nat.pow_dvd_pow 2 (Nat.le_of_lt r.log_lt)

theorem RingSize.size_le : r.size ≤ 2 ^ 64 := Nat.le_of_dvd (by omega) r.size_dvd

theorem mask_eq_mod (i : Nat) : i &&& circMask r.size = i % r.size := by
  rw [circMask, if_neg r.size_pos.ne']
  exact Nat.and_two_pow_sub_one_eq_mod i r.log

theorem circNext_mod (n : Nat) : circNext (n % r.size) r.size = (n + 1) % r.size := by
  rw [circNext, mask_eq_mod, Nat.mod_add_mod]

theorem slot_ne {m n : Nat} (hlt : m < n) (hlap : n < m + r.size) : m % r.size ≠ n % r.size := by
  intro he
  have hd : r.size ∣ n - m := (Nat.modEq_iff_dvd' (by omega)).mp he
  have := Nat.le_of_dvd (by omega) hd
  omega

theorem circCnt_of_modEq {head tail m n : Nat} (hh : head ≡ n [MOD r.size])
    (ht : tail ≡ m [MOD r.size]) (hb : tail ≤ head + 2 ^ 64)
    (hle : m ≤ n) (hlap : n < m + r.size) : circCnt head tail r.size = n - m := by
  rw [circCnt, mask_eq_mod, Nat.mod_mod_of_dvd _ r.size_dvd]
  have hsub : head + 2 ^ 64 - tail ≡ n - m [MOD r.size] := by
    apply Nat.ModEq.add_right_cancel ht
    rw [Nat.sub_add_cancel hb, Nat.sub_add_cancel hle]
    simpa using hh.add ((Nat.modEq_zero_iff_dvd).mpr r.size_dvd)
  rw [hsub, Nat.mod_eq_of_lt (by omega)]

theorem circCnt_mod {m n : Nat} (hle : m ≤ n) (hlap : n < m + r.size) :
    circCnt (n % r.size) (m % r.size) r.size = n - m := by
  have := Nat.mod_lt m r.size_pos
  have := r.size_le
  exact circCnt_of_modEq r (Nat.mod_modEq n _) (Nat.mod_modEq m _) (by omega) hle hlap

theorem circSpace_mod {m n : Nat} (hle : m ≤ n) (hlap : n < m + r.size) :
    circSpace (n % r.size) (m % r.size) r.size = m + r.size - (n + 1) := by
  have := Nat.mod_lt n r.size_pos
  have := r.size_le
  have ht : m % r.size ≡ m + r.size [MOD r.size] := by simp [Nat.ModEq]
  exact circCnt_of_modEq r ht ((Nat.mod_modEq n _).add_right 1) (by omega) (by omega) (by omega)

/-- The slots an empty test sees as occupied, oldest first. -/
def window {α : Type*} (slots : Nat → α) (head tail size : Nat) : List α :=
  (List.range (circCnt head tail size)).map fun i => slots ((tail + i) &&& circMask size)

theorem window_mod {α : Type*} (slots : Nat → α) {m n : Nat} (hle : m ≤ n) (hlap : n < m + r.size) :
    window slots (n % r.size) (m % r.size) r.size =
      (List.range (n - m)).map fun i => slots ((m + i) % r.size) := by
  simp only [window, circCnt_mod r hle hlap, mask_eq_mod, Nat.mod_add_mod]

end CircBuf
