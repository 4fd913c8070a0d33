import DisKverbs.Creation

namespace DisKverbs

open CircBuf

/-- What the kernel answers to a creation: `kzalloc` by the number of bytes, which succeeds for
zero bytes, and what `roundup_pow_of_two` computes for 0, where it is undefined. -/
structure CreateMem where
  kzalloc : Nat → Bool
  kzalloc_zero : kzalloc 0 = true
  undef : Nat

/-- A ring as its creation leaves it: the 32-bit size and the bytes of the buffer. -/
structure RingBuf where
  max : UInt32
  bytes : Nat

/-- `roundup_pow_of_two` on 64 bits, stored in 32 bits. -/
def CreateMem.size (mem : CreateMem) (n : UInt32) : UInt32 :=
  UInt32.ofNat (if n = 0 then mem.undef else roundupPowOfTwo n.toNat)

/-- The size and the buffer of a ring of entries of `sizeof` bytes; the product has 64 bits. -/
def CreateMem.ring (mem : CreateMem) (sizeof : Nat) (n : UInt32) : Option RingBuf :=
  let max := mem.size n
  let bytes := sizeof * max.toNat
  if mem.kzalloc bytes then some ⟨max, bytes⟩ else none

/-- The ring of `dis_create_cq`. -/
def cqRing (mem : CreateMem) (sizeofCqe : Nat) (cqe : UInt32) : Option RingBuf :=
  mem.ring sizeofCqe (cqe + 1)

/-- The rings of `dis_create_qp`, the SQ first. -/
def qpRings (mem : CreateMem) (sizeofWqe : Nat) (qpAlloc : Bool) (maxSendWr maxRecvWr : UInt32)
    (pd : DisPd) : Option (RingBuf × RingBuf) :=
  if disQpMax ≤ pd.qpC then none
  else if !qpAlloc then none
  else
    match mem.ring sizeofWqe (maxSendWr + 1) with
    | none => none
    | some sq =>
      match mem.ring sizeofWqe (maxRecvWr + 1) with
      | none => none
      | some rq => some (sq, rq)

/-- `(i + 1) & (max - 1)`, an index of 64 bits and a mask of 32. -/
def nextIndex (max : UInt32) (i : UInt64) : UInt64 := (i + 1) &&& (max - 1).toUInt64

/-- The size is a power of two, the buffer has that many entries, and every masked index names
one of them. -/
structure RingFits (sizeof : Nat) (ring : RingBuf) : Prop where
  pow : ∃ k, ring.max.toNat = 2 ^ k
  entries : sizeof * ring.max.toNat ≤ ring.bytes
  inside : ∀ i, sizeof * (nextIndex ring.max i).toNat + sizeof ≤ ring.bytes

section

variable {mem : CreateMem} {sizeof : Nat} {n : UInt32} {ring : RingBuf}

theorem ring_some (h : mem.ring sizeof n = some ring) :
    ring.max = mem.size n ∧ ring.bytes = sizeof * (mem.size n).toNat := by
  simp only [CreateMem.ring] at h
  split at h
  next => cases Option.some.inj h; exact ⟨rfl, rfl⟩
  next => simp at h

theorem size_eq (hn : n ≠ 0) : (mem.size n).toNat = ringMax n := by
  rw [CreateMem.size, if_neg hn, ringMax]

theorem size_pow (hn : n ≠ 0) (hle : n.toNat ≤ 2 ^ 31) : ∃ k, (mem.size n).toNat = 2 ^ k :=
  ⟨_, (size_eq hn).trans (ringMax_eq hle)⟩

/-- Above `2^31` the rounded number does not fit 32 bits. -/
theorem size_wraps (hgt : 2 ^ 31 < n.toNat) : mem.size n = 0 := by
  have hlt := n.toNat_lt
  have hn : n ≠ 0 := by
    rintro rfl
    simp at hgt
  have hle : (n.toNat - 1).size ≤ 32 := Nat.size_le.mpr (by omega)
  have hge : 31 < (n.toNat - 1).size := Nat.lt_size.mpr (by omega)
  have hsize : (n.toNat - 1).size = 32 := by omega
  rw [CreateMem.size, if_neg hn, roundupPowOfTwo_eq, hsize]
  rfl

/-- The index arithmetic of the rings, a size of 0 included. -/
theorem nextIndex_toNat (max : UInt32) (i : UInt64) :
    (nextIndex max i).toNat = circNext i.toNat max.toNat := by
  have hlt := max.toNat_lt
  have hmask : (max - 1).toNat = circMask max.toNat := by
    rw [UInt32.toNat_sub, circMask, show (1 : UInt32).toNat = 1 from rfl]
    split <;> omega
  rw [nextIndex, UInt64.toNat_and, UInt64.toNat_add, UInt32.toNat_toUInt64, hmask,
    show (1 : UInt64).toNat = 1 from rfl]
  exact circNext_wraps _ (by omega)

theorem nextIndex_lt {max : UInt32} {k : Nat} (hk : max.toNat = 2 ^ k) (i : UInt64) :
    (nextIndex max i).toNat < max.toNat := by
  have hpos := Nat.two_pow_pos k
  rw [nextIndex_toNat, circNext, circMask, hk, if_neg hpos.ne', Nat.and_two_pow_sub_one_eq_mod]
  exact Nat.mod_lt _ hpos

theorem ring_fits (hn : n ≠ 0) (hle : n.toNat ≤ 2 ^ 31) (h : mem.ring sizeof n = some ring) :
    RingFits sizeof ring := by
  obtain ⟨hmax, hbytes⟩ := ring_some h
  obtain ⟨k, hk⟩ := @size_pow mem n hn hle
  rw [← hmax] at hk hbytes
  refine ⟨⟨k, hk⟩, hbytes.ge, fun i => ?_⟩
  have hlt := nextIndex_lt hk i
  calc sizeof * (nextIndex ring.max i).toNat + sizeof
      = sizeof * ((nextIndex ring.max i).toNat + 1) := (Nat.mul_succ ..).symm
    _ ≤ sizeof * ring.max.toNat := Nat.mul_le_mul_left _ hlt
    _ = ring.bytes := hbytes.symm

/-- A kernel that grants every request. -/
def grantingMem : CreateMem := ⟨fun _ => true, rfl, 0⟩

theorem ring_granted (sizeof : Nat) (n : UInt32) :
    ∃ ring, grantingMem.ring sizeof n = some ring ∧ ring.max = grantingMem.size n :=
  ⟨_, rfl, rfl⟩

theorem not_fits_zero (hmax : ring.max = 0) : ¬ RingFits sizeof ring := by
  intro h
  obtain ⟨k, hk⟩ := h.pow
  rw [hmax, UInt32.toNat_zero] at hk
  exact absurd hk.symm (Nat.two_pow_pos k).ne'

theorem succ_small (hn : n.toNat < 2 ^ 31) : n + 1 ≠ 0 ∧ (n + 1).toNat ≤ 2 ^ 31 := by
  have hsucc : (n + 1).toNat = n.toNat + 1 := by
    rw [UInt32.toNat_add, UInt32.toNat_one]
    exact Nat.mod_eq_of_lt (by omega)
  refine ⟨?_, by omega⟩
  intro h
  rw [h, UInt32.toNat_zero] at hsucc
  omega

theorem succ_large (hn : ¬ n.toNat < 2 ^ 31) : grantingMem.size (n + 1) = 0 := by
  have hlt := n.toNat_lt
  by_cases hz : n + 1 = 0
  · rw [hz]
    rfl
  · refine size_wraps ?_
    have hne : (n + 1).toNat ≠ 0 := fun h => hz (UInt32.toNat_inj.mp h)
    rw [UInt32.toNat_add, UInt32.toNat_one] at hne ⊢
    omega

end

/-- The ring is that of the completion queue that is made. -/
theorem cqRing_create {mem : CreateMem} {sizeofCqe : Nat} {cqe : UInt32} {ring : RingBuf}
    (hn : cqe + 1 ≠ 0) (h : cqRing mem sizeofCqe cqe = some ring) :
    (disCreateCq true cqe zeroCq).1 = 0 ∧
      (disCreateCq true cqe zeroCq).2.cqeMax = ring.max.toNat := by
  rw [(ring_some h).1, size_eq hn]
  exact ⟨rfl, rfl⟩

theorem cqRing_fits_iff (sizeofCqe : Nat) (cqe : UInt32) :
    (∀ mem ring, cqRing mem sizeofCqe cqe = some ring → RingFits sizeofCqe ring) ↔
      cqe.toNat < 2 ^ 31 := by
  constructor
  · intro h
    by_contra hn
    obtain ⟨ring, hring, hmax⟩ := ring_granted sizeofCqe (cqe + 1)
    exact not_fits_zero (hmax.trans (succ_large hn)) (h _ ring hring)
  · intro hn mem ring hring
    exact ring_fits (succ_small hn).1 (succ_small hn).2 hring

section

variable {mem : CreateMem} {sizeofWqe : Nat} {qpAlloc : Bool} {maxSendWr maxRecvWr : UInt32}
  {pd : DisPd} {sq rq : RingBuf}

theorem qpRings_some
    (h : qpRings mem sizeofWqe qpAlloc maxSendWr maxRecvWr pd = some (sq, rq)) :
    pd.qpC < disQpMax ∧ qpAlloc = true ∧ mem.ring sizeofWqe (maxSendWr + 1) = some sq ∧
      mem.ring sizeofWqe (maxRecvWr + 1) = some rq := by
  unfold qpRings at h
  split at h
  next => simp at h
  next hc =>
    split at h
    next => simp at h
    next ha =>
      split at h
      next => simp at h
      next sq' hsq =>
        split at h
        next => simp at h
        next rq' hrq =>
          cases Option.some.inj h
          exact ⟨by omega, by simpa using ha, hsq, hrq⟩

/-- The rings are those of the queue pair that is made. -/
theorem qpRings_create (qp : Nat) (hs : maxSendWr + 1 ≠ 0) (hr : maxRecvWr + 1 ≠ 0)
    (h : qpRings mem sizeofWqe qpAlloc maxSendWr maxRecvWr pd = some (sq, rq)) :
    ∃ made, (disCreateQp ⟨qpAlloc, true, true⟩ qp maxSendWr maxRecvWr pd).1 = some made ∧
      made.sq.wqeMax = sq.max.toNat ∧ made.rq.wqeMax = rq.max.toNat := by
  obtain ⟨hc, ha, hsq, hrq⟩ := qpRings_some h
  rw [(ring_some hsq).1, (ring_some hrq).1, size_eq hs, size_eq hr]
  have hmade : (disCreateQp ⟨qpAlloc, true, true⟩ qp maxSendWr maxRecvWr pd).1 = some {
      sq := { zeroWq with ibqp := qp, sciMsq := 2 * qp, wqeMax := ringMax (maxSendWr + 1) }
      rq := { zeroWq with
        ibqp := qp, sciMsq := 2 * qp + 1, wqeMax := ringMax (maxRecvWr + 1) } } := by
    rw [disCreateQp, if_neg (by omega), ha]
    rfl
  exact ⟨_, hmade, rfl, rfl⟩

end

theorem qpRings_fits_iff (sizeofWqe : Nat) (maxSendWr maxRecvWr : UInt32) :
    (∀ mem qpAlloc pd sq rq, qpRings mem sizeofWqe qpAlloc maxSendWr maxRecvWr pd = some (sq, rq) →
      RingFits sizeofWqe sq ∧ RingFits sizeofWqe rq) ↔
      maxSendWr.toNat < 2 ^ 31 ∧ maxRecvWr.toNat < 2 ^ 31 := by
  constructor
  · intro h
    obtain ⟨sq, hsq, hsmax⟩ := ring_granted sizeofWqe (maxSendWr + 1)
    obtain ⟨rq, hrq, hrmax⟩ := ring_granted sizeofWqe (maxRecvWr + 1)
    have hmade : qpRings grantingMem sizeofWqe true maxSendWr maxRecvWr plentyEnv.pd =
        some (sq, rq) := by
      rw [qpRings, if_neg (by decide), hsq, hrq]
      rfl
    obtain ⟨hs, hr⟩ := h _ _ _ _ _ hmade
    refine ⟨?_, ?_⟩
    · by_contra hn
      exact not_fits_zero (hsmax.trans (succ_large hn)) hs
    · by_contra hn
      exact not_fits_zero (hrmax.trans (succ_large hn)) hr
  · rintro ⟨hs, hr⟩ mem qpAlloc pd sq rq h
    obtain ⟨_, _, hsq, hrq⟩ := qpRings_some h
    exact ⟨ring_fits (succ_small hs).1 (succ_small hs).2 hsq,
      ring_fits (succ_small hr).1 (succ_small hr).2 hrq⟩

/-- Every creation that succeeds makes rings of a usable size exactly for requests below `2^31`. -/
theorem createdRings_fit_iff (sizeofCqe sizeofWqe : Nat) (cqe maxSendWr maxRecvWr : UInt32) :
    ((∀ mem ring, cqRing mem sizeofCqe cqe = some ring → RingFits sizeofCqe ring) ↔
      cqe.toNat < 2 ^ 31) ∧
    ((∀ mem qpAlloc pd sq rq,
        qpRings mem sizeofWqe qpAlloc maxSendWr maxRecvWr pd = some (sq, rq) →
          RingFits sizeofWqe sq ∧ RingFits sizeofWqe rq) ↔
      maxSendWr.toNat < 2 ^ 31 ∧ maxRecvWr.toNat < 2 ^ 31) :=
  ⟨cqRing_fits_iff sizeofCqe cqe, qpRings_fits_iff sizeofWqe maxSendWr maxRecvWr⟩

/-- A queue of `2^31` entries gets a size and a buffer of none. -/
theorem hugeCq_empty :
    cqRing grantingMem 24 0x80000000 = some ⟨0, 0⟩ ∧ ¬ RingFits 24 ⟨0, 0⟩ ∧
      nextIndex 0 0 = 1 := by
  have hsize : grantingMem.size (0x80000000 + 1) = 0 := succ_large (by decide)
  refine ⟨?_, not_fits_zero rfl, by decide⟩
  simp only [cqRing, CreateMem.ring, hsize]
  rfl

end DisKverbs
