import DisKverbs.Srq

namespace DisKverbs

open CircBuf

/-- The ring takes every number of entries up to the reported one. -/
def Honest (head tail size : Nat) (reported : Int) : Prop :=
  ∀ k : Nat, (k : Int) ≤ reported → RoomFor head tail size k

/-- `ibcq->cqe`, an `int`. -/
def ibCqe (cq : DisCq) : Int32 := (UInt32.ofNat cq.cqe).toInt32

section

variable {n : UInt32} {j : Nat}

/-- A ring takes fewer entries than it has slots, a single slot none. -/
theorem roomFor_pow (hj : j < 64) (k : Nat) : RoomFor 0 0 (2 ^ j) k ↔ k < 2 ^ j := by
  cases j with
  | zero =>
    constructor
    · intro h
      by_contra hk
      have hfirst := h 0 (by omega)
      simp [circSpace, circCnt] at hfirst
    · intro hk i hi
      omega
  | succ j => exact roomFor_iff ⟨j + 1, by omega, hj⟩ k

theorem not_honest (hj : j < 64) : ¬ Honest 0 0 (2 ^ j) (2 ^ j : Nat) := by
  intro h
  have hroom := h (2 ^ j) le_rfl
  rw [roomFor_pow hj] at hroom
  omega

theorem ofNat_pow (hj : j ≤ 31) : (UInt32.ofNat (2 ^ j)).toNat = 2 ^ j := by
  have hle : 2 ^ j ≤ 2 ^ 31 := Nat.pow_le_pow_right (by omega) hj
  exact UInt32.toNat_ofNat_of_lt' (lt_of_le_of_lt hle (by decide))

/-- Below `2^31` a size is a positive `int`, and `2^31` is a negative one. -/
theorem reported_toInt (hj : j ≤ 31) : (UInt32.ofNat (2 ^ j)).toInt32.toInt =
    if j = 31 then -2 ^ 31 else ((2 ^ j : Nat) : Int) := by
  have hn := ofNat_pow hj
  show (UInt32.ofNat (2 ^ j)).toBitVec.toInt = _
  rw [BitVec.toInt_eq_toNat_cond, UInt32.toNat_toBitVec, hn]
  by_cases he : j = 31
  · subst he
    decide
  · have hle : 2 ^ j ≤ 2 ^ 30 := Nat.pow_le_pow_right (by omega) (by omega)
    rw [if_pos (by omega), if_neg he]

theorem honest_int_iff (hj : j ≤ 31) :
    Honest 0 0 (2 ^ j) (UInt32.ofNat (2 ^ j)).toInt32.toInt ↔ j = 31 := by
  rw [reported_toInt hj]
  by_cases he : j = 31
  · rw [if_pos he]
    refine iff_of_true (fun k hk => ?_) he
    omega
  · rw [if_neg he]
    exact iff_of_false (not_honest (by omega)) he

theorem createCq_honest_iff (hlt : n.toNat < 2 ^ 31) {kzalloc : Bool} {cq : DisCq}
    (h : disCreateCq kzalloc n zeroCq = (0, cq)) :
    Honest cq.head cq.tail cq.cqeMax (ibCqe cq).toInt ↔ 2 ^ 30 ≤ n.toNat := by
  simp only [disCreateCq] at h
  split at h
  next => simp at h
  next =>
    obtain ⟨_, rfl⟩ := Prod.mk.inj h
    have hsucc : (n + 1).toNat = n.toNat + 1 := by
      rw [UInt32.toNat_add, UInt32.toNat_one]
      exact Nat.mod_eq_of_lt (by omega)
    have hmax : ringMax (n + 1) = 2 ^ n.toNat.size := by
      rw [ringMax_eq (succ_small hlt).2, hsucc, Nat.add_sub_cancel]
    have hsize : n.toNat.size ≤ 31 := Nat.size_le.mpr hlt
    show Honest 0 0 (ringMax (n + 1)) (UInt32.ofNat (ringMax (n + 1))).toInt32.toInt ↔ _
    rw [hmax, honest_int_iff hsize]
    have hge : 30 < n.toNat.size ↔ 2 ^ 30 ≤ n.toNat := Nat.lt_size
    omega

theorem createSrq_not_honest (hpos : 1 ≤ n.toNat) (hlt : n.toNat < 2 ^ 31) {mem : CreateMem}
    {sizeofWqe : Nat} {srqType : IbSrqType} {maxSge srqLimit : UInt32} {srq : DisSrq}
    (h : createSrq mem sizeofWqe srqType ⟨n, maxSge, srqLimit⟩ zeroSrq = (0, srq)) :
    ¬ Honest srq.rq.head srq.rq.tail srq.rq.wqeMax (disQuerySrq srq).maxWr.toNat := by
  have hn : n ≠ 0 := by
    rintro rfl
    simp at hpos
  have hsize : (n.toNat - 1).size ≤ 31 := Nat.size_le.mpr (by omega)
  have hmax : srq.rq.wqeMax = 2 ^ (n.toNat - 1).size := by
    rw [createSrq_rq h]
    show (mem.size n).toNat = _
    rw [size_eq hn, ringMax_eq (by omega)]
  have hreported : (disQuerySrq srq).maxWr.toNat = 2 ^ (n.toNat - 1).size := by
    show (UInt32.ofNat srq.rq.wqeMax).toNat = _
    rw [hmax, ofNat_pow hsize]
  have hindices : srq.rq.head = 0 ∧ srq.rq.tail = 0 := by
    rw [createSrq_rq h]
    exact ⟨rfl, rfl⟩
  rw [hindices.1, hindices.2, hmax, hreported]
  exact not_honest (by omega)

end

/-- Both queues report their number of slots, one of which always stays empty. -/
theorem reportedCapacity_iff (n : UInt32) (hpos : 1 ≤ n.toNat) (hlt : n.toNat < 2 ^ 31) :
    (∀ kzalloc cq, disCreateCq kzalloc n zeroCq = (0, cq) →
      (Honest cq.head cq.tail cq.cqeMax (ibCqe cq).toInt ↔ 2 ^ 30 ≤ n.toNat)) ∧
    ∀ mem sizeofWqe srqType maxSge srqLimit srq,
      createSrq mem sizeofWqe srqType ⟨n, maxSge, srqLimit⟩ zeroSrq = (0, srq) →
        ¬ Honest srq.rq.head srq.rq.tail srq.rq.wqeMax (disQuerySrq srq).maxWr.toNat :=
  ⟨fun _ _ h => createCq_honest_iff hlt h, fun _ _ _ _ _ _ h => createSrq_not_honest hpos hlt h⟩

def fourCq : DisCq := (disCreateCq true 4 zeroCq).2

theorem reportedCapacity_four :
    (Honest fourCq.head fourCq.tail fourCq.cqeMax (ibCqe fourCq).toInt ↔
        2 ^ 30 ≤ (4 : UInt32).toNat) ∧
      ¬ Honest fourSrq.rq.head fourSrq.rq.tail fourSrq.rq.wqeMax
        (disQuerySrq fourSrq).maxWr.toNat := by
  obtain ⟨hcq, hsrq⟩ := reportedCapacity_iff 4 (by decide) (by decide)
  exact ⟨hcq true fourCq rfl, hsrq grantingMem 256 .basic 1 0 fourSrq rfl⟩

/-- A completion queue of four reports eight entries and takes seven. -/
theorem fourCq_overstated :
    disCreateCq true 4 zeroCq = (0, fourCq) ∧ (ibCqe fourCq).toInt = 8 ∧
      circSpace ((circNext · fourCq.cqeMax)^[7] fourCq.head) fourCq.tail fourCq.cqeMax < 1 ∧
      ¬ Honest fourCq.head fourCq.tail fourCq.cqeMax (ibCqe fourCq).toInt := by
  refine ⟨rfl, by decide, by decide, fun h => ?_⟩
  have hroom := h 8 (by decide)
  exact hroom 7 (by decide) (by decide)

end DisKverbs
