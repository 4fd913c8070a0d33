import DisKverbs.Completion
import DisKverbs.PostOne
import Mathlib.Data.Nat.Size

namespace DisKverbs

open CircBuf

/-- `fls_long`: the position of the highest set bit, counted from 1. -/
def flsLong (n : Nat) : Nat := n.size

def roundupPowOfTwo (n : Nat) : Nat := 1 <<< flsLong (n - 1)

/-- The ring size a creation stores: the argument and the result have 32 bits. -/
def ringMax (n : UInt32) : Nat := (UInt32.ofNat (roundupPowOfTwo n.toNat)).toNat

def zeroCq : DisCq := ⟨0, 0, fun _ => default, 0, 0⟩

def zeroWq : DisWq := ⟨0, 0, fun _ => default, 0, 0, 0, .empty, .uninitialized⟩

def disCreateCq (kzalloc : Bool) (cqe : UInt32) (cq : DisCq) : Int × DisCq :=
  let cq := { cq with cqeMax := ringMax (cqe + 1), cqe := ringMax (cqe + 1) }
  if !kzalloc then (-42, cq)
  else (0, { cq with buf := fun _ => default })

structure DisQp where
  sq : DisWq
  rq : DisWq

structure QpAllocs where
  qp : Bool
  sqBuf : Bool
  rqBuf : Bool

/-- `qp` names the new structure; its two queues live inside it. -/
def disCreateQp (allocs : QpAllocs) (qp : Nat) (maxSendWr maxRecvWr : UInt32) (pd : DisPd) :
    Option DisQp × DisPd :=
  if disQpMax ≤ pd.qpC then (none, pd)
  else if !allocs.qp then (none, pd)
  else if !allocs.sqBuf then (none, pd)
  else if !allocs.rqBuf then (none, pd)
  else
    (some {
      sq := { zeroWq with ibqp := qp, sciMsq := 2 * qp, wqeMax := ringMax (maxSendWr + 1) }
      rq := { zeroWq with ibqp := qp, sciMsq := 2 * qp + 1, wqeMax := ringMax (maxRecvWr + 1) } },
      { pd with qpList := Function.update pd.qpList pd.qpC (some qp), qpC := pd.qpC + 1 })

/-- The one creation that rounds up the requested number itself. -/
def disCreateSrq (kzalloc : Bool) (maxWr : UInt32) (rq : DisWq) : Int × DisWq :=
  let rq := { rq with wqeMax := ringMax maxWr }
  if !kzalloc then (-42, rq)
  else (0, { rq with buf := fun _ => default })

inductive QueueKind
  | cq
  | sq
  | rq
  | srq
  deriving DecidableEq

/-- What a creation depends on besides the requested number of entries. -/
structure CreateEnv where
  kzalloc : Bool
  allocs : QpAllocs
  qp : Nat
  pd : DisPd
  otherWr : UInt32

/-- Head, tail and size of the ring that a successful creation leaves behind. -/
def createQueue (env : CreateEnv) (n : UInt32) : QueueKind → Option (Nat × Nat × Nat)
  | .cq =>
    let (ret, cq) := disCreateCq env.kzalloc n zeroCq
    if ret = 0 then some (cq.head, cq.tail, cq.cqeMax) else none
  | .sq =>
    (disCreateQp env.allocs env.qp n env.otherWr env.pd).1.map fun qp =>
      (qp.sq.head, qp.sq.tail, qp.sq.wqeMax)
  | .rq =>
    (disCreateQp env.allocs env.qp env.otherWr n env.pd).1.map fun qp =>
      (qp.rq.head, qp.rq.tail, qp.rq.wqeMax)
  | .srq =>
    let (ret, rq) := disCreateSrq env.kzalloc n zeroWq
    if ret = 0 then some (rq.head, rq.tail, rq.wqeMax) else none

/-- The producer's test lets `n` entries in a row pass. -/
def RoomFor (head tail size n : Nat) : Prop :=
  ∀ i < n, ¬ circSpace ((circNext · size)^[i] head) tail size < 1

theorem iterate_circNext (r : RingSize) (i : Nat) :
    (circNext · r.size)^[i] 0 = i % r.size := by
  induction i with
  | zero => simp
  | succ i ih => rw [Function.iterate_succ_apply', ih, circNext_mod]

/-- An empty ring takes one entry less than it has slots. -/
theorem roomFor_iff (r : RingSize) (n : Nat) : RoomFor 0 0 r.size n ↔ n < r.size := by
  have space : ∀ i < r.size, circSpace (i % r.size) 0 r.size = r.size - (i + 1) := by
    intro i hi
    simpa using circSpace_mod r (Nat.zero_le i) (by omega)
  have hpos := r.size_pos
  constructor
  · intro h
    by_contra hle
    have := h (r.size - 1) (by omega)
    rw [iterate_circNext, space _ (by omega)] at this
    omega
  · intro hlt i hi
    rw [iterate_circNext, space i (by omega)]
    omega

theorem roundupPowOfTwo_eq (n : Nat) : roundupPowOfTwo n = 2 ^ (n - 1).size := by
  rw [roundupPowOfTwo, Nat.one_shiftLeft]
  rfl

theorem le_roundupPowOfTwo (n : Nat) : n ≤ roundupPowOfTwo n := by
  have := Nat.lt_size_self (n - 1)
  rw [roundupPowOfTwo_eq]
  omega

theorem lt_roundupPowOfTwo_iff {n : Nat} (hn : 0 < n) :
    n < roundupPowOfTwo n ↔ ¬ ∃ k, n = 2 ^ k := by
  constructor
  · rintro hlt ⟨k, rfl⟩
    have hle : (2 ^ k - 1).size ≤ k := Nat.size_le.mpr (by omega)
    rw [roundupPowOfTwo_eq] at hlt
    have := Nat.pow_le_pow_right (show 0 < 2 by omega) hle
    omega
  · intro hne
    have hle := le_roundupPowOfTwo n
    refine lt_of_le_of_ne hle fun he => hne ⟨_, he.trans (roundupPowOfTwo_eq n)⟩

theorem ringMax_eq {n : UInt32} (hn : n.toNat ≤ 2 ^ 31) : ringMax n = 2 ^ (n.toNat - 1).size := by
  have hs : (n.toNat - 1).size ≤ 31 := Nat.size_le.mpr (by omega)
  have hp : 2 ^ (n.toNat - 1).size ≤ 2 ^ 31 := Nat.pow_le_pow_right (by omega) hs
  rw [ringMax, roundupPowOfTwo_eq, UInt32.toNat_ofNat_of_lt']
  exact lt_of_le_of_lt hp (by decide)

/-- A ring of rounded-up size has room for `n` entries iff rounding gave more than `n`. -/
theorem roomFor_ringMax {m : UInt32} (hm : m.toNat ≤ 2 ^ 31) {n : Nat} (hn : 1 ≤ n)
    (hle : n ≤ m.toNat) : RoomFor 0 0 (ringMax m) n ↔ n < roundupPowOfTwo m.toNat := by
  rw [ringMax_eq hm, roundupPowOfTwo_eq]
  have hs : (m.toNat - 1).size ≤ 31 := Nat.size_le.mpr (by omega)
  rcases Nat.eq_zero_or_pos (m.toNat - 1).size with hz | hpos
  · have : ¬ RoomFor 0 0 (2 ^ 0) n := fun h => by
      have := h 0 (by omega)
      simp [circSpace, circCnt] at this
    simp only [hz, this, false_iff]
    omega
  · exact roomFor_iff ⟨_, hpos, by omega⟩ n

theorem createQueue_ring {env : CreateEnv} {n : UInt32} {kind : QueueKind} {head tail size : Nat}
    (h : createQueue env n kind = some (head, tail, size)) :
    head = 0 ∧ tail = 0 ∧ size = ringMax (if kind = .srq then n else n + 1) := by
  cases kind with
  | cq =>
    simp only [createQueue, disCreateCq] at h
    split at h
    · cases h
    · obtain ⟨rfl, rfl, rfl⟩ := by simpa using h
      exact ⟨rfl, rfl, rfl⟩
  | sq =>
    simp only [createQueue, disCreateQp] at h
    repeat' split at h
    all_goals simp at h
    obtain ⟨rfl, rfl, rfl⟩ := h
    exact ⟨rfl, rfl, rfl⟩
  | rq =>
    simp only [createQueue, disCreateQp] at h
    repeat' split at h
    all_goals simp at h
    obtain ⟨rfl, rfl, rfl⟩ := h
    exact ⟨rfl, rfl, rfl⟩
  | srq =>
    simp only [createQueue, disCreateSrq] at h
    split at h
    · cases h
    · obtain ⟨rfl, rfl, rfl⟩ := by simpa using h
      exact ⟨rfl, rfl, rfl⟩

/-- A created queue takes the requested number of entries, except a shared receive
queue of a power of two. -/
theorem createQueue_room (env : CreateEnv) (n : UInt32) (kind : QueueKind)
    (head tail size : Nat) (hpos : 1 ≤ n.toNat) (hlt : n.toNat < 2 ^ 31)
    (h : createQueue env n kind = some (head, tail, size)) :
    RoomFor head tail size n.toNat ↔ kind ≠ .srq ∨ ¬ ∃ k, n.toNat = 2 ^ k := by
  obtain ⟨rfl, rfl, rfl⟩ := createQueue_ring h
  have hsucc : (n + 1).toNat = n.toNat + 1 := by
    rw [UInt32.toNat_add, UInt32.toNat_one]
    exact Nat.mod_eq_of_lt (by omega)
  by_cases hk : kind = .srq
  · simp only [hk, ne_eq, not_true_eq_false, false_or, if_true]
    rw [roomFor_ringMax (by omega) hpos le_rfl]
    exact lt_roundupPowOfTwo_iff (by omega)
  · simp only [hk, ne_eq, not_false_eq_true, true_or, iff_true, if_false]
    rw [roomFor_ringMax (by omega) hpos (by omega)]
    have := le_roundupPowOfTwo (n + 1).toNat
    omega

def plentyEnv : CreateEnv :=
  ⟨true, ⟨true, true, true⟩, 1, ⟨fun _ => none, fun _ => none, disQpIni, disMrIni⟩, 4⟩

theorem createQueue_room_cq :
    RoomFor 0 0 8 4 ↔ QueueKind.cq ≠ .srq ∨ ¬ ∃ k, (4 : UInt32).toNat = 2 ^ k :=
  createQueue_room plentyEnv 4 .cq 0 0 8 (by decide) (by decide) (by decide)

/-- The ring of a shared receive queue of four reports full after three entries. -/
theorem createSrq_short :
    createQueue plentyEnv 4 .srq = some (0, 0, 4) ∧
      circSpace ((circNext · 4)^[3] 0) 0 4 < 1 ∧ ¬ RoomFor 0 0 4 4 := by
  refine ⟨by decide, by decide, fun h => ?_⟩
  exact h 3 (by decide) (by decide)

end DisKverbs
