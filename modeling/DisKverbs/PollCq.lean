import DisKverbs.ByteMem
import DisKverbs.CqMoves
import DisKverbs.StepSystem
import Mathlib.Data.List.Nodup

namespace DisKverbs

open ByteMem CellProg CircBuf StepSystem

/-- The fields of `struct ib_wc`; `ex` is the union of `imm_data` and `invalidate_rkey`. -/
inductive IbWcField
  | wrId
  | status
  | opcode
  | vendorErr
  | byteLen
  | qp
  | ex
  | srcQp
  | slid
  | wcFlags
  | pkeyIndex
  | sl
  | dlidPathBits
  | portNum
  | smac
  | vlanId
  | networkHdrType
  deriving DecidableEq

/-- The caller's array, by entry and field; no field is longer than 64 bits. -/
abbrev IbWcArray := Nat × IbWcField → UInt64

/-- The enumerators of the RDMA core by number. -/
def IbWcStatus.code : IbWcStatus → UInt64
  | .success => 0
  | .respTimeoutErr => 20

def IbWcOpcode.code : IbWcOpcode → UInt64
  | .send => 0
  | .recv => 128

/-- The assignments of one round of `dis_poll_cq`. -/
def DisCqe.assigns (cqe : DisCqe) : List (IbWcField × UInt64) :=
  [(.wrId, cqe.wrId.toUInt64),
   (.status, cqe.status.code),
   (.opcode, cqe.opcode.code),
   (.byteLen, cqe.byteLen.toUInt32.toUInt64),
   (.qp, UInt64.ofNat cqe.ibqp)]

/-- The same fields of a completion, as the poller of the shared queue returns it. -/
def IbWc.fields (wc : IbWc) : List (IbWcField × UInt64) :=
  [(.wrId, wc.wrId),
   (.status, wc.status.code),
   (.opcode, wc.opcode.code),
   (.byteLen, wc.byteLen.toUInt64),
   (.qp, UInt64.ofNat wc.qp)]

def assignedFields : List IbWcField := [.wrId, .status, .opcode, .byteLen, .qp]

/-- The array after a round stored to the entry at `ibwc_iter`. -/
def setWc (ibwc : IbWcArray) (i : Nat) (cqe : DisCqe) : IbWcArray :=
  writeBytes ibwc (cqe.assigns.map fun a => (i, a.1)) (cqe.assigns.map Prod.snd)

structure PollReturn where
  wcCount : Nat
  tail : Nat
  ibwc : IbWcArray

/-- The loop of `dis_poll_cq` with so many rounds to go; `i` is the loop's index, `wc_count` and the
distance of `ibwc_iter` from `ibwc`. -/
def pollLoop (cq : DisCq) : Nat → Nat → Nat → IbWcArray → PollReturn
  | 0, i, tail, ibwc => ⟨i, tail, ibwc⟩
  | rounds + 1, i, tail, ibwc =>
    if circCnt cq.head tail cq.cqeMax < 1 then ⟨i, tail, ibwc⟩
    else pollLoop cq rounds (i + 1) (circNext tail cq.cqeMax) (setWc ibwc i (cq.buf tail))

/-- `dis_poll_cq` on the memory it is given. -/
def pollCq (cq : DisCq) (numWc : Int) (ibwc : IbWcArray) : PollReturn :=
  pollLoop cq numWc.toNat 0 cq.tail ibwc

/-- Two runs report the same number of entries, and the same entries in every field. -/
def SameReturned (cq : DisCq) (numWc : Int) (a b : IbWcArray) : Prop :=
  (pollCq cq numWc a).wcCount = (pollCq cq numWc b).wcCount ∧
    ∀ i < (pollCq cq numWc a).wcCount, ∀ f,
      (pollCq cq numWc a).ibwc (i, f) = (pollCq cq numWc b).ibwc (i, f)

/-- The tests of `dis_poll_cq` let it come to entry `i`. -/
def ReportsEntry (cq : DisCq) (numWc : Int) (i : Nat) : Prop :=
  (i : Int) < numWc ∧
    ∀ j ≤ i, ¬ circCnt cq.head ((circNext · cq.cqeMax)^[j] cq.tail) cq.cqeMax < 1

/-- The entries that so many rounds copy, in order. -/
def pollEntries (cq : DisCq) : Nat → Nat → List DisCqe
  | 0, _ => []
  | rounds + 1, tail =>
    if circCnt cq.head tail cq.cqeMax < 1 then []
    else cq.buf tail :: pollEntries cq rounds (circNext tail cq.cqeMax)

section

variable {cq : DisCq} {rounds i k : Nat} {tail : Nat} {a b ibwc : IbWcArray} {cqe : DisCqe}
  {f : IbWcField}

theorem assigns_fields (cqe : DisCqe) : cqe.assigns.map Prod.fst = assignedFields := rfl

theorem assigns_wc : cqe.assigns = cqe.wc.fields := rfl

theorem setWc_agree : setWc a i cqe (k, f) = setWc b i cqe (k, f) ↔
    (k = i ∧ f ∈ assignedFields) ∨ a (k, f) = b (k, f) := by
  have hmem : (k, f) ∈ cqe.assigns.map (fun a => (i, a.1)) ↔ k = i ∧ f ∈ assignedFields := by
    rw [← assigns_fields cqe]
    simp only [List.mem_map, Prod.mk.injEq]
    constructor
    · intro h
      obtain ⟨a, ha, rfl, rfl⟩ := h
      exact ⟨rfl, a, ha, rfl⟩
    · intro h
      obtain ⟨rfl, a, ha, rfl⟩ := h
      exact ⟨a, ha, rfl, rfl⟩
  rw [setWc, setWc, writeBytes_agree (by simp), hmem]

section

variable (hempty : circCnt cq.head tail cq.cqeMax < 1)

include hempty

theorem pollLoop_empty : pollLoop cq (rounds + 1) i tail ibwc = ⟨i, tail, ibwc⟩ := if_pos hempty

theorem pollEntries_empty : pollEntries cq (rounds + 1) tail = [] := if_pos hempty

end

section

variable (hfull : ¬ circCnt cq.head tail cq.cqeMax < 1)

include hfull

theorem pollLoop_full : pollLoop cq (rounds + 1) i tail ibwc =
    pollLoop cq rounds (i + 1) (circNext tail cq.cqeMax) (setWc ibwc i (cq.buf tail)) :=
  if_neg hfull

theorem pollEntries_full : pollEntries cq (rounds + 1) tail =
    cq.buf tail :: pollEntries cq rounds (circNext tail cq.cqeMax) := if_neg hfull

end

theorem pollLoop_wcCount :
    (pollLoop cq rounds i tail ibwc).wcCount = i + (pollEntries cq rounds tail).length := by
  induction rounds generalizing i tail ibwc with
  | zero => rfl
  | succ rounds ih =>
    by_cases hempty : circCnt cq.head tail cq.cqeMax < 1
    · rw [pollLoop_empty hempty, pollEntries_empty hempty]
      rfl
    · rw [pollLoop_full hempty, pollEntries_full hempty, ih, List.length_cons]
      omega

/-- An entry that a run reports depends on the memory in the fields that are not assigned. -/
theorem pollLoop_agree :
    (pollLoop cq rounds i tail a).ibwc (k, f) = (pollLoop cq rounds i tail b).ibwc (k, f) ↔
      (i ≤ k ∧ k < i + (pollEntries cq rounds tail).length ∧ f ∈ assignedFields) ∨
        a (k, f) = b (k, f) := by
  have none_left : ∀ i, ¬ (i ≤ k ∧ k < i + 0 ∧ f ∈ assignedFields) := by omega
  induction rounds generalizing i tail a b with
  | zero => exact (or_iff_right (none_left i)).symm
  | succ rounds ih =>
    by_cases hempty : circCnt cq.head tail cq.cqeMax < 1
    · rw [pollLoop_empty hempty, pollLoop_empty hempty, pollEntries_empty hempty]
      exact (or_iff_right (none_left i)).symm
    · rw [pollLoop_full hempty, pollLoop_full hempty, pollEntries_full hempty, List.length_cons]
      refine ih.trans ?_
      rw [setWc_agree, ← or_assoc]
      refine or_congr_left ?_
      constructor
      · intro h
        rcases h with ⟨hle, hlt, hf⟩ | ⟨rfl, hf⟩
        · exact ⟨by omega, by omega, hf⟩
        · exact ⟨le_rfl, by omega, hf⟩
      · intro h
        obtain ⟨hle, hlt, hf⟩ := h
        by_cases he : k = i
        · exact .inr ⟨he, hf⟩
        · exact .inl ⟨by omega, by omega, hf⟩

theorem lt_pollEntries : i < (pollEntries cq rounds tail).length ↔
    i < rounds ∧ ∀ j ≤ i, ¬ circCnt cq.head ((circNext · cq.cqeMax)^[j] tail) cq.cqeMax < 1 := by
  induction rounds generalizing i tail with
  | zero => simp [pollEntries]
  | succ rounds ih =>
    by_cases hempty : circCnt cq.head tail cq.cqeMax < 1
    · rw [pollEntries_empty hempty]
      refine iff_of_false (by simp) fun h => ?_
      exact h.2 0 (Nat.zero_le i) hempty
    · rw [pollEntries_full hempty, List.length_cons]
      cases i with
      | zero =>
        refine iff_of_true (Nat.succ_pos _) ⟨Nat.succ_pos rounds, fun j hj => ?_⟩
        rw [Nat.le_zero.mp hj]
        exact hempty
      | succ i =>
        rw [Nat.succ_lt_succ_iff, ih, Nat.succ_lt_succ_iff]
        refine and_congr_right fun _ => ⟨fun h j hj => ?_, fun h j hj => ?_⟩
        · cases j with
          | zero => exact hempty
          | succ j =>
            rw [Function.iterate_succ_apply]
            exact h j (by omega)
        · have hnext := h (j + 1) (by omega)
          rw [Function.iterate_succ_apply] at hnext
          exact hnext

end

theorem reportsEntry_iff {cq : DisCq} {numWc : Int} {i : Nat} :
    ReportsEntry cq numWc i ↔ i < (pollEntries cq numWc.toNat cq.tail).length := by
  rw [lt_pollEntries, ReportsEntry]
  exact and_congr_left fun _ => by omega

/-- What the caller reads in the entries it is told of is the same for two contents of its memory
exactly when these agree, at those entries, in the twelve fields that nobody assigns. -/
theorem sameReturned_iff (cq : DisCq) (numWc : Int) (a b : IbWcArray) :
    SameReturned cq numWc a b ↔
      ∀ i, ReportsEntry cq numWc i → ∀ f, f ∉ assignedFields → a (i, f) = b (i, f) := by
  have hcount : ∀ ibwc, (pollCq cq numWc ibwc).wcCount =
      (pollEntries cq numWc.toNat cq.tail).length := by
    intro ibwc
    rw [pollCq, pollLoop_wcCount, Nat.zero_add]
  rw [SameReturned, hcount, hcount]
  constructor
  · intro h i hi f hf
    obtain ⟨_, hsame⟩ := h
    rcases pollLoop_agree.mp (hsame i (reportsEntry_iff.mp hi) f) with ⟨_, _, hassigned⟩ | hab
    · exact absurd hassigned hf
    · exact hab
  · refine fun h => ⟨rfl, fun i hi f => pollLoop_agree.mpr ?_⟩
    by_cases hf : f ∈ assignedFields
    · exact .inl ⟨Nat.zero_le i, by omega, hf⟩
    · exact .inr (h i (reportsEntry_iff.mpr hi) f hf)

section

variable {cq : DisCq} {rounds i k : Nat} {tail : Nat} {ibwc : IbWcArray} {f : IbWcField}

theorem setWc_other {cqe : DisCqe} (h : k ≠ i) : setWc ibwc i cqe (k, f) = ibwc (k, f) :=
  writeBytes_other (by simp [Ne.symm h])

theorem setWc_told {cqe : DisCqe} {x : IbWcField × UInt64} (hx : x ∈ cqe.wc.fields) :
    setWc ibwc i cqe (i, x.1) = x.2 := by
  rw [← assigns_wc] at hx
  have hnodup : (cqe.assigns.map fun a => (i, a.1)).Nodup := by
    have hmap : (cqe.assigns.map fun a => (i, a.1)) = assignedFields.map fun f => (i, f) := by
      rw [← assigns_fields cqe, List.map_map]
      rfl
    rw [hmap]
    exact List.Nodup.map (fun _ _ h => (Prod.mk.inj h).2) (by decide)
  have hread : (cqe.assigns.map fun a => (i, a.1)).map (setWc ibwc i cqe) =
      cqe.assigns.map Prod.snd := map_writeBytes hnodup (by simp)
  rw [List.map_map] at hread
  exact List.map_inj_left.mp hread x hx

theorem pollLoop_other (h : k < i) :
    (pollLoop cq rounds i tail ibwc).ibwc (k, f) = ibwc (k, f) := by
  induction rounds generalizing i tail ibwc with
  | zero => rfl
  | succ rounds ih =>
    by_cases hempty : circCnt cq.head tail cq.cqeMax < 1
    · rw [pollLoop_empty hempty]
    · rw [pollLoop_full hempty]
      exact (ih (Nat.lt_succ_of_lt h)).trans (setWc_other h.ne)

/-- Each entry that is reported tells of an entry of the queue. -/
theorem pollLoop_told {cqe : DisCqe} (h : (pollEntries cq rounds tail)[k]? = some cqe)
    {x : IbWcField × UInt64} (hx : x ∈ cqe.wc.fields) :
    (pollLoop cq rounds i tail ibwc).ibwc (i + k, x.1) = x.2 := by
  induction rounds generalizing i k tail ibwc with
  | zero => simp [pollEntries] at h
  | succ rounds ih =>
    by_cases hempty : circCnt cq.head tail cq.cqeMax < 1
    · simp [pollEntries_empty hempty] at h
    · rw [pollLoop_full hempty]
      rw [pollEntries_full hempty] at h
      cases k with
      | zero =>
        cases Option.some.inj h
        exact (pollLoop_other (Nat.lt_succ_self i)).trans (setWc_told hx)
      | succ k =>
        rw [← Nat.add_assoc, Nat.add_right_comm]
        exact ih h

end

section

variable {ι : Type} [DecidableEq ι] {r : RingSize} {s : CqState ι} {numWc : Int} {got : List IbWc}
  {head pending : Nat}

theorem poller_peek (hp : s.poller = .loop numWc got) (hlt : (got.length : Int) < numWc) :
    cqStep r s .poller = some { s with
      poller := .gotHead numWc got s.head (s.inserted.length - s.taken) } := by
  show pollerStep r s = _
  rw [pollerStep, hp]
  exact if_pos hlt

theorem poller_finish (hp : s.poller = .loop numWc got) (hge : ¬ (got.length : Int) < numWc) :
    cqStep r s .poller =
      some { s with poller := .idle, polls := s.polls ++ [⟨numWc, got, none⟩] } := by
  show pollerStep r s = _
  rw [pollerStep, hp]
  exact if_neg hge

theorem poller_empty (hp : s.poller = .gotHead numWc got head pending)
    (hempty : circCnt head s.tail r.size < 1) : cqStep r s .poller =
      some { s with poller := .idle, polls := s.polls ++ [⟨numWc, got, some pending⟩] } := by
  show pollerStep r s = _
  rw [pollerStep, hp]
  exact if_pos hempty

theorem poller_full (hp : s.poller = .gotHead numWc got head pending)
    (hfull : ¬ circCnt head s.tail r.size < 1) :
    cqStep r s .poller = some { s with poller := .copy numWc got s.tail copyCqe } := by
  show pollerStep r s = _
  rw [pollerStep, hp]
  exact if_neg hfull

/-- A round: two accesses for the tests, five that copy the entry, and the store of tail. -/
theorem poller_round (hp : s.poller = .loop numWc got) (hlt : (got.length : Int) < numWc)
    (hfull : ¬ circCnt s.head s.tail r.size < 1) :
    runActs (cqStep r) s (List.replicate 8 .poller) = some { s with
      tail := circNext s.tail r.size
      poller := .loop numWc (got ++ [(s.slots s.tail).wc])
      taken := s.taken + 1 } := by
  have hpeek := poller_peek (r := r) hp hlt
  have htest := poller_full (r := r)
    (s := { s with poller := .gotHead numWc got s.head (s.inserted.length - s.taken) }) rfl hfull
  rw [List.replicate_succ, runActs_cons hpeek, List.replicate_succ, runActs_cons htest]
  rfl

/-- The poller of the queue that is shared returns what `dis_poll_cq` returns, when nobody else
takes a step. -/
theorem poller_runs {cq : DisCq} (rounds : Nat) (hp : s.poller = .loop numWc got)
    (hrounds : (numWc - got.length).toNat = rounds) (hhead : cq.head = s.head)
    (hbuf : cq.buf = s.slots) (hmax : cq.cqeMax = r.size) (ibwc : IbWcArray) :
    ∃ m t pending, runActs (cqStep r) s (List.replicate m .poller) = some t ∧ t.poller = .idle ∧
      t.tail = (pollLoop cq rounds got.length s.tail ibwc).tail ∧ t.polls = s.polls ++
        [⟨numWc, got ++ (pollEntries cq rounds s.tail).map DisCqe.wc, pending⟩] := by
  induction rounds generalizing s got ibwc with
  | zero =>
    have hge : ¬ (got.length : Int) < numWc := by omega
    refine ⟨1, _, none, runActs_cons (poller_finish hp hge), rfl, rfl, ?_⟩
    simp [pollEntries]
  | succ rounds ih =>
    have hlt : (got.length : Int) < numWc := by omega
    by_cases hempty : circCnt s.head s.tail r.size < 1
    · have htest : circCnt cq.head s.tail cq.cqeMax < 1 := by rwa [hhead, hmax]
      have hpeek := poller_peek (r := r) hp hlt
      have hend := poller_empty (r := r)
        (s := { s with poller := .gotHead numWc got s.head (s.inserted.length - s.taken) }) rfl
        hempty
      refine ⟨2, _, some (s.inserted.length - s.taken),
        (runActs_cons hpeek).trans (runActs_cons hend), rfl, ?_, ?_⟩
      · rw [pollLoop_empty htest]
      · rw [pollEntries_empty htest, List.map_nil, List.append_nil]
    · have htest : ¬ circCnt cq.head s.tail cq.cqeMax < 1 := by rwa [hhead, hmax]
      have hround := poller_round hp hlt hempty
      obtain ⟨m, t, pending, hrun, hidle, htail, hpolls⟩ :=
        ih (s := { s with
          tail := circNext s.tail r.size
          poller := .loop numWc (got ++ [(s.slots s.tail).wc])
          taken := s.taken + 1 }) rfl (by rw [List.length_append, List.length_singleton]; omega)
          hhead hbuf (setWc ibwc got.length (cq.buf s.tail))
      refine ⟨8 + m, t, pending, ?_, hidle, ?_, ?_⟩
      · rw [← List.replicate_append_replicate, runActs_append hround]
        exact hrun
      · rw [pollLoop_full htest, htail, hmax, List.length_append]
        rfl
      · rw [pollEntries_full htest, hpolls, hmax, hbuf]
        simp

/-- The queue that a caller of `dis_poll_cq` finds. -/
def CqState.disCq (r : RingSize) (s : CqState ι) : DisCq :=
  ⟨s.head, s.tail, s.slots, r.size, r.size⟩

theorem pollCq_poller (hidle : s.poller = .idle) (numWc : Int) (ibwc : IbWcArray) :
    ∃ m t wcs pending, runActs (cqStep r) s (.poll numWc :: List.replicate m .poller) = some t ∧
      t.poller = .idle ∧ t.polls = s.polls ++ [⟨numWc, wcs, pending⟩] ∧
      t.tail = (pollCq (s.disCq r) numWc ibwc).tail ∧
      wcs.length = (pollCq (s.disCq r) numWc ibwc).wcCount ∧
      ∀ i wc, wcs[i]? = some wc →
        ∀ x ∈ wc.fields, (pollCq (s.disCq r) numWc ibwc).ibwc (i, x.1) = x.2 := by
  have hpoll : cqStep r s (.poll numWc) = some { s with poller := .loop numWc [] } := by
    simp only [cqStep, hidle]
  have hrounds : (numWc - ([] : List IbWc).length).toNat = numWc.toNat := by simp
  have hcq : (s.disCq r).buf = s.slots := rfl
  obtain ⟨m, t, pending, hrun, ht, htail, hpolls⟩ := poller_runs
    (s := { s with poller := .loop numWc [] }) numWc.toNat rfl hrounds rfl hcq rfl ibwc
  refine ⟨m, t, _, pending, (runActs_cons hpoll).trans hrun, ht, hpolls, htail, ?_, ?_⟩
  · rw [pollCq, pollLoop_wcCount, List.nil_append, List.length_map, Nat.zero_add]
    rfl
  · intro i wc hwc x hx
    rw [List.nil_append, List.getElem?_map] at hwc
    obtain ⟨cqe, hcqe, rfl⟩ := Option.map_eq_some_iff.mp hwc
    rw [pollCq, ← Nat.zero_add i]
    exact pollLoop_told hcqe hx

end

/-- A queue of two slots with one completion. -/
def oneCqeCq : DisCq := ⟨1, 0, fun _ => ⟨1, 7, .success, 4, .send⟩, 2, 2⟩

/-- Memory that held something where `wc_flags` comes to lie. -/
def flaggedArray : IbWcArray := fun p => if p.2 = .wcFlags then 1 else 0

theorem wcFlags_shown : (pollCq oneCqeCq 1 flaggedArray).wcCount = 1 ∧
    (pollCq oneCqeCq 1 flaggedArray).ibwc (0, .wcFlags) = 1 ∧
    (pollCq oneCqeCq 1 fun _ => 0).ibwc (0, .wcFlags) = 0 ∧
    ¬ SameReturned oneCqeCq 1 flaggedArray fun _ => 0 := by
  refine ⟨by decide, by decide, by decide, fun h => ?_⟩
  have hflags := h.2 0 (by decide) .wcFlags
  revert hflags
  decide

end DisKverbs
