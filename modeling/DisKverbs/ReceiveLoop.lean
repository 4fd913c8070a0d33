import DisKverbs.ByteMem
import DisKverbs.WorkQueue
import DisKverbs.StepSystem

namespace DisKverbs

open ByteMem StepSystem

/-- A call of `SCILReceiveVMsg`: the length asked for and the bytes delivered, `none` for an
error. -/
structure ReceiveCall where
  request : UInt32
  outcome : Option (List UInt8)

/-- What `dis_wq_consume_one_rqe` returns and leaves behind, with its receive calls and the
CQE insertions it attempts. -/
structure Receive where
  status : IbWcStatus
  wqe : DisWqe
  mem : UInt64 → UInt8
  calls : List ReceiveCall
  cqes : List (DisWqe × IbWcStatus)

def Receive.after (call : ReceiveCall) (r : Receive) : Receive := { r with calls := call :: r.calls }

/-- A success fills the list from its start and sets `byte_len` to the number of bytes. -/
def disSciIfReceiveVMsg (outcome : Option (List UInt8)) (wqe : DisWqe) (mem : UInt64 → UInt8) :
    Int × DisWqe × (UInt64 → UInt8) :=
  match outcome with
  | none => (-42, wqe, mem)
  | some bytes =>
    (0, { wqe with byteLen := UInt32.ofNat bytes.length }, writeBytes mem wqe.msgBytes bytes)

/-- The loop of `dis_wq_consume_one_rqe`, given the outcomes of the calls it can make before
it sees a stop. -/
def receiveLoop (bytesTotal : Int32) : List (Option (List UInt8)) → Int32 → DisWqe →
    (UInt64 → UInt8) → Receive
  | [], _, wqe, mem => ⟨.respTimeoutErr, wqe, mem, [], [(wqe, .respTimeoutErr)]⟩
  | outcome :: rest, bytesLeft, wqe, mem =>
    let call := ⟨wqe.byteLen, outcome⟩
    let (ret, wqe, mem) := disSciIfReceiveVMsg outcome wqe mem
    if ret = 0 then
      -- the difference of an `int` and a `u32` is unsigned
      let bytesLeft := (bytesLeft.toUInt32 - wqe.byteLen).toInt32
      if bytesLeft = 0 then
        let wqe := { wqe with byteLen := bytesTotal.toUInt32 }
        ⟨.success, wqe, mem, [call], [(wqe, .success)]⟩
      else
        (receiveLoop bytesTotal rest bytesLeft
          { wqe with byteLen := bytesLeft.toUInt32 } mem).after call
    else
      (receiveLoop bytesTotal rest bytesLeft
        { wqe with byteLen := bytesLeft.toUInt32 } mem).after call

def disWqConsumeOneRqe (outcomes : List (Option (List UInt8))) (wqe : DisWqe)
    (mem : UInt64 → UInt8) : Receive :=
  receiveLoop wqe.byteLen.toInt32 outcomes wqe.byteLen.toInt32 wqe mem

/-- A receive delivers no more bytes than it asks for. -/
def Receive.Within (r : Receive) : Prop :=
  ∀ c ∈ r.calls, ∀ bytes, c.outcome = some bytes → bytes.length ≤ c.request.toNat

/-- The bytes that a sequence of calls delivers. -/
def deliveredBytes (outcomes : List (Option (List UInt8))) : Nat :=
  (outcomes.map fun o => (o.getD []).length).sum

/-- Some success brings the delivered bytes to `n`. -/
def Completes (n : Nat) (outcomes : List (Option (List UInt8))) : Prop :=
  ∃ k bytes, outcomes[k]? = some (some bytes) ∧ deliveredBytes (outcomes.take (k + 1)) = n

/-- The account of a receive into `wqe` whose completion is to report `total` bytes. -/
structure Accounts (wqe : DisWqe) (total : UInt32) (outcomes : List (Option (List UInt8)))
    (r : Receive) : Prop where
  inOrder : r.calls.map (·.outcome) = outcomes.take r.calls.length
  requests : ∀ (k : Nat) (c : ReceiveCall), r.calls[k]? = some c →
    c.request.toNat + deliveredBytes (outcomes.take k) = wqe.byteLen.toNat
  success : r.status = .success ↔ Completes wqe.byteLen.toNat outcomes
  timeout : r.status ≠ .success → r.status = .respTimeoutErr ∧ r.calls.length = outcomes.length
  once : ∃ w, r.cqes = [(w, r.status)] ∧ w = { wqe with byteLen := w.byteLen } ∧
    (r.status = .success → w.byteLen = total)

section

variable {wqe : DisWqe} {total left : UInt32} {outcomes : List (Option (List UInt8))}
  {outcome : Option (List UInt8)} {mem : UInt64 → UInt8} {n : Nat} {bytes : List UInt8}

theorem deliveredBytes_cons (outcome : Option (List UInt8)) (rest : List (Option (List UInt8))) :
    deliveredBytes (outcome :: rest) = (outcome.getD []).length + deliveredBytes rest := by
  simp [deliveredBytes]

theorem completes_cons : Completes n (outcome :: outcomes) ↔
    (∃ bytes, outcome = some bytes ∧ bytes.length = n) ∨
      ∃ m, (outcome.getD []).length + m = n ∧ Completes m outcomes := by
  constructor
  · rintro ⟨k, bytes, hk, hsum⟩
    rw [List.take_succ_cons, deliveredBytes_cons] at hsum
    cases k with
    | zero =>
      have ho : outcome = some bytes := Option.some.inj hk
      rw [List.take_zero, ho] at hsum
      exact .inl ⟨bytes, ho, hsum⟩
    | succ k => exact .inr ⟨_, hsum, k, bytes, hk, rfl⟩
  · rintro (⟨bytes, rfl, rfl⟩ | ⟨m, rfl, k, bytes, hk, rfl⟩)
    · exact ⟨0, bytes, rfl, by simp [deliveredBytes]⟩
    · refine ⟨k + 1, bytes, hk, ?_⟩
      rw [List.take_succ_cons, deliveredBytes_cons]

theorem byteLen_self (wqe : DisWqe) (h : wqe.byteLen = left) :
    ({ wqe with byteLen := left } : DisWqe) = wqe := by
  rw [← h]

/-- A failed call changes nothing. -/
theorem receiveLoop_failed (h : wqe.byteLen = left) :
    receiveLoop total.toInt32 (none :: outcomes) left.toInt32 wqe mem =
      (receiveLoop total.toInt32 outcomes left.toInt32 wqe mem).after ⟨wqe.byteLen, none⟩ := by
  have hwqe := byteLen_self wqe h
  simp only [receiveLoop, disSciIfReceiveVMsg, UInt32.toUInt32_toInt32, hwqe]
  rfl

/-- The call that brings the last bytes. -/
theorem receiveLoop_whole (h : left - UInt32.ofNat bytes.length = 0) :
    receiveLoop total.toInt32 (some bytes :: outcomes) left.toInt32 wqe mem =
      ⟨.success, { wqe with byteLen := total }, writeBytes mem wqe.msgBytes bytes,
        [⟨wqe.byteLen, some bytes⟩], [({ wqe with byteLen := total }, .success)]⟩ := by
  simp only [receiveLoop, disSciIfReceiveVMsg, UInt32.toUInt32_toInt32, h]
  rfl

theorem receiveLoop_part (h : left - UInt32.ofNat bytes.length ≠ 0) :
    receiveLoop total.toInt32 (some bytes :: outcomes) left.toInt32 wqe mem =
      (receiveLoop total.toInt32 outcomes (left - UInt32.ofNat bytes.length).toInt32
        { wqe with byteLen := left - UInt32.ofNat bytes.length }
        (writeBytes mem wqe.msgBytes bytes)).after ⟨wqe.byteLen, some bytes⟩ := by
  have hne : (left - UInt32.ofNat bytes.length).toInt32 ≠ 0 := by
    intro he
    apply h
    rw [← UInt32.toUInt32_toInt32 (left - UInt32.ofNat bytes.length), he]
    rfl
  simp only [receiveLoop, disSciIfReceiveVMsg, UInt32.toUInt32_toInt32, if_neg hne]
  rfl

theorem left_after (hb : bytes.length ≤ left.toNat) :
    (left - UInt32.ofNat bytes.length).toNat = left.toNat - bytes.length := by
  have hlt := left.toNat_lt
  have hn : (UInt32.ofNat bytes.length).toNat = bytes.length := by
    rw [UInt32.toNat_ofNat_of_lt']
    exact lt_of_le_of_lt hb hlt
  rw [UInt32.toNat_sub_of_le _ _ (UInt32.le_iff_toNat_le.mpr (by omega)), hn]

theorem Receive.Within.tail {r : Receive} {c : ReceiveCall} (h : (r.after c).Within) : r.Within :=
  fun c' hc' => h c' (List.mem_cons_of_mem _ hc')

theorem Accounts.after {r : Receive} {w : DisWqe} (ha : Accounts w total outcomes r)
    (hw : w = { wqe with byteLen := w.byteLen })
    (hlen : (outcome.getD []).length + w.byteLen.toNat = wqe.byteLen.toNat)
    (hmore : ∀ bytes, outcome = some bytes → w.byteLen.toNat ≠ 0) :
    Accounts wqe total (outcome :: outcomes) (r.after ⟨wqe.byteLen, outcome⟩) := by
  refine ⟨?_, ?_, ?_, ?_, ?_⟩
  · show outcome :: r.calls.map (·.outcome) = (outcome :: outcomes).take (r.calls.length + 1)
    rw [List.take_succ_cons, ha.inOrder]
  · intro k c hc
    cases k with
    | zero =>
      have he : ReceiveCall.mk wqe.byteLen outcome = c := Option.some.inj hc
      rw [← he]
      simp [deliveredBytes]
    | succ k =>
      have hrest := ha.requests k c hc
      rw [List.take_succ_cons, deliveredBytes_cons]
      omega
  · show r.status = .success ↔ _
    rw [ha.success, completes_cons]
    constructor
    · intro h
      exact .inr ⟨_, hlen, h⟩
    · rintro (⟨bytes, rfl, hb⟩ | ⟨m, hm, h⟩)
      · have hzero := hmore bytes rfl
        simp only [Option.getD_some] at hlen
        omega
      · have he : m = w.byteLen.toNat := by omega
        rwa [← he]
  · intro hs
    obtain ⟨hstatus, hcalls⟩ := ha.timeout hs
    refine ⟨hstatus, ?_⟩
    show r.calls.length + 1 = outcomes.length + 1
    omega
  · obtain ⟨v, hcqes, hv, hlen'⟩ := ha.once
    refine ⟨v, hcqes, ?_, hlen'⟩
    rw [hw] at hv
    exact hv

theorem receiveLoop_accounts (h : wqe.byteLen = left)
    (hw : (receiveLoop total.toInt32 outcomes left.toInt32 wqe mem).Within) :
    Accounts wqe total outcomes (receiveLoop total.toInt32 outcomes left.toInt32 wqe mem) := by
  induction outcomes generalizing left wqe mem with
  | nil =>
    refine ⟨rfl, by simp [receiveLoop], ?_, fun _ => ⟨rfl, rfl⟩, wqe, rfl, rfl, fun hs => by cases hs⟩
    constructor
    · intro hs
      cases hs
    · rintro ⟨k, bytes, hk, _⟩
      simp at hk
  | cons outcome rest ih =>
    cases outcome with
    | none =>
      rw [receiveLoop_failed h] at hw ⊢
      refine (ih h hw.tail).after rfl ?_ (fun _ hb => by cases hb)
      simp
    | some bytes =>
      by_cases hz : left - UInt32.ofNat bytes.length = 0
      · rw [receiveLoop_whole hz] at hw ⊢
        have hb : bytes.length ≤ left.toNat := h ▸ hw _ List.mem_cons_self bytes rfl
        have hleft := left_after hb
        rw [hz, UInt32.toNat_zero] at hleft
        have hall : bytes.length = wqe.byteLen.toNat := by
          rw [h]
          omega
        refine ⟨rfl, ?_, ?_, fun hs => absurd rfl hs, _, rfl, rfl, fun _ => rfl⟩
        · intro k c hc
          cases k with
          | zero =>
            have he : ReceiveCall.mk wqe.byteLen (some bytes) = c := Option.some.inj hc
            rw [← he]
            simp [deliveredBytes]
          | succ k => simp at hc
        · exact iff_of_true rfl (completes_cons.mpr (.inl ⟨bytes, rfl, hall⟩))
      · rw [receiveLoop_part hz] at hw ⊢
        have hb : bytes.length ≤ left.toNat := h ▸ hw _ List.mem_cons_self bytes rfl
        have hleft := left_after hb
        have hstart : ({ wqe with byteLen := left - UInt32.ofNat bytes.length } : DisWqe).byteLen =
          left - UInt32.ofNat bytes.length := rfl
        have hrest := ih hstart hw.tail
        refine hrest.after rfl ?_ ?_
        · simp only [Option.getD_some, hleft, h]
          omega
        · intro _ _ he
          exact hz (UInt32.toNat_inj.mp he)

end

/-- The worker's steps in one round of the loop. -/
def callActs (outcome : Option (List UInt8)) : List WqAct :=
  match outcome with
  | none => [.worker none, .worker none, .worker none]
  | some bytes =>
    [.worker none, .worker (some (UInt32.ofNat bytes.length)), .worker none, .worker none]

/-- A loop that does not succeed ends with a stop. -/
def endActs : IbWcStatus → List WqAct
  | .success => []
  | .respTimeoutErr => [.stop, .worker none]

section

variable {cfg : WqCfg} {s : WqState} {tail : Nat} {total left : UInt32} {bytes : List UInt8}

def WqState.hold (s : WqState) (tail : Nat) (wqe : DisWqe) (pc : WorkerPc) : WqState :=
  { s with slots := Function.update s.slots tail wqe, worker := pc }

theorem hold_slot (s : WqState) (tail : Nat) (wqe : DisWqe) (pc : WorkerPc) :
    (s.hold tail wqe pc).slots tail = wqe := Function.update_self ..

theorem worker_failed (hw : s.worker = .recvTop tail total left) (hs : s.shouldStop = false)
    (hl : (s.slots tail).byteLen = left) :
    runActs (wqStep cfg) s (callActs none) = some s := by
  have hslot : ({ s.slots tail with byteLen := left } : DisWqe) = s.slots tail :=
    byteLen_self _ hl
  obtain ⟨head, tl, slots, poster, worker, stop, fresh, rets, posted, retired, frees⟩ := s
  simp only at hw hs hslot
  subst hw hs
  simp [runActs, callActs, wqStep, workerStep, WqState.setByteLen, hslot]

theorem worker_got (hw : s.worker = .recvTop tail total left) (hs : s.shouldStop = false) :
    runActs (wqStep cfg) s (callActs (some bytes)) =
      some (if left - UInt32.ofNat bytes.length = 0 then
        s.hold tail { s.slots tail with byteLen := total } (.complete tail .success)
      else s.hold tail { s.slots tail with byteLen := left - UInt32.ofNat bytes.length }
        (.recvTop tail total (left - UInt32.ofNat bytes.length))) := by
  obtain ⟨head, tl, slots, poster, worker, stop, fresh, rets, posted, retired, frees⟩ := s
  simp only at hw hs
  subst hw hs
  by_cases hz : left - UInt32.ofNat bytes.length = 0 <;>
    simp [runActs, callActs, wqStep, workerStep, WqState.setByteLen, WqState.hold, hz]

/-- What the worker does with the slot in its hands up to the completion. -/
def ConsumesSlot (cfg : WqCfg) (s : WqState) (tail : Nat) (start : List WqAct) (r : Receive) :
    Prop :=
  ∃ t, runActs (wqStep cfg) s
      (start ++ (r.calls.flatMap fun c => callActs c.outcome) ++ endActs r.status) = some t ∧
    t.worker = .complete tail r.status ∧ t.slots = Function.update s.slots tail r.wqe

theorem ConsumesSlot.after {u : WqState} {r : Receive} {c : ReceiveCall}
    (h : ConsumesSlot cfg u tail [] r) (hu : runActs (wqStep cfg) s (callActs c.outcome) = some u)
    {wqe : DisWqe} (hslots : u.slots = Function.update s.slots tail wqe) :
    ConsumesSlot cfg s tail [] (r.after c) := by
  obtain ⟨t, hrun, hpc, hslot⟩ := h
  refine ⟨t, ?_, hpc, ?_⟩
  · show runActs (wqStep cfg) s (callActs c.outcome ++ (r.calls.flatMap fun c =>
      callActs c.outcome) ++ endActs r.status) = some t
    rw [List.append_assoc, runActs_append hu]
    exact hrun
  · rw [hslot, hslots, Function.update_idem]
    rfl

theorem worker_loops (hw : s.worker = .recvTop tail total left) (hs : s.shouldStop = false)
    (hl : (s.slots tail).byteLen = left) (outcomes : List (Option (List UInt8)))
    (mem : UInt64 → UInt8) : ConsumesSlot cfg s tail []
      (receiveLoop total.toInt32 outcomes left.toInt32 (s.slots tail) mem) := by
  induction outcomes generalizing s left mem with
  | nil =>
    refine ⟨{ s with shouldStop := true, worker := .complete tail .respTimeoutErr }, ?_, rfl, ?_⟩
    · simp [receiveLoop, runActs, endActs, wqStep, workerStep, hw]
    · exact (Function.update_eq_self tail s.slots).symm
  | cons outcome rest ih =>
    cases outcome with
    | none =>
      rw [receiveLoop_failed hl]
      exact (ih hw hs hl mem).after (worker_failed hw hs hl)
        (Function.update_eq_self tail s.slots).symm
    | some bytes =>
      have hgot := @worker_got cfg s tail total left bytes hw hs
      by_cases hz : left - UInt32.ofNat bytes.length = 0
      · rw [receiveLoop_whole hz]
        rw [if_pos hz] at hgot
        exact ⟨_, by simpa [endActs] using hgot, rfl, rfl⟩
      · rw [receiveLoop_part hz]
        rw [if_neg hz] at hgot
        have hnext := @ih (s.hold tail { s.slots tail with byteLen := left - UInt32.ofNat bytes.length }
          (.recvTop tail total (left - UInt32.ofNat bytes.length))) _ rfl hs (by rw [hold_slot])
          (writeBytes mem (s.slots tail).msgBytes bytes)
        rw [hold_slot] at hnext
        exact hnext.after hgot rfl

/-- The worker makes the calls of `dis_wq_consume_one_rqe`, one access at a time. -/
theorem worker_consumes (hw : s.worker = .recvTotal tail) (hs : s.shouldStop = false)
    (outcomes : List (Option (List UInt8))) (mem : UInt64 → UInt8) :
    ConsumesSlot cfg s tail [.worker none, .worker none]
      (disWqConsumeOneRqe outcomes (s.slots tail) mem) := by
  have hstart : runActs (wqStep cfg) s [.worker none, .worker none] =
      some { s with worker := .recvTop tail (s.slots tail).byteLen (s.slots tail).byteLen } := by
    simp [runActs, wqStep, workerStep, hw]
  have hloop := @worker_loops cfg { s with
    worker := .recvTop tail (s.slots tail).byteLen (s.slots tail).byteLen } tail _ _ rfl hs rfl
    outcomes mem
  obtain ⟨t, hrun, hpc, hslot⟩ := hloop
  refine ⟨t, ?_, hpc, hslot⟩
  rw [List.append_assoc, runActs_append hstart]
  exact hrun

end

theorem disWqConsumeOneRqe_accounts (outcomes : List (Option (List UInt8))) (wqe : DisWqe)
    (mem : UInt64 → UInt8) (hw : (disWqConsumeOneRqe outcomes wqe mem).Within) :
    Accounts wqe wqe.byteLen outcomes (disWqConsumeOneRqe outcomes wqe mem) :=
  receiveLoop_accounts rfl hw

/-- A receive of two bytes that arrive one by one, with a failed call between them. -/
def twoByteWqe : DisWqe := { (default : DisWqe) with byteLen := 2 }

theorem disWqConsumeOneRqe_accounts_twoByte :
    Accounts twoByteWqe 2 [some [1], none, some [2]]
      (disWqConsumeOneRqe [some [1], none, some [2]] twoByteWqe fun _ => 0) := by
  refine disWqConsumeOneRqe_accounts [some [1], none, some [2]] twoByteWqe (fun _ => 0) ?_
  intro c hc bytes hb
  have hcalls : (disWqConsumeOneRqe [some [1], none, some [2]] twoByteWqe fun _ => 0).calls =
      [⟨2, some [1]⟩, ⟨1, none⟩, ⟨1, some [2]⟩] := rfl
  rw [hcalls] at hc
  simp only [List.mem_cons, List.not_mem_nil, or_false] at hc
  rcases hc with rfl | rfl | rfl
  · cases Option.some.inj hb
    decide
  · cases hb
  · cases Option.some.inj hb
    decide

end DisKverbs
