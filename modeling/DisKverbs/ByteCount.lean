import DisKverbs.WholeMessages

namespace DisKverbs

open CellProg CircBuf RingMachine StepSystem

/-- What the transport has moved for the WQE in the worker's hands, one action later. -/
def movedBytes (s : WqState) (a : WqAct) (moved : Nat) : Nat :=
  match a with
  | .worker out =>
    match s.worker, out with
    | .sendCall tail, some _ => moved + (s.slots tail).byteLen.toNat
    | .recvCall _ _ _, some n => moved + n.toNat
    | .retire _ _, _ => 0
    | _, _ => moved
  | _ => moved

/-- A receive delivers no more bytes than it asks for. -/
def WithinRequest (s : WqState) : WqAct → Prop
  | .worker (some n) => ∀ tail total left, s.worker = .recvCall tail total left →
      n.toNat ≤ (s.slots tail).byteLen.toNat
  | _ => True

abbrev CountState := WqState × Nat

def countStep (cfg : WqCfg) : CountState → WqAct → Option CountState :=
  recording (wqStep cfg) movedBytes

def CountInit (p : CountState) : Prop := WqInit p.1 ∧ p.2 = 0

/-- The posted length of the oldest WQE. -/
def WqState.heldLen (s : WqState) : UInt32 :=
  ((s.posted[s.retired.length]?).map (·.wqe.byteLen)).getD 0

/-- How the bytes moved, the slot and the worker's variables make up the posted length. -/
def WorkerPc.Counts (slots : Nat → DisWqe) (len : UInt32) (moved : Nat) : WorkerPc → Prop
  | .idle | .top | .check | .gotHead _ | .exited => moved = 0
  | .sendTop tail | .sendCall tail | .recvTotal tail =>
    moved = 0 ∧ (slots tail).byteLen = len
  | .recvLeft tail total => moved = 0 ∧ (slots tail).byteLen = len ∧ total = len
  | .recvTop tail total left | .recvCall tail total left =>
    total = len ∧ (slots tail).byteLen = left ∧ moved + left.toNat = len.toNat
  | .recvGot tail total left => total = len ∧ (slots tail).byteLen.toNat ≤ left.toNat ∧
      moved + left.toNat = len.toNat + (slots tail).byteLen.toNat
  | .recvWhole _ total => total = len ∧ moved = len.toNat
  | .recvAgain _ total left => total = len ∧ moved + left.toNat = len.toNat
  | .complete tail status | .free tail status | .retire tail status =>
    status = .success → (slots tail).byteLen = len ∧ moved = len.toNat

def CountInv (p : CountState) : Prop := p.1.worker.Counts p.1.slots p.1.heldLen p.2

section

variable {cfg : WqCfg} {s t : WqState} {moved : Nat}

theorem counts_congr {pc : WorkerPc} {slots slots' : Nat → DisWqe} {len : UInt32}
    (h : pc.Counts slots len moved) (hs : ∀ tail, pc.holds = some tail → slots' tail = slots tail) :
    pc.Counts slots' len moved := by
  cases pc with
  | sendTop tail | sendCall tail | recvTotal tail | recvLeft tail _ | recvTop tail _ _
  | recvCall tail _ _ | recvGot tail _ _ | complete tail _ | free tail _ | retire tail _ =>
    simpa only [WorkerPc.Counts, hs tail rfl] using h
  | _ => exact h

theorem counts_free {pc : WorkerPc} {slots : Nat → DisWqe} {len : UInt32}
    (hpc : pc.holds = none) : pc.Counts slots len moved ↔ moved = 0 := by
  cases pc <;> first | exact Iff.rfl | simp [WorkerPc.holds, WorkerPc.consumes] at hpc

theorem counts_posted (hr : RingInv cfg.ring DisWqe.eraseLen s.ring) {es : List Posted}
    (hi : CountInv (s, moved)) (hw : t.worker = s.worker) (hs : t.slots = s.slots)
    (hp : t.posted = s.posted ++ es) (hret : t.retired = s.retired) : CountInv (t, moved) := by
  simp only [CountInv] at hi ⊢
  rw [hw, hs]
  cases hh : s.worker.holds with
  | none => exact (counts_free hh).mpr ((counts_free hh).mp hi)
  | some tail =>
    have hlen : t.heldLen = s.heldLen := by
      rw [WqState.heldLen, WqState.heldLen, hp, hret,
        List.getElem?_append_left (worker_slot hr hh).2]
    rw [hlen]
    exact hi

theorem heldLen_posted {e : Posted} (he : s.posted[s.retired.length]? = some e) :
    s.heldLen = e.wqe.byteLen := by
  rw [WqState.heldLen, he]
  rfl

theorem acquired_len (hr : RingInv cfg.ring DisWqe.eraseLen s.ring) {head : Nat}
    (hw : s.worker = .gotHead head) (hc : ¬ circCnt head s.tail cfg.ring.size < 1) :
    (s.slots s.tail).byteLen = s.heldLen := by
  obtain ⟨e, he, hwqe⟩ := Option.map_eq_some_iff.mp (acquired_slot hr hw hc)
  rw [heldLen_posted he, hwqe]

theorem recvGot_left {n left len : UInt32} (hn : n.toNat ≤ left.toNat)
    (h : moved + left.toNat = len.toNat + n.toNat) :
    moved + (left - n).toNat = len.toNat := by
  have hsub : (left - n).toNat = left.toNat - n.toNat :=
    UInt32.toNat_sub_of_le _ _ (UInt32.le_iff_toNat_le.mpr hn)
  omega

theorem workerStep_counts (hr : RingInv cfg.ring DisWqe.eraseLen s.ring)
    (hi : CountInv (s, moved)) {out : Option UInt32} (ha : WithinRequest s (.worker out))
    (h : workerStep cfg out s = some t) : CountInv (t, movedBytes s (.worker out) moved) := by
  simp only [CountInv, movedBytes] at hi ⊢
  cases workerStep_access h with
  | wake hw | leave hw | enter hw | peek hw | empty hw | sendCalled hw | sendFailed hw
  | recvCalled hw | complete hw | free hw =>
    rw [hw] at hi ⊢
    exact hi
  | acquireSqe hw hc | acquireRqe hw hc =>
    have hlen := acquired_len hr hw hc
    rw [hw] at hi ⊢
    exact ⟨hi, hlen⟩
  | sendStopped | recvStopped => exact fun hs => by cases hs
  | @sent tail n hw =>
    rw [hw] at hi ⊢
    obtain ⟨hz, hlen⟩ := hi
    refine fun _ => ⟨hlen, ?_⟩
    show moved + (s.slots tail).byteLen.toNat = s.heldLen.toNat
    rw [hz, hlen, Nat.zero_add]
  | loadTotal hw =>
    rw [hw] at hi ⊢
    exact ⟨hi.1, hi.2, hi.2⟩
  | @loadLeft _ tail total hw =>
    rw [hw] at hi ⊢
    obtain ⟨hz, hlen, htotal⟩ := hi
    refine ⟨htotal, rfl, ?_⟩
    show moved + (s.slots tail).byteLen.toNat = s.heldLen.toNat
    rw [hz, hlen, Nat.zero_add]
  | recvFailed hw =>
    rw [hw] at hi ⊢
    exact ⟨hi.1, hi.2.2⟩
  | @received tail total left n hw =>
    have hn := ha tail total left hw
    rw [hw] at hi ⊢
    obtain ⟨htotal, hlen, hsum⟩ := hi
    refine ⟨htotal, ?_, ?_⟩
    · simp only [WqState.setByteLen, Function.update_self]
      rw [hlen] at hn
      exact hn
    · simp only [WqState.setByteLen, Function.update_self]
      show moved + n.toNat + left.toNat = s.heldLen.toNat + n.toNat
      omega
  | whole hw hz =>
    rw [hw] at hi ⊢
    obtain ⟨htotal, hle, hsum⟩ := hi
    have hrest := recvGot_left hle hsum
    rw [hz, UInt32.toNat_zero] at hrest
    refine ⟨htotal, ?_⟩
    show moved = s.heldLen.toNat
    omega
  | part hw =>
    rw [hw] at hi ⊢
    exact ⟨hi.1, recvGot_left hi.2.1 hi.2.2⟩
  | restore hw =>
    rw [hw] at hi ⊢
    refine fun _ => ⟨?_, hi.2⟩
    simp only [WqState.setByteLen, Function.update_self]
    exact hi.1
  | again hw =>
    rw [hw] at hi ⊢
    refine ⟨hi.1, ?_, hi.2⟩
    simp only [WqState.setByteLen, Function.update_self]
  | retire hw =>
    rw [hw]
    rfl

theorem posterMove_counts (hr : RingInv cfg.ring DisWqe.eraseLen s.ring)
    (hi : CountInv (s, moved)) (h : PosterMove cfg s t) : CountInv (t, moved) := by
  have hslot : ∀ tail, s.worker.holds = some tail → t.slots tail = s.slots tail :=
    fun tail hw => h.held_slot hr hw
  cases h with
  | store hp => exact counts_congr hi hslot
  | publish hp => exact counts_posted hr hi rfl rfl rfl rfl
  | _ => exact hi

/-- The bytes moved add up to the posted length whenever a worker reports success. -/
theorem reach_countInv {p : CountState}
    (h : Reach CountInit (Acts (countStep cfg) fun p a => WithinRequest p.1 a) p) :
    CountInv p := by
  apply h.invariant
  · rintro ⟨s, moved⟩ ⟨rfl, rfl⟩
    rfl
  · rintro ⟨s, moved⟩ ⟨t, moved'⟩ hp hi ⟨a, ha, hs⟩
    obtain ⟨hs, rfl⟩ := recording_some.mp hs
    have hwq : Reach WqInit (Acts (wqStep cfg) anyAct) s :=
      reach_recorded hp (fun _ hi => hi.1) fun _ _ _ => trivial
    have hr := reach_wqRing hwq
    cases a with
    | start req =>
      obtain ⟨_, rfl⟩ := wqStep_start hs
      exact hi
    | poster buf => exact posterMove_counts hr hi (posterStep_move hs)
    | worker out => exact workerStep_counts hr hi ha hs
    | stop => cases Option.some.inj hs; exact hi

end

end DisKverbs
