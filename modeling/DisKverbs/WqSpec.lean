import DisKverbs.WqHistory
import DisKverbs.PostMapping

namespace DisKverbs

open CellProg CircBuf RingMachine StepSystem

/-- The WQEs of the accepted posts that are not retired, oldest first. -/
def WqState.outstanding (s : WqState) : List DisWqe :=
  (s.posted.drop s.retired.length).map (·.wqe)

def WqState.queue (cfg : WqCfg) (s : WqState) : List DisWqe :=
  window s.slots s.head s.tail cfg.ring.size

/-- What a work queue guarantees in a state, whatever either side does next. While the
worker consumes a receive, `byte_len` of the oldest slot is in its hands. -/
structure WqRefines (cfg : WqCfg) (s : WqState) : Prop where
  queue : (s.queue cfg).map DisWqe.eraseLen = s.outstanding.map DisWqe.eraseLen
  queue_tail : (s.queue cfg).tail = s.outstanding.tail
  queue_idle : s.worker.holds = none → s.queue cfg = s.outstanding
  wqes : ∀ e ∈ s.posted, Runs (Owned e.owned) (cfg.body e.req) e.start (some e.used) e.wqe
  accepted : s.posted.length = s.rets.count 0
  full : ∀ req head buf t, s.poster = .gotHead req head → posterStep cfg buf s = some t →
    t.rets = s.rets ++ [-42] → s.posted.length - s.retired.length = cfg.ring.size - 1
  failed : ∀ a t, (∀ out, a ≠ .worker out) → wqStep cfg s a = some t → t.rets ≠ s.rets ++ [0] →
    t.head = s.head ∧ t.tail = s.tail ∧ t.posted = s.posted ∧ t.retired = s.retired ∧
      t.queue cfg = s.queue cfg
  writes : ∀ buf t, posterStep cfg buf s = some t → ∀ j, t.slots j ≠ s.slots j →
    ∀ i, s.retired.length ≤ i → i < s.posted.length → i % cfg.ring.size ≠ j
  filling : ∀ req head prog owned start, s.poster = .fill req head prog owned start →
    ∀ i, s.retired.length ≤ i → i < s.posted.length → i % cfg.ring.size ≠ head

section

variable {cfg : WqCfg} {s t : WqState}

theorem outstanding_eq (s : WqState) : s.outstanding = s.ring.pub.drop s.ring.taken := by
  simp [WqState.outstanding, WqState.ring, List.map_drop]

theorem PosterMove.writes (h : PosterMove cfg s t) {j : Nat} (hj : t.slots j ≠ s.slots j) :
    ∃ req prog owned start, s.poster = .fill req j prog owned start := by
  cases h with
  | @store req head w k owned start hp =>
    by_cases he : j = head
    · subst he; exact ⟨req, _, owned, start, hp⟩
    · exact absurd (Function.update_of_ne he _ _) hj
  | _ => exact absurd rfl hj

/-- Up to the store of head, a post changes nothing but its free slot. -/
theorem PosterMove.unaccepted (h : PosterMove cfg s t) (hn : t.rets ≠ s.rets ++ [0]) :
    t.head = s.head ∧ t.tail = s.tail ∧ t.posted = s.posted ∧ t.retired = s.retired := by
  cases h with
  | publish hp => exact absurd rfl hn
  | _ => exact ⟨rfl, rfl, rfl, rfl⟩

theorem queue_congr (hr : RingInv cfg.ring DisWqe.eraseLen s.ring) (hh : t.head = s.head)
    (ht : t.tail = s.tail)
    (hs : ∀ i, s.retired.length ≤ i → i < s.posted.length →
      t.slots (i % cfg.ring.size) = s.slots (i % cfg.ring.size)) :
    t.queue cfg = s.queue cfg := by
  obtain ⟨hle, hroom, hhead, htail⟩ := wqBounds hr
  rw [WqState.queue, WqState.queue, hh, ht, hhead, htail, window_mod _ _ hle hroom,
    window_mod _ _ hle hroom]
  apply List.map_congr_left
  intro i hi
  exact hs _ (by omega) (by have := List.mem_range.mp hi; omega)

theorem queue_tail_eq (hr : RingInv cfg.ring DisWqe.eraseLen s.ring) :
    (s.queue cfg).tail = s.outstanding.tail := by
  have hlen : (s.queue cfg).length = s.outstanding.length := by
    have := congrArg List.length hr.window_keys
    rw [outstanding_eq]
    simpa [WqState.queue, WqState.ring] using this
  apply List.ext_getElem (by simp [hlen])
  intro i h₁ h₂
  simp only [List.getElem_tail]
  have hb : s.ring.taken + (i + 1) < s.ring.pub.length := by
    rw [outstanding_eq] at h₂
    simp at h₂
    omega
  have hslot := hr.same (s.ring.taken + (i + 1)) _ (by omega) (by omega)
    (List.getElem?_eq_getElem hb)
  simp only [outstanding_eq, List.getElem_drop, ← hslot, WqState.queue, hr.head_eq,
    show s.head = s.ring.head from rfl, show s.tail = s.ring.tail from rfl, hr.tail_eq,
    window_mod _ _ hr.taken_le hr.room]
  simp [WqState.ring]

/-- A work queue is a bounded FIFO of the WQEs that its posting function builds, for
every interleaving of one posting context with one worker. -/
theorem wq_refines (cfg : WqCfg) (s : WqState)
    (h : Reach WqInit (Acts (wqStep cfg) anyAct) s) : WqRefines cfg s := by
  have hr := reach_wqRing h
  have hi := reach_wqInv h
  refine ⟨?_, queue_tail_eq hr, ?_, hi.entries, hi.accepted, ?_, ?_, ?_, ?_⟩
  · rw [outstanding_eq]
    exact hr.window_keys
  · intro hw
    rw [outstanding_eq]
    refine hr.window_eq ?_
    simp only [WqState.ring, WorkerPc.ring, hw]
    split <;> simp [ConsPc.isHolding]
  · intro req head buf t hp hs hret
    have hprod : s.ring.prod = .gotHead head := by rw [WqState.ring, hp]; rfl
    simp only [posterStep, hp] at hs
    split at hs
    next hfull => simpa [WqState.ring] using hr.full_outstanding hprod hfull
    next => cases Option.some.inj hs; simp at hret
  · intro a t ha hs hret
    have unchanged : t.head = s.head ∧ t.tail = s.tail ∧ t.posted = s.posted ∧
        t.retired = s.retired ∧ ∀ j, t.slots j ≠ s.slots j →
          ∃ req prog owned start, s.poster = .fill req j prog owned start := by
      cases a with
      | start req =>
        obtain ⟨_, rfl⟩ := wqStep_start hs
        exact ⟨rfl, rfl, rfl, rfl, fun _ hj => absurd rfl hj⟩
      | poster buf =>
        have hm := posterStep_move hs
        obtain ⟨hh, ht, hp, hq⟩ := hm.unaccepted hret
        exact ⟨hh, ht, hp, hq, fun _ => hm.writes⟩
      | worker out => exact absurd rfl (ha out)
      | stop => cases Option.some.inj hs; exact ⟨rfl, rfl, rfl, rfl, fun _ hj => absurd rfl hj⟩
    obtain ⟨hh, ht, hp, hq, hw⟩ := unchanged
    refine ⟨hh, ht, hp, hq, queue_congr hr hh ht ?_⟩
    intro i hle hlt
    by_contra hne
    obtain ⟨req, prog, owned, start, he⟩ := hw _ hne
    exact fill_slot_free hr he hle hlt rfl
  · intro buf t hs j hj i hle hlt
    obtain ⟨req, prog, owned, start, he⟩ := (posterStep_move hs).writes hj
    exact fill_slot_free hr he hle hlt
  · exact fun req head prog owned start he i hle hlt => fill_slot_free hr he hle hlt

end

def freshWq : WqState := ⟨0, 0, fun _ => default, .idle, .top, false, 0, [], [], [], []⟩

theorem freshWq_init : WqInit freshWq := rfl

def twoSlotSq : WqCfg := ⟨sciLib64, twoSlots, .sq, 1, 2⟩

/-- Five entries: more than the static map holds. -/
def largeWr : IbWr :=
  ⟨1, [⟨0x7ff8, 16, 0⟩, ⟨0x7100, 0, 0⟩, ⟨0x7100, 0, 0⟩, ⟨0x7100, 0, 0⟩], 4, by decide⟩

def emptyWr : IbWr := ⟨2, [], 0, by decide⟩

def postActs (wr : IbWr) (n : Nat) : List WqAct :=
  .start ⟨twoPageTable, wr⟩ :: List.replicate n (.poster (some fun _ => default))

def sendActs : List WqAct := List.replicate 8 (.worker (some 0))

/-- A large WR, a lap of the ring, and a small WR in the same slot. -/
def lapActs : List WqAct :=
  postActs largeWr 30 ++ sendActs ++ postActs emptyWr 11 ++ sendActs ++ postActs emptyWr 11 ++
    sendActs

theorem wq_refines_lap : WqRefines twoSlotSq (afterActs (wqStep twoSlotSq) freshWq lapActs) :=
  wq_refines twoSlotSq _ (reach_afterActs freshWq_init lapActs)

end DisKverbs
