import DisKverbs.CqHistory

namespace DisKverbs

open CellProg CircBuf RingMachine StepSystem

variable {ι : Type} [DecidableEq ι] {r : RingSize} {s t : CqState ι}

omit [DecidableEq ι] in
theorem CqPoll.release (hp : CqPoll r s) (hr : RingInv r id s.ring) {numWc : Int}
    {got : List IbWc} {tail : Nat} {wc : IbWc} (hpc : s.poller = .copy numWc got tail (.ret wc)) :
    CqPoll r { s with
      tail := circNext tail r.size
      poller := .loop numWc (got ++ [wc])
      taken := s.taken + 1 } := by
  obtain ⟨hlt, hrest⟩ := hp.copy _ _ _ _ hpc
  obtain ⟨_, e, he, hslot⟩ := copy_slot hr hpc
  have hwc : wc = e.cqe.wc := by
    rw [← hslot]
    exact (copyCqe_runs.mp hrest.finish).1
  have htake : s.inserted.take (s.taken + 1) = s.inserted.take s.taken ++ [e] := by
    rw [List.take_add_one, he]
    rfl
  refine ⟨?_, by simp, by simp, ?_, hp.polls⟩
  · intro n g hg
    cases hg
    simp only [List.length_append, List.length_singleton]
    omega
  · have hc := hp.copied
    simp only [hpc, PollerPc.got] at hc
    simp only [PollerPc.got, htake, List.map_append, List.map_singleton]
    rw [← hc, hwc, List.append_assoc]

omit [DecidableEq ι] in
/-- A poll that returns what it got. -/
theorem CqPoll.finish (hp : CqPoll r s) {poll : PollResult} (hgot : poll.wcs = s.poller.got)
    (hsound : poll.Sound) :
    CqPoll r { s with poller := .idle, polls := s.polls ++ [poll] } := by
  have hc := hp.copied
  rw [← hgot] at hc
  refine ⟨by simp, by simp, by simp, by simpa [PollerPc.got] using hc, ?_⟩
  intro p hmem
  rcases List.mem_append.mp hmem with hmem | hmem
  · exact hp.polls p hmem
  · rw [List.mem_singleton.mp hmem]
    exact hsound

theorem CqPoll.move (hp : CqPoll r s) (hr : RingInv r id s.ring) {a : CqAct ι} (h : CqMove r s a t) :
    CqPoll r t := by
  have none : s.inserted = s.inserted ++ [] := (List.append_nil _).symm
  have hc := hp.copied
  cases h with
  | @store i call head w k hh =>
    refine hp.producer hr rfl rfl rfl ⟨[], none⟩ ?_
    intro j hj
    have hne : j ≠ head := by rintro rfl; exact hj _ _ _ hh
    exact Function.update_of_ne hne _ _
  | insert hh => exact hp.producer hr rfl rfl rfl ⟨_, rfl⟩ fun _ _ => rfl
  | @poll numWc hpc =>
    simp only [hpc, PollerPc.got] at hc
    refine ⟨?_, by simp, by simp, hc, hp.polls⟩
    intro n g hg
    cases hg
    simp
  | @peek numWc got hpc hlt =>
    simp only [hpc, PollerPc.got] at hc
    have hle := hr.taken_le
    have hhead := hr.head_eq
    simp only [CqState.ring, List.length_map] at hle hhead
    refine ⟨by simp, ?_, by simp, hc, hp.polls⟩
    intro n g head pending hg
    cases hg
    have hsum : s.taken + (s.inserted.length - s.taken) = s.inserted.length := by omega
    exact ⟨hlt, by rw [hsum]; exact hhead, hsum.le⟩
  | @finish numWc got hpc hnlt =>
    have hle := hp.loop _ _ hpc
    refine hp.finish (by rw [hpc]; rfl) ?_
    exact ⟨hle, fun hlt => absurd hlt hnlt⟩
  | @empty numWc got head pending hpc hs =>
    obtain ⟨hlt, hhead, hb⟩ := hp.peeked _ _ _ _ hpc
    have hroom := hr.room
    have htail := hr.tail_eq
    simp only [CqState.ring, List.length_map] at hroom htail
    rw [hhead, htail, circCnt_mod r (by omega) (by omega)] at hs
    have hzero : pending = 0 := by omega
    refine hp.finish (by rw [hpc]; rfl) ?_
    exact ⟨by simp only; omega, fun _ => congrArg some hzero⟩
  | acquire hpc _ =>
    obtain ⟨hlt, _, _⟩ := hp.peeked _ _ _ _ hpc
    simp only [hpc, PollerPc.got] at hc
    refine ⟨by simp, by simp, ?_, hc, hp.polls⟩
    intro n g tail prog hg
    cases hg
    exact ⟨hlt, rest_start _ _⟩
  | copy hpc =>
    obtain ⟨hlt, hrest⟩ := hp.copy _ _ _ _ hpc
    simp only [hpc, PollerPc.got] at hc
    refine ⟨by simp, by simp, ?_, hc, hp.polls⟩
    intro n g tail prog hg
    cases hg
    exact ⟨hlt, hrest.load⟩
  | release hpc => exact hp.release hr hpc
  | _ => exact hp.producer hr rfl rfl rfl ⟨[], none⟩ fun _ _ => rfl

theorem reach_cqFill {ok : CqState ι → CqAct ι → Prop} (h : Reach CqInit (Acts (cqStep r) ok) s) :
    CqFill s := by
  apply h.invariant
  · rintro s rfl
    exact ⟨by simp, by simp⟩
  · rintro s t _ hf ⟨a, _, hs⟩
    exact hf.move (cqStep_move hs)

theorem reach_cqPoll {ok : CqState ι → CqAct ι → Prop} (h : Reach CqInit (Acts (cqStep r) ok) s) :
    CqPoll r s := by
  apply h.invariant
  · rintro s rfl
    exact ⟨by simp, by simp, by simp, rfl, by simp⟩
  · rintro s t hr hp ⟨a, _, hs⟩
    exact hp.move (reach_cqRing hr) (cqStep_move hs)

theorem CqMove.writes {a : CqAct ι} (h : CqMove r s a t) {j : Nat} (hj : t.slots j ≠ s.slots j) :
    ∃ i call prog, s.holder = some (i, call, .fill j prog) := by
  cases h with
  | @store i call head w k hh =>
    by_cases he : j = head
    · subst he; exact ⟨i, call, _, hh⟩
    · exact absurd (Function.update_of_ne he _ _) hj
  | _ => exact absurd rfl hj

section

variable {ok : CqState ι → CqAct ι → Prop} (h : Reach CqInit (Acts (cqStep r) ok) s)

include h

theorem reach_queued :
    window s.slots s.head s.tail r.size = (s.inserted.drop s.taken).map (·.cqe) := by
  have hw := (reach_cqRing h).window_keys
  rw [List.map_id, List.map_id] at hw
  rw [List.map_drop]
  exact hw

theorem reach_returned : s.polls.flatMap PollResult.wcs <+: s.inserted.map fun e => e.cqe.wc := by
  have htake : (s.inserted.take s.taken).map (fun e => e.cqe.wc) <+:
      s.inserted.map fun e => e.cqe.wc := (List.take_prefix _ _).map _
  rw [← (reach_cqPoll h).copied] at htake
  exact (List.prefix_append _ _).trans htake

/-- A completion that a poll returned is that of the entry of its turn. -/
theorem returned_entry {k : Nat} {wc : IbWc}
    (hk : (s.polls.flatMap PollResult.wcs)[k]? = some wc) :
    ∃ e, s.inserted[k]? = some e ∧ wc = (e.call.wqe.cqe e.call.status).wc := by
  obtain ⟨rest, hrest⟩ := reach_returned h
  have hwc : (s.inserted.map fun e => e.cqe.wc)[k]? = some wc := by
    rw [← hrest, List.getElem?_append_left (List.getElem?_eq_some_iff.mp hk).1]
    exact hk
  rw [List.getElem?_map] at hwc
  obtain ⟨e, he, rfl⟩ := Option.map_eq_some_iff.mp hwc
  exact ⟨e, he, by rw [(reach_cqFill h).entries e (List.mem_of_getElem? he)]⟩

end

/-- What a completion queue guarantees in a state, whatever its users do next. -/
structure CqRefines (r : RingSize) (s : CqState ι) : Prop where
  returned : s.polls.flatMap PollResult.wcs <+: s.inserted.map fun e => e.cqe.wc
  copied : s.polls.flatMap PollResult.wcs ++ s.poller.got =
    (s.inserted.take s.taken).map fun e => e.cqe.wc
  queued : window s.slots s.head s.tail r.size = (s.inserted.drop s.taken).map (·.cqe)
  stored : ∀ e ∈ s.inserted, e.cqe = e.call.wqe.cqe e.call.status
  writes : ∀ a t, cqStep r s a = some t → ∀ j, t.slots j ≠ s.slots j →
    ∀ k, s.taken ≤ k → k < s.inserted.length → k % r.size ≠ j
  filling : ∀ i call head prog, s.holder = some (i, call, .fill head prog) →
    ∀ k, s.taken ≤ k → k < s.inserted.length → k % r.size ≠ head
  polls : ∀ p ∈ s.polls, p.Sound

/-- A completion queue is a FIFO of the entries that were inserted, for any producers
under its lock and one poller without it. -/
theorem cq_refines (r : RingSize) (s : CqState ι) (h : Reach CqInit (Acts (cqStep r) anyAct) s) :
    CqRefines r s := by
  have hr := reach_cqRing h
  have hp := reach_cqPoll h
  refine ⟨reach_returned h, hp.copied, reach_queued h, (reach_cqFill h).entries, ?_, ?_, hp.polls⟩
  · intro a t hs j hj k hle hlt
    obtain ⟨i, call, prog, hh⟩ := (cqStep_move hs).writes hj
    exact holder_fill_free hr hh hle hlt
  · exact fun i call head prog hh k hle hlt => holder_fill_free hr hh hle hlt

def freshCq : CqState Nat :=
  ⟨0, 0, fun _ => default, fun _ => none, none, .idle, [], [], 0, []⟩

theorem freshCq_init : CqInit freshCq := rfl

/-- Two producers insert an entry each into two slots; one poll asks for three entries. -/
def insertPollActs : List (CqAct Nat) :=
  [.call 0 ⟨.sq, default, .success⟩, .call 1 ⟨.rq, default, .respTimeoutErr⟩] ++
    List.replicate 10 (.producer 0) ++ [.poll 3] ++ List.replicate 10 .poller ++
    List.replicate 10 (.producer 1)

theorem cq_refines_poll :
    CqRefines twoSlots (afterActs (cqStep twoSlots) freshCq insertPollActs) :=
  cq_refines twoSlots (afterActs (cqStep twoSlots) freshCq insertPollActs)
    (reach_afterActs freshCq_init insertPollActs)

end DisKverbs
