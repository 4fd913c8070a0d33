import DisKverbs.CqSpec

namespace DisKverbs

open CellProg CircBuf RingMachine StepSystem

/-- A completion queue that many contexts poll. Each caller has a place of its own in `dis_poll_cq`
and its own finished polls; `cq.poller` and `cq.polls` are nobody's. `returned` lists what was
copied out, in the order of the stores of tail. -/
structure SharedCq (ι κ : Type) where
  cq : CqState ι
  pollers : κ → PollerPc
  polls : κ → List PollResult
  returned : List (κ × IbWc)

def PollerPc.Copying : PollerPc → Prop
  | .copy .. => True
  | _ => False

/-- The entry that the next access of a poll returns by its store of tail, if any. -/
def PollerPc.returns : PollerPc → List IbWc
  | .copy _ _ _ (.ret wc) => [wc]
  | _ => []

section

variable {ι κ : Type} [DecidableEq ι] [DecidableEq κ] (r : RingSize)

/-- The queue as the caller `k` finds it. -/
def SharedCq.seat (s : SharedCq ι κ) (k : κ) : CqState ι :=
  { s.cq with poller := s.pollers k, polls := s.polls k }

def SharedCq.unseat (s : SharedCq ι κ) (k : κ) (q : CqState ι) : SharedCq ι κ where
  cq := { q with poller := s.cq.poller, polls := s.cq.polls }
  pollers := Function.update s.pollers k q.poller
  polls := Function.update s.polls k q.polls
  returned := s.returned ++ (s.pollers k).returns.map fun wc => (k, wc)

inductive SharedCqAct (ι κ : Type)
  | call (i : ι) (call : CqeCall)
  | producer (i : ι)
  | poll (k : κ) (numWc : Int)
  | poller (k : κ)

/-- Any caller may load head, load tail, copy an entry or store tail at any time. -/
def sharedCqStep (s : SharedCq ι κ) : SharedCqAct ι κ → Option (SharedCq ι κ)
  | .call i call => (cqStep r s.cq (.call i call)).map fun q => { s with cq := q }
  | .producer i => (cqStep r s.cq (.producer i)).map fun q => { s with cq := q }
  | .poll k numWc => (cqStep r (s.seat k) (.poll numWc)).map (s.unseat k)
  | .poller k => (cqStep r (s.seat k) .poller).map (s.unseat k)

def SharedCqInit (s : SharedCq ι κ) : Prop :=
  CqInit s.cq ∧ (∀ k, s.pollers k = .idle) ∧ (∀ k, s.polls k = []) ∧ s.returned = []

/-- A poll that passes its empty test does so while no other poll copies an entry, and the queue
is not empty by the head and the tail it has. -/
def PollsAlone (s : SharedCq ι κ) : SharedCqAct ι κ → Prop
  | .poller k => ∀ numWc got head pending, s.pollers k = .gotHead numWc got head pending →
    ¬ circCnt head s.cq.tail r.size < 1 →
    ¬ circCnt s.cq.head s.cq.tail r.size < 1 ∧ ∀ j, ¬ (s.pollers j).Copying
  | _ => True

/-- The entries were returned in the order of insertion, each to one caller, and the callers have
what was returned; the queue holds the rest. Tail counts the returned entries and a step moves it
by one at most. -/
structure EachOnce (s : SharedCq ι κ) : Prop where
  once : s.returned.map Prod.snd =
    (s.cq.inserted.take s.returned.length).map fun e => e.cqe.wc
  inserted : s.returned.length ≤ s.cq.inserted.length
  callers : ∀ k, (s.polls k).flatMap PollResult.wcs ++ (s.pollers k).got =
    (s.returned.filter fun p => p.1 = k).map Prod.snd
  queued : window s.cq.slots s.cq.head s.cq.tail r.size =
    (s.cq.inserted.drop s.returned.length).map (·.cqe)
  tail : s.cq.tail = s.returned.length % r.size
  forward : ∀ a t, sharedCqStep r s a = some t → t.cq.tail = s.cq.tail ∨
    t.cq.tail = circNext s.cq.tail r.size

end

/-- The queue with another poller and other finished polls: what the producers cannot see. -/
def CqState.polling {ι : Type} (q : CqState ι) (pc : PollerPc) (polls : List PollResult) :
    CqState ι :=
  { q with poller := pc, polls := polls }

section

variable {ι : Type} [DecidableEq ι] {r : RingSize} {q t : CqState ι}

theorem call_polling {i : ι} {call : CqeCall} (pc : PollerPc) (polls : List PollResult)
    (h : cqStep r q (.call i call) = some t) :
    cqStep r (q.polling pc polls) (.call i call) = some (t.polling pc polls) := by
  cases cqStep_move h with
  | wait hw hne =>
    simp only [cqStep, CqState.polling, hw]
    cases hh : q.holder with
    | none => rfl
    | some holder =>
      obtain ⟨j, call', pc'⟩ := holder
      have hj : j ≠ i := by rintro rfl; exact hne call' pc' hh
      exact if_neg hj

theorem producer_polling {i : ι} (pc : PollerPc) (polls : List PollResult)
    (h : cqStep r q (.producer i) = some t) :
    cqStep r (q.polling pc polls) (.producer i) = some (t.polling pc polls) := by
  cases cqStep_move h with
  | lock hh hw => simp only [cqStep, CqState.polling, hh, hw]
  | full hh hs => simp only [cqStep, CqState.polling, hh, holderStep, ↓reduceIte, if_pos hs]
  | reserve hh hs => simp only [cqStep, CqState.polling, hh, holderStep, ↓reduceIte, if_neg hs]
  | loadHead hh | load hh | store hh | ask hh | insert hh | unlock hh =>
    simp only [cqStep, CqState.polling, hh, holderStep, ↓reduceIte]

/-- A poll for one entry of a queue that is not empty comes to the entry at tail. -/
theorem polling_acquire {polls : List PollResult} (hr : Reach CqInit (Acts (cqStep r) anyAct)
    (q.polling .idle polls)) (hc : ¬ circCnt q.head q.tail r.size < 1) :
    Reach CqInit (Acts (cqStep r) anyAct) (q.polling (.copy 1 [] q.tail copyCqe) polls) := by
  have hpoll : cqStep r (q.polling .idle polls) (.poll 1) =
      some (q.polling (.loop 1 []) polls) := rfl
  have hpeek : cqStep r (q.polling (.loop 1 []) polls) .poller =
      some (q.polling (.gotHead 1 [] q.head (q.inserted.length - q.taken)) polls) :=
    by simp [cqStep, pollerStep, CqState.polling]
  have hget : cqStep r (q.polling (.gotHead 1 [] q.head (q.inserted.length - q.taken)) polls)
      .poller = some (q.polling (.copy 1 [] q.tail copyCqe) polls) := if_neg hc
  exact ((hr.next ⟨_, trivial, hpoll⟩).next ⟨_, trivial, hpeek⟩).next ⟨_, trivial, hget⟩

def onePoll (wc : IbWc) : PollResult := ⟨1, [wc], none⟩

/-- The store of tail ends such a poll. -/
theorem polling_release {polls : List PollResult} {tail : Nat} {wc : IbWc}
    (hr : Reach CqInit (Acts (cqStep r) anyAct) (q.polling (.copy 1 [] tail (.ret wc)) polls)) :
    Reach CqInit (Acts (cqStep r) anyAct)
      ({ q with tail := circNext tail r.size, taken := q.taken + 1 }.polling .idle
        (polls ++ [onePoll wc])) := by
  have hstore : cqStep r (q.polling (.copy 1 [] tail (.ret wc)) polls) .poller =
      some ({ q with tail := circNext tail r.size, taken := q.taken + 1 }.polling
        (.loop 1 [wc]) polls) := rfl
  have hfinish : cqStep r ({ q with tail := circNext tail r.size, taken := q.taken + 1 }.polling
      (.loop 1 [wc]) polls) .poller =
      some ({ q with tail := circNext tail r.size, taken := q.taken + 1 }.polling .idle
        (polls ++ [onePoll wc])) := by
    simp [cqStep, pollerStep, CqState.polling, onePoll]
  exact (hr.next ⟨_, trivial, hstore⟩).next ⟨_, trivial, hfinish⟩

end

section

variable {ι κ : Type} {r : RingSize} {s t : SharedCq ι κ}

/-- At most one caller copies an entry, and `pc` is a poll for that entry alone. -/
def Copies (s : SharedCq ι κ) (pc : PollerPc) : Prop :=
  (pc = .idle ∧ ∀ j, ¬ (s.pollers j).Copying) ∨
    ∃ k numWc got tail prog, s.pollers k = .copy numWc got tail prog ∧
      pc = .copy 1 [] tail prog ∧ ∀ j, (s.pollers j).Copying → j = k

theorem Copies.own {pc : PollerPc} (h : Copies s pc) {k : κ} {numWc : Int} {got : List IbWc}
    {tail : Nat} {prog : CqeProg IbWc} (hk : s.pollers k = .copy numWc got tail prog) :
    pc = .copy 1 [] tail prog ∧ ∀ j, (s.pollers j).Copying → j = k := by
  have hcopy : (s.pollers k).Copying := by rw [hk]; trivial
  rcases h with ⟨_, hnone⟩ | ⟨l, _, _, _, _, hl, rfl, hone⟩
  · exact absurd hcopy (hnone k)
  · cases hone k hcopy
    cases hk.symm.trans hl
    exact ⟨rfl, hone⟩

theorem Copies.idle {pc : PollerPc} (h : Copies s pc) (hnone : ∀ j, ¬ (s.pollers j).Copying) :
    pc = .idle := by
  rcases h with h | ⟨k, _, _, _, _, hk, _⟩
  · exact h.1
  · exact absurd (by rw [hk]; trivial) (hnone k)

theorem Copies.got {pc : PollerPc} (h : Copies s pc) : pc.got = [] := by
  rcases h with ⟨rfl, _⟩ | ⟨_, _, _, _, _, _, rfl, _⟩
  · rfl
  · rfl

variable [DecidableEq κ]

/-- A caller that copies nothing may move to another such place. -/
theorem Copies.update {pc pc' : PollerPc} (h : Copies s pc) {k : κ}
    (hk : ¬ (s.pollers k).Copying) (hpc : ¬ pc'.Copying)
    (hp : t.pollers = Function.update s.pollers k pc') : Copies t pc := by
  have same (j : κ) : (t.pollers j).Copying ↔ (s.pollers j).Copying := by
    rw [hp]
    exact update_outside PollerPc.Copying hk hpc j
  rcases h with ⟨rfl, hnone⟩ | ⟨l, numWc, got, tail, prog, hl, rfl, hone⟩
  · exact .inl ⟨rfl, fun j hj => hnone j ((same j).mp hj)⟩
  · have hne : l ≠ k := by rintro rfl; exact hk (by rw [hl]; trivial)
    refine .inr ⟨l, numWc, got, tail, prog, ?_, rfl, fun j hj => hone j ((same j).mp hj)⟩
    rw [hp, Function.update_of_ne hne]
    exact hl

theorem copies_stop {pc : PollerPc} {k : κ} (hone : ∀ j, (s.pollers j).Copying → j = k)
    (hpc : ¬ pc.Copying) (hp : t.pollers = Function.update s.pollers k pc) : Copies t .idle := by
  refine .inl ⟨rfl, ?_⟩
  rw [hp]
  exact none_update PollerPc.Copying hone hpc

theorem copies_own {k : κ} {numWc : Int} {got : List IbWc} {tail : Nat} {prog : CqeProg IbWc}
    (hone : ∀ j, (s.pollers j).Copying → j = k)
    (hp : t.pollers = Function.update s.pollers k (.copy numWc got tail prog)) :
    Copies t (.copy 1 [] tail prog) := by
  refine .inr ⟨k, numWc, got, tail, prog, by rw [hp, Function.update_self], rfl, fun j hj => ?_⟩
  rw [hp] at hj
  exact only_update PollerPc.Copying hone hj

variable [DecidableEq ι]

/-- What a shared queue does looks to its entries like polls for one entry each, by one caller. -/
def OnePoller (r : RingSize) (s : SharedCq ι κ) : Prop :=
  ∃ pc polls, Copies s pc ∧ Reach CqInit (Acts (cqStep r) anyAct) (s.cq.polling pc polls) ∧
    polls.flatMap PollResult.wcs = s.returned.map Prod.snd

theorem OnePoller.poller (h : OnePoller r s) {k : κ} {q : CqState ι}
    (hok : PollsAlone r s (.poller k)) (hs : pollerStep r (s.seat k) = some q) :
    OnePoller r (s.unseat k q) := by
  obtain ⟨pc, polls, hl, hr, hret⟩ := h
  cases pollerStep_move hs with
  | peek hp _ | finish hp _ | empty hp _ =>
    have hp' : s.pollers k = _ := hp
    have hk : ¬ (s.pollers k).Copying := by rw [hp']; exact id
    have hnot : (s.pollers k).returns = [] := by rw [hp']; rfl
    exact ⟨pc, polls, hl.update hk id rfl, hr, by simpa [SharedCq.unseat, hnot] using hret⟩
  | @acquire numWc got head pending hp hc =>
    have hp' : s.pollers k = .gotHead numWc got head pending := hp
    have hnot : (s.pollers k).returns = [] := by rw [hp']; rfl
    obtain ⟨hsome, hnone⟩ := hok _ _ _ _ hp' hc
    cases hl.idle hnone
    refine ⟨.copy 1 [] s.cq.tail copyCqe, polls, ?_, polling_acquire hr hsome, ?_⟩
    · exact copies_own (fun j hj => absurd hj (hnone j)) rfl
    · simpa [SharedCq.unseat, hnot] using hret
  | @copy numWc got tail rest hp =>
    have hp' : s.pollers k = .copy numWc got tail (.load rest) := hp
    have hnot : (s.pollers k).returns = [] := by rw [hp']; rfl
    obtain ⟨rfl, hone⟩ := hl.own hp'
    refine ⟨.copy 1 [] tail (rest (s.cq.slots tail)), polls, copies_own hone rfl,
      hr.next ⟨.poller, trivial, rfl⟩, ?_⟩
    simpa [SharedCq.unseat, hnot] using hret
  | @release numWc got tail wc hp =>
    have hp' : s.pollers k = .copy numWc got tail (.ret wc) := hp
    have hwc : (s.pollers k).returns = [wc] := by rw [hp']; rfl
    obtain ⟨rfl, hone⟩ := hl.own hp'
    refine ⟨.idle, polls ++ [onePoll wc], copies_stop hone id rfl, polling_release hr, ?_⟩
    simp [SharedCq.unseat, hwc, hret, onePoll]

/-- A producer's access is one of the queue, and a poll begins or goes on by an access of its
caller. -/
inductive SharedCqMove (r : RingSize) (s : SharedCq ι κ) : SharedCqAct ι κ → SharedCq ι κ → Prop
  | call {i call q} : cqStep r s.cq (.call i call) = some q →
      SharedCqMove r s (.call i call) { s with cq := q }
  | producer {i q} : cqStep r s.cq (.producer i) = some q →
      SharedCqMove r s (.producer i) { s with cq := q }
  | poll {k numWc q} : s.pollers k = .idle → q = { s.seat k with poller := .loop numWc [] } →
      SharedCqMove r s (.poll k numWc) (s.unseat k q)
  | poller {k q} : pollerStep r (s.seat k) = some q → SharedCqMove r s (.poller k) (s.unseat k q)

theorem sharedCqStep_move {a : SharedCqAct ι κ} (h : sharedCqStep r s a = some t) :
    SharedCqMove r s a t := by
  cases a with
  | call i call =>
    obtain ⟨q, hq, rfl⟩ := Option.map_eq_some_iff.mp h
    exact .call hq
  | producer i =>
    obtain ⟨q, hq, rfl⟩ := Option.map_eq_some_iff.mp h
    exact .producer hq
  | poll k numWc =>
    obtain ⟨q, hq, rfl⟩ := Option.map_eq_some_iff.mp h
    cases cqStep_move hq with
    | poll hp => exact .poll hp rfl
  | poller k =>
    obtain ⟨q, hq, rfl⟩ := Option.map_eq_some_iff.mp h
    exact .poller hq

theorem OnePoller.move (h : OnePoller r s) {a : SharedCqAct ι κ} (hok : PollsAlone r s a)
    (hm : SharedCqMove r s a t) : OnePoller r t := by
  cases hm with
  | call hq =>
    obtain ⟨pc, polls, hl, hr, hret⟩ := h
    exact ⟨pc, polls, hl, hr.next ⟨_, trivial, call_polling pc polls hq⟩, hret⟩
  | producer hq =>
    obtain ⟨pc, polls, hl, hr, hret⟩ := h
    exact ⟨pc, polls, hl, hr.next ⟨_, trivial, producer_polling pc polls hq⟩, hret⟩
  | @poll k numWc q hp hq =>
    obtain ⟨pc, polls, hl, hr, hret⟩ := h
    subst hq
    have hk : ¬ (s.pollers k).Copying := by rw [hp]; exact id
    have hnot : (s.pollers k).returns = [] := by rw [hp]; rfl
    exact ⟨pc, polls, hl.update hk id rfl, hr, by simpa [SharedCq.unseat, hnot] using hret⟩
  | poller hs => exact h.poller hok hs

theorem reach_onePoller (h : Reach SharedCqInit (Acts (sharedCqStep r) (PollsAlone r)) s) :
    OnePoller r s := by
  apply h.invariant
  · rintro s ⟨hq, hp, _, hret⟩
    refine ⟨.idle, [], .inl ⟨rfl, fun j hj => ?_⟩, reach_start ?_, ?_⟩
    · rw [hp j] at hj
      exact hj
    · rw [hq]
      rfl
    · rw [hret]
      rfl
  · rintro s t _ hi ⟨a, hok, hs⟩
    exact hi.move hok (sharedCqStep_move hs)

/-- A poll hands out an entry with its store of tail and never else. -/
theorem CqMove.handsOut {q q' : CqState ι} (h : CqMove r q .poller q') :
    q'.polls.flatMap PollResult.wcs ++ q'.poller.got =
      q.polls.flatMap PollResult.wcs ++ q.poller.got ++ q.poller.returns := by
  cases h with
  | finish hp | empty hp => simp [hp, PollerPc.got, PollerPc.returns]
  | peek hp | acquire hp | copy hp | release hp => simp [hp, PollerPc.got, PollerPc.returns]

/-- Each caller has what the queue returned to it. -/
def CallersHave (s : SharedCq ι κ) : Prop :=
  ∀ k, (s.polls k).flatMap PollResult.wcs ++ (s.pollers k).got =
    (s.returned.filter fun p => p.1 = k).map Prod.snd

omit [DecidableEq ι] in
theorem CallersHave.unseat (h : CallersHave s) {k : κ} {q : CqState ι}
    (hq : q.polls.flatMap PollResult.wcs ++ q.poller.got =
      (s.polls k).flatMap PollResult.wcs ++ (s.pollers k).got ++ (s.pollers k).returns) :
    CallersHave (s.unseat k q) := by
  intro j
  have hret : (s.unseat k q).returned =
      s.returned ++ (s.pollers k).returns.map fun wc => (k, wc) := rfl
  rw [hret, List.filter_append, List.map_append, ← h j]
  by_cases hj : j = k
  · subst hj
    have hown : ((s.pollers j).returns.map fun wc => (j, wc)).filter (fun p => p.1 = j) =
        (s.pollers j).returns.map fun wc => (j, wc) := by simp
    rw [hown, List.map_map]
    simp only [SharedCq.unseat, Function.update_self]
    simpa [Function.comp_def] using hq
  · have hother : ((s.pollers k).returns.map fun wc => (k, wc)).filter (fun p => p.1 = j) = [] := by
      simp [Ne.symm hj]
    rw [hother]
    simp [SharedCq.unseat, Function.update_of_ne hj]

theorem reach_callersHave {ok : SharedCq ι κ → SharedCqAct ι κ → Prop}
    (h : Reach SharedCqInit (Acts (sharedCqStep r) ok) s) : CallersHave s := by
  apply h.invariant
  · rintro s ⟨_, hp, hpolls, hret⟩ k
    rw [hp k, hpolls k, hret]
    rfl
  · rintro s t _ hi ⟨a, _, hs⟩
    cases sharedCqStep_move hs with
    | call | producer => exact hi
    | @poll k numWc q hp hq =>
      subst hq
      exact hi.unseat (by simp [SharedCq.seat, hp, PollerPc.got, PollerPc.returns])
    | poller hq => exact hi.unseat (pollerStep_move hq).handsOut

omit [DecidableEq κ] in
theorem OnePoller.once (h : OnePoller r s) : s.returned.length = s.cq.taken ∧
    s.returned.map Prod.snd = (s.cq.inserted.take s.cq.taken).map fun e => e.cqe.wc := by
  obtain ⟨pc, polls, hl, hr, hret⟩ := h
  have hcopied := (reach_cqPoll hr).copied
  have hring := reach_cqRing hr
  have hle := taken_le_inserted hring
  simp only [CqState.polling] at hle
  have hgot : (s.cq.polling pc polls).poller.got = [] := hl.got
  rw [hgot, List.append_nil] at hcopied
  have hall : s.returned.map Prod.snd =
      (s.cq.inserted.take s.cq.taken).map fun e => e.cqe.wc := hret.symm.trans hcopied
  have hlen := congrArg List.length hall
  simp only [List.length_map, List.length_take] at hlen
  exact ⟨by omega, hall⟩

omit [DecidableEq κ] in
/-- The entry a caller copies is the one at the tail of the queue. -/
theorem OnePoller.copy_tail (h : OnePoller r s) {k : κ} {numWc : Int} {got : List IbWc}
    {tail : Nat} {prog : CqeProg IbWc} (hk : s.pollers k = .copy numWc got tail prog) :
    tail = s.cq.tail := by
  obtain ⟨pc, polls, hl, hr, _⟩ := h
  obtain ⟨rfl, _⟩ := hl.own hk
  have hring := reach_cqRing hr
  have hslot := (copy_slot hring rfl).1
  exact hslot.trans hring.tail_eq.symm

theorem CqMove.tail_kept {q q' : CqState ι} {a : CqAct ι} (h : CqMove r q a q')
    (ha : a ≠ .poller) : q'.tail = q.tail := by
  cases h with
  | peek | finish | empty | acquire | copy | release => exact absurd rfl ha
  | _ => rfl

theorem OnePoller.forward (h : OnePoller r s) {a : SharedCqAct ι κ}
    (hm : SharedCqMove r s a t) :
    t.cq.tail = s.cq.tail ∨ t.cq.tail = circNext s.cq.tail r.size := by
  cases hm with
  | call hq => exact .inl ((cqStep_move hq).tail_kept (by simp))
  | producer hq => exact .inl ((cqStep_move hq).tail_kept (by simp))
  | poll _ hq => subst hq; exact .inl rfl
  | poller hq =>
    cases pollerStep_move hq with
    | peek | finish | empty | acquire | copy => exact .inl rfl
    | release hp =>
      have htail := h.copy_tail hp
      subst htail
      exact .inr rfl

/-- As long as every poll that passes its empty test is the only one that copies an entry and
finds one there, every entry is returned to one caller, in order. -/
theorem shared_eachOnce (r : RingSize) (s : SharedCq ι κ)
    (h : Reach SharedCqInit (Acts (sharedCqStep r) (PollsAlone r)) s) : EachOnce r s := by
  have hone := reach_onePoller h
  obtain ⟨hlen, hall⟩ := hone.once
  obtain ⟨pc, polls, _, hr, _⟩ := id hone
  have hring := reach_cqRing hr
  have hqueued := reach_queued hr
  refine ⟨by rw [hlen]; exact hall, ?_, reach_callersHave h, ?_, ?_, ?_⟩
  · rw [hlen]
    have hle := taken_le_inserted hring
    exact hle
  · rw [hlen]
    exact hqueued
  · rw [hlen]
    exact hring.tail_eq
  · exact fun a t hs => hone.forward (sharedCqStep_move hs)

end

def freshPolled : SharedCq Nat Bool := ⟨freshCq, fun _ => .idle, fun _ => [], []⟩

theorem freshPolled_init : SharedCqInit freshPolled :=
  ⟨freshCq_init, fun _ => rfl, fun _ => rfl, rfl⟩

instance : DecidablePred PollerPc.Copying
  | .idle => isFalse id
  | .loop .. => isFalse id
  | .gotHead .. => isFalse id
  | .copy .. => isTrue trivial

/-- `PollsAlone`, as a test. -/
def pollsAlone (r : RingSize) (s : SharedCq Nat Bool) : SharedCqAct Nat Bool → Bool
  | .poller k =>
    match s.pollers k with
    | .gotHead _ _ head _ => decide (circCnt head s.cq.tail r.size < 1) ||
      decide (¬ circCnt s.cq.head s.cq.tail r.size < 1 ∧ ∀ j, ¬ (s.pollers j).Copying)
    | _ => true
  | _ => true

theorem pollsAlone_sound (r : RingSize) (s : SharedCq Nat Bool) (a : SharedCqAct Nat Bool)
    (h : pollsAlone r s a = true) : PollsAlone r s a := by
  cases a with
  | poller k =>
    intro numWc got head pending hp hc
    simpa [pollsAlone, hp, hc] using h
  | _ => trivial

/-- Two workers insert a completion each. -/
def insertTwo : List (SharedCqAct Nat Bool) :=
  [.call 0 ⟨.sq, { (default : DisWqe) with wrId := 5 }, .success⟩,
    .call 1 ⟨.rq, { (default : DisWqe) with wrId := 6 }, .success⟩] ++
    List.replicate 10 (.producer 0) ++ List.replicate 10 (.producer 1)

def sharedPolls (k : Bool) (n : Nat) : List (SharedCqAct Nat Bool) := List.replicate n (.poller k)

/-- Both polls load head; then one runs to its end before the other tests. -/
def inTurnPolls : List (SharedCqAct Nat Bool) :=
  insertTwo ++ [.poll true 1, .poller true, .poll false 1, .poller false] ++ sharedPolls true 8 ++
    sharedPolls false 8

theorem shared_eachOnce_inTurn :
    ((afterChecked (sharedCqStep fourSlots) (pollsAlone fourSlots) freshPolled
        inTurnPolls).returned.map fun p => (p.1, p.2.wrId)) = [(true, 5), (false, 6)] ∧
      EachOnce fourSlots (afterChecked (sharedCqStep fourSlots) (pollsAlone fourSlots) freshPolled
        inTurnPolls) :=
  ⟨by decide, shared_eachOnce fourSlots _
    (reach_afterChecked (pollsAlone_sound fourSlots) (reach_start freshPolled_init) inTurnPolls)⟩

/-- One poll is about to copy the first entry while the other returns both; then it goes on. -/
def overtakenPoll (n : Nat) : SharedCq Nat Bool :=
  afterActs (sharedCqStep fourSlots) freshPolled
    (insertTwo ++ .poll true 1 :: sharedPolls true 2 ++ .poll false 2 :: sharedPolls false 17 ++
      sharedPolls true n)

/-- The first entry is returned to both callers, and tail goes back to the second one. -/
theorem overtaken_twice :
    Reach SharedCqInit (Acts (sharedCqStep fourSlots) anyAct) (overtakenPoll 7) ∧
      ((overtakenPoll 7).returned.map fun p => (p.1, p.2.wrId)) =
        [(false, 5), (false, 6), (true, 5)] ∧
      (overtakenPoll 5).cq.tail = 2 ∧ (overtakenPoll 6).cq.tail = 1 ∧
      ¬ EachOnce fourSlots (overtakenPoll 7) := by
  have hreturned : (overtakenPoll 7).returned.length = 3 := by decide
  have hinserted : (overtakenPoll 7).cq.inserted.length = 2 := by decide
  refine ⟨reach_afterActs freshPolled_init _, by decide, by decide, by decide, fun h => ?_⟩
  have hle := h.inserted
  omega

end DisKverbs
