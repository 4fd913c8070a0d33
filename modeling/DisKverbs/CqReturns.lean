import DisKverbs.AccessCount
import DisKverbs.CqView
import DisKverbs.OwnSteps

namespace DisKverbs

open CellProg CircBuf OwnSteps StepSystem

variable {ι : Type} [DecidableEq ι]

theorem copyCqe_loads : copyCqe.Loads 5 := fun _ _ _ _ _ => trivial

theorem disWqPostCqe_stores (type : DisWqType) (wqe : DisWqe) (st : IbWcStatus) :
    (disWqPostCqe type wqe st).Stores 5 := by
  rw [disWqPostCqe_eq]
  trivial

def CqAct.byPoller : CqAct ι → Bool
  | .poller => true
  | _ => false

def CqAct.byProducer (i : ι) : CqAct ι → Bool
  | .producer j => j = i
  | _ => false

/-- A poll for `numWc` entries has at most `n` accesses to make before its last one: eight for each
entry that it may still return. -/
def PollerPc.At (numWc : Int) (pc : PollerPc) (n : Nat) : Prop :=
  match pc with
  | .idle => False
  | .loop m got => m = numWc ∧ 8 * (numWc - got.length).toNat ≤ n
  | .gotHead m got _ _ =>
    m = numWc ∧ got.length < numWc ∧ 8 * (numWc - got.length).toNat ≤ n + 1
  | .copy m got _ prog => m = numWc ∧ got.length < numWc ∧
    ∃ k, prog.Loads k ∧ 8 * (numWc - got.length).toNat + k ≤ n + 7

def PollAt (polls : List PollResult) (numWc : Int) (s : CqState ι) (n : Nat) : Prop :=
  s.polls = polls ∧ s.poller.At numWc n

def PollDone (polls : List PollResult) (numWc : Int) (s : CqState ι) : Prop :=
  s.poller = .idle ∧ ∃ p, s.polls = polls ++ [p] ∧ p.numWc = numWc

/-- Where the holder of the lock is, by the accesses before the one that gives it back. -/
def HolderPc.At : HolderPc → Nat → Prop
  | .enter, n => 8 ≤ n
  | .gotHead _, n => 7 ≤ n
  | .fill _ prog, n => ∃ k, prog.Stores k ∧ k + 1 ≤ n
  | .unlock _, _ => True

def HoldAt (rets : List (ι × Int)) (i : ι) (s : CqState ι) (n : Nat) : Prop :=
  s.rets = rets ∧ s.waiting i = none ∧ ∃ call pc, s.holder = some (i, call, pc) ∧ pc.At n

def HoldDone (rets : List (ι × Int)) (i : ι) (s : CqState ι) : Prop :=
  s.holder = none ∧ s.waiting i = none ∧ ∃ ret, s.rets = rets ++ [(i, ret)]

section

variable {r : RingSize} {s t : CqState ι} {polls : List PollResult} {numWc : Int} {n : Nat}

theorem PollAt.poller (h : PollAt polls numWc s n) (hm : CqMove r s .poller t) :
    PollDone polls numWc t ∨ ∃ m, m < n ∧ PollAt polls numWc t m := by
  obtain ⟨hpolls, hat⟩ := h
  cases hm with
  | peek hp hlt =>
    rw [hp] at hat
    obtain ⟨rfl, hn⟩ := hat
    exact .inr ⟨n - 1, by omega, hpolls, rfl, hlt, by omega⟩
  | finish hp _ =>
    rw [hp] at hat
    exact .inl ⟨rfl, _, by rw [← hpolls], hat.1⟩
  | empty hp _ =>
    rw [hp] at hat
    exact .inl ⟨rfl, _, by rw [← hpolls], hat.1⟩
  | acquire hp _ =>
    rw [hp] at hat
    obtain ⟨rfl, hlt, hn⟩ := hat
    exact .inr ⟨n - 1, by omega, hpolls, rfl, hlt, 5, copyCqe_loads, by omega⟩
  | @copy m got tail k hp =>
    rw [hp] at hat
    obtain ⟨rfl, hlt, j, hk, hn⟩ := hat
    cases j with
    | zero => exact hk.elim
    | succ j => exact .inr ⟨n - 1, by omega, hpolls, rfl, hlt, j, hk _, by omega⟩
  | @release m got tail wc hp =>
    rw [hp] at hat
    obtain ⟨rfl, hlt, j, hk, hn⟩ := hat
    refine .inr ⟨n - 1, by omega, hpolls, rfl, ?_⟩
    simp only [List.length_append, List.length_singleton]
    omega

/-- What the others do is nothing to a poll. -/
theorem PollAt.other (h : PollAt polls numWc s n) {a : CqAct ι} (ha : a.byPoller = false)
    (hm : CqMove r s a t) : PollAt polls numWc t n := by
  cases hm with
  | poll hp =>
    have hat := h.2
    rw [hp] at hat
    exact hat.elim
  | peek | finish | empty | acquire | copy | release => simp [CqAct.byPoller] at ha
  | _ => exact h

theorem PollAt.free (h : PollAt polls numWc s n) : ∃ t, cqStep r s .poller = some t := by
  obtain ⟨_, hat⟩ := h
  show ∃ t, pollerStep r s = some t
  cases hp : s.poller with
  | idle =>
    rw [hp] at hat
    exact hat.elim
  | loop m got =>
    simp only [pollerStep, hp]
    split <;> exact ⟨_, rfl⟩
  | gotHead m got head pending =>
    simp only [pollerStep, hp]
    split <;> exact ⟨_, rfl⟩
  | copy m got tail prog =>
    rw [hp] at hat
    obtain ⟨_, _, k, hk, _⟩ := hat
    -- a copy only loads before it returns
    cases prog with
    | ret wc => exact ⟨_, by simp only [pollerStep, hp]; rfl⟩
    | load k => exact ⟨_, by simp only [pollerStep, hp]; rfl⟩
    | store | ask => exact hk.elim

theorem poll_bounded (r : RingSize) (polls : List PollResult) (numWc : Int) :
    Bounded (cqStep (ι := ι) r) CqAct.byPoller (PollAt polls numWc) (PollDone polls numWc) := by
  refine ⟨fun {s t a n} h ha hs => ?_, fun {s t a n} h ha hs => h.other ha (cqStep_move hs),
    fun {s n} h => ?_⟩
  · cases a with
    | poller => exact h.poller (cqStep_move hs)
    | call | producer | poll => simp [CqAct.byPoller] at ha
  · obtain ⟨t, ht⟩ := h.free (r := r)
    exact ⟨.poller, t, rfl, ht⟩

variable {rets : List (ι × Int)} {i : ι}

theorem HoldAt.mine (h : HoldAt rets i s n) (hm : CqMove r s (.producer i) t) :
    HoldDone rets i t ∨ ∃ m, m < n ∧ HoldAt rets i t m := by
  obtain ⟨hrets, hw, call, pc, hh, hat⟩ := h
  -- the lock is held, so its holder moves
  have mine : ∀ {call' pc'}, s.holder = some (i, call', pc') → call' = call ∧ pc' = pc := by
    intro call' pc' he
    cases he.symm.trans hh
    exact ⟨rfl, rfl⟩
  cases hm with
  | lock he => simp [hh] at he
  | loadHead he =>
    obtain ⟨rfl, rfl⟩ := mine he
    simp only [HolderPc.At] at hat
    exact .inr ⟨n - 1, by omega, hrets, hw, _, _, rfl, by simp only [HolderPc.At]; omega⟩
  | full he _ =>
    obtain ⟨rfl, rfl⟩ := mine he
    simp only [HolderPc.At] at hat
    exact .inr ⟨n - 1, by omega, hrets, hw, _, _, rfl, trivial⟩
  | reserve he _ =>
    obtain ⟨rfl, rfl⟩ := mine he
    simp only [HolderPc.At] at hat
    exact .inr ⟨n - 1, by omega, hrets, hw, _, _, rfl, 5, disWqPostCqe_stores .., by omega⟩
  | load he =>
    obtain ⟨rfl, rfl⟩ := mine he
    obtain ⟨k, hk, _⟩ := hat
    cases k <;> exact hk.elim
  | store he =>
    obtain ⟨rfl, rfl⟩ := mine he
    obtain ⟨k, hk, hn⟩ := hat
    cases k with
    | zero => exact hk.elim
    | succ k => exact .inr ⟨n - 1, by omega, hrets, hw, _, _, rfl, k, hk, by omega⟩
  | ask he =>
    obtain ⟨rfl, rfl⟩ := mine he
    obtain ⟨k, hk, _⟩ := hat
    cases k <;> exact hk.elim
  | insert he =>
    obtain ⟨rfl, rfl⟩ := mine he
    obtain ⟨k, _, hn⟩ := hat
    exact .inr ⟨n - 1, by omega, hrets, hw, _, _, rfl, trivial⟩
  | unlock he =>
    obtain ⟨rfl, rfl⟩ := mine he
    exact .inl ⟨rfl, hw, _, by rw [← hrets]⟩

theorem HoldAt.other (h : HoldAt rets i s n) {a : CqAct ι} (ha : a.byProducer i = false)
    (hm : CqMove r s a t) : HoldAt rets i t n := by
  obtain ⟨hrets, hw, call, pc, hh, hat⟩ := h
  -- nobody else can hold the lock, and the holder does not wait
  have other : ∀ {j call' pc'}, (CqAct.producer j : CqAct ι).byProducer i = false →
      s.holder ≠ some (j, call', pc') := by
    intro j call' pc' hj he
    cases he.symm.trans hh
    simp [CqAct.byProducer] at hj
  cases hm with
  | @wait j call' hj hne =>
    have hij : i ≠ j := by
      intro he
      subst he
      exact hne call pc hh
    exact ⟨hrets, (Function.update_of_ne hij ..).trans hw, call, pc, hh, hat⟩
  | lock he => simp [hh] at he
  | loadHead he | full he _ | reserve he _ | load he | store he | ask he | insert he | unlock he =>
    exact absurd he (other ha)
  | poll | peek | finish | empty | acquire | copy | release =>
    exact ⟨hrets, hw, call, pc, hh, hat⟩

theorem HoldAt.free (h : HoldAt rets i s n) : ∃ t, cqStep r s (.producer i) = some t := by
  obtain ⟨_, _, call, pc, hh, hat⟩ := h
  simp only [cqStep, hh, if_pos]
  unfold holderStep
  cases pc with
  | enter => exact ⟨_, rfl⟩
  | gotHead head => simp only; split <;> exact ⟨_, rfl⟩
  | fill head prog => cases prog <;> exact ⟨_, rfl⟩
  | unlock ret => exact ⟨_, rfl⟩

theorem hold_bounded (r : RingSize) (rets : List (ι × Int)) (i : ι) :
    Bounded (cqStep r) (CqAct.byProducer i) (HoldAt rets i) (HoldDone rets i) := by
  refine ⟨fun {s t a n} h ha hs => ?_, fun {s t a n} h ha hs => h.other ha (cqStep_move hs),
    fun {s n} h => ?_⟩
  · cases a with
    | producer j =>
      have hj : j = i := by simpa [CqAct.byProducer] using ha
      subst hj
      exact h.mine (cqStep_move hs)
    | call | poll | poller => simp [CqAct.byProducer] at ha
  · obtain ⟨t, ht⟩ := h.free (r := r)
    exact ⟨.producer i, t, by simp [CqAct.byProducer], ht⟩

theorem reach_holdAt {ok : CqState ι → CqAct ι → Prop} (h : Reach CqInit (Acts (cqStep r) ok) s)
    {call : CqeCall} {pc : HolderPc} (hh : s.holder = some (i, call, pc)) :
    HoldAt s.rets i s 8 := by
  have hinv : ∀ j call pc, s.holder = some (j, call, pc) → pc.At 8 := by
    apply h.invariant
    · intro s hi j call pc hh
      rw [hi] at hh
      cases hh
    · rintro s t _ hi ⟨a, _, hs⟩
      cases cqStep_move hs with
      | lock | loadHead | full | insert => intro j call pc he; cases he; simp [HolderPc.At]
      | reserve =>
        intro j call pc he
        cases he
        exact ⟨5, disWqPostCqe_stores .., by omega⟩
      | load he =>
        obtain ⟨k, hk, _⟩ := hi _ _ _ he
        cases k <;> exact hk.elim
      | store he =>
        intro j call pc he'
        cases he'
        obtain ⟨k, hk, hn⟩ := hi _ _ _ he
        cases k with
        | zero => exact hk.elim
        | succ k => exact ⟨k, hk, by omega⟩
      | ask he =>
        obtain ⟨k, hk, _⟩ := hi _ _ _ he
        cases k <;> exact hk.elim
      | unlock => intro j call pc he; cases he
      | _ => exact hi
  exact ⟨rfl, reach_lockFree h i call pc hh, call, pc, hh, hinv i call pc hh⟩

/-- The accesses of one producer leave the calls of the others waiting. -/
theorem producer_waiting {j : ι} (hne : i ≠ j) {as : List (CqAct ι)}
    (hown : ∀ a ∈ as, a.byProducer j = true) (hrun : runActs (cqStep r) s as = some t) :
    t.waiting i = s.waiting i := by
  induction as generalizing s with
  | nil => cases Option.some.inj hrun; rfl
  | cons a as ih =>
    simp only [runActs] at hrun
    split at hrun
    next u hu =>
      have hj := hown a (by simp)
      refine (ih (fun b hb => hown b (by simp [hb])) hrun).trans ?_
      cases cqStep_move hu with
      | @lock k call _ _ =>
        have hk : k = j := by simpa [CqAct.byProducer] using hj
        subst hk
        exact Function.update_of_ne hne ..
      | wait | poll | peek | finish | empty | acquire | copy | release =>
        simp [CqAct.byProducer] at hj
      | _ => rfl
    next => simp at hrun

theorem byProducer_producer {as : List (CqAct ι)} {j : ι}
    (hown : ∀ a ∈ as, a.byProducer j = true) : ∀ a ∈ as, ∃ k, a = .producer k := by
  intro a ha
  have hj := hown a ha
  cases a with
  | producer k => exact ⟨k, rfl⟩
  | call | poll | poller => simp [CqAct.byProducer] at hj

/-- A call that waits for a free lock takes it and returns. -/
theorem free_returns {call : CqeCall} (hh : s.holder = none) (hw : s.waiting i = some call) :
    ∃ as u ret, runActs (cqStep r) s as = some u ∧ as.length ≤ 10 ∧
      (∀ a ∈ as, ∃ j, a = .producer j) ∧ u.holder = none ∧ u.waiting i = none ∧
      u.rets = s.rets ++ [(i, ret)] := by
  let locked : CqState ι := { s with
    waiting := Function.update s.waiting i none, holder := some (i, call, .enter) }
  have hstep : cqStep r s (.producer i) = some locked := by simp only [cqStep, hh, hw]; rfl
  have hat : HoldAt s.rets i locked 8 :=
    ⟨rfl, Function.update_self .., call, .enter, rfl, Nat.le_refl 8⟩
  obtain ⟨as, u, hrun, ⟨hfree, hw', ret, hrets⟩, hown, hlen⟩ := (hold_bounded r s.rets i).alone hat
  refine ⟨.producer i :: as, u, ret, (runActs_cons hstep).trans hrun, ?_, ?_, hfree, hw', hrets⟩
  · simp only [List.length_cons]
    omega
  · intro a ha
    rcases List.mem_cons.mp ha with rfl | ha
    · exact ⟨i, rfl⟩
    · exact byProducer_producer hown a ha

/-- A call that waits for the lock is brought to its end by accesses to the locked code alone. -/
theorem waiting_returns (h : Reach CqInit (Acts (cqStep r) anyAct) s) {call : CqeCall}
    (hw : s.waiting i = some call) : ∃ as u rets ret,
    runActs (cqStep r) s as = some u ∧ as.length ≤ 19 ∧ (∀ a ∈ as, ∃ j, a = .producer j) ∧
      u.holder = none ∧ u.waiting i = none ∧ u.rets = s.rets ++ rets ++ [(i, ret)] := by
  cases hh : s.holder with
  | none =>
    obtain ⟨as, u, ret, hrun, hlen, hown, hfree, hw', hrets⟩ := free_returns (r := r) hh hw
    exact ⟨as, u, [], ret, hrun, by omega, hown, hfree, hw', by rw [hrets, List.append_nil]⟩
  | some p =>
    obtain ⟨j, call', pc⟩ := p
    have hat := reach_holdAt h hh
    have hne : i ≠ j := by
      intro he
      subst he
      simp [hat.2.1] at hw
    obtain ⟨as, v, hrun, ⟨hfree, _, ret', hrets'⟩, hown, hlen⟩ :=
      (hold_bounded r s.rets j).alone hat
    have hw' := (producer_waiting hne hown hrun).trans hw
    obtain ⟨bs, u, ret, hrun', hlen', hown', hfree', hdone, hrets⟩ := free_returns hfree hw'
    refine ⟨as ++ bs, u, [(j, ret')], ret, (runActs_append hrun).trans hrun', ?_, ?_, hfree',
      hdone, by rw [hrets, hrets']⟩
    · rw [List.length_append]
      omega
    · intro a ha
      rcases List.mem_append.mp ha with ha | ha
      · exact byProducer_producer hown a ha
      · exact hown' a ha

end

/-- In every run a poll for `numWc` entries returns after `8 · numWc + 1` accesses of its own at the
latest, whatever the producers do in between, and until then it can always make the next one. -/
theorem poll_returns (r : RingSize) (s : CqState ι) (numWc : Int)
    (hp : s.poller = .loop numWc []) (as : List (CqAct ι)) (t : CqState ι)
    (hrun : runActs (cqStep r) s as = some t) :
    EndsWithin (cqStep r) CqAct.byPoller (PollDone s.polls numWc) (8 * numWc.toNat + 1) s as t := by
  have hat : PollAt s.polls numWc s (8 * numWc.toNat) := by
    refine ⟨rfl, ?_⟩
    rw [hp]
    exact ⟨rfl, by simp⟩
  exact (poll_bounded r s.polls numWc).ends hat hrun

/-- One entry is inserted, and a poll for it begins. -/
def begunPoll : CqState Nat :=
  afterActs (cqStep twoSlots) freshCq
    (.call 0 ⟨.sq, default, .success⟩ :: List.replicate 10 (.producer 0) ++ [.poll 1])

/-- Another producer comes while the poll is under way. -/
def onePollActs : List (CqAct Nat) :=
  List.replicate 4 .poller ++ .call 1 ⟨.rq, default, .success⟩ :: List.replicate 3 (.producer 1) ++
    List.replicate 5 .poller

theorem poll_returns_one :
    (afterActs (cqStep twoSlots) begunPoll onePollActs).polls.length = begunPoll.polls.length + 1 ∧
      EndsWithin (cqStep twoSlots) CqAct.byPoller (PollDone begunPoll.polls 1) (8 * 1 + 1) begunPoll
        onePollActs (afterActs (cqStep twoSlots) begunPoll onePollActs) :=
  ⟨by decide, poll_returns twoSlots begunPoll 1 rfl onePollActs _ (runActs_afterActs (by decide))⟩

/-- Whoever gets the lock of a completion queue gives it back after nine accesses of its own at the
latest, whatever the others do, and is never blocked until then; and from wherever the queue is, a
call that waits for the lock can be brought to its end by accesses to the locked code alone, with no
poll. -/
structure CallsReturn (r : RingSize) (s : CqState ι) : Prop where
  held : ∀ i call, s.holder = some (i, call, .enter) → s.waiting i = none →
    ∀ as t, runActs (cqStep r) s as = some t →
      EndsWithin (cqStep r) (CqAct.byProducer i) (HoldDone s.rets i) 9 s as t
  waiting : ∀ i call, s.waiting i = some call → ∃ as u rets ret,
    runActs (cqStep r) s as = some u ∧ as.length ≤ 19 ∧ (∀ a ∈ as, ∃ j, a = .producer j) ∧
      u.holder = none ∧ u.waiting i = none ∧ u.rets = s.rets ++ rets ++ [(i, ret)]

/-- The lock of a completion queue is held for a bounded time, and nothing but the code under it
stands between a waiting call and its return: a full ring does not, and polls are not needed. -/
theorem reach_callsReturn (r : RingSize) (s : CqState ι)
    (h : Reach CqInit (Acts (cqStep r) anyAct) s) : CallsReturn r s := by
  refine ⟨fun i call hh hw as t hrun => ?_, fun i call hw => waiting_returns h hw⟩
  have hat : HoldAt s.rets i s 8 := ⟨rfl, hw, call, .enter, hh, Nat.le_refl 8⟩
  exact (hold_bounded r s.rets i).ends hat hrun

/-- One producer holds the lock and another one waits for it. -/
def heldCq : CqState Nat :=
  afterActs (cqStep twoSlots) freshCq
    ([.call 0 ⟨.sq, default, .success⟩, .call 1 ⟨.rq, default, .success⟩, .producer 0])

theorem reach_callsReturn_held : heldCq.waiting 1 = some ⟨.rq, default, .success⟩ ∧
    CallsReturn twoSlots heldCq :=
  ⟨rfl, reach_callsReturn twoSlots heldCq (reach_afterActs freshCq_init _)⟩

end DisKverbs
