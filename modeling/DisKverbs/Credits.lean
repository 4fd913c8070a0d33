import DisKverbs.PolledCompletions
import Mathlib.Algebra.BigOperators.Group.Finset.Piecewise
import Mathlib.Algebra.Order.BigOperators.Group.Finset

namespace DisKverbs

open Answered CellProg CircBuf RingMachine StepSystem

/-- The WRs that a queue has accepted, and the one that is being posted. -/
def WqState.requested (s : WqState) : Nat :=
  s.posted.length +
    match s.poster with
    | .idle => 0
    | _ => 1

def QpsAct.starts (i : QueueId) : QpsAct → Nat
  | .queue j (.start _) => if j = i then 1 else 0
  | _ => 0

section

variable (cfg : QpsCfg) (used : Finset QueueId)

def QpsCfg.usersOf (c : Nat) : Finset QueueId := used.filter fun i => cfg.cqOf i = c

/-- What was asked of the queues in use that complete to one completion queue. -/
def Qps.requested (s : Qps) (c : Nat) : Nat := ∑ i ∈ cfg.usersOf used c, (s.wq i).requested

/-- What the consumer keeps to: before a post to one of the queues in use, the completion queue has
room for one completion more than those that polls have not returned yet. -/
def Credited (s : Qps) : QpsAct → Prop
  | .queue i (.start _) => i ∈ used ∧
      s.requested cfg used (cfg.cqOf i) + 1 <
        (s.cq (cfg.cqOf i)).polled.length + (cfg.cqRing (cfg.cqOf i)).size
  | _ => True

structure CreditInv (s : Qps) : Prop where
  unused : ∀ i, i ∉ used → (s.wq i).requested = 0
  room : ∀ c, s.requested cfg used c < (s.cq c).polled.length + (cfg.cqRing c).size

end

section

variable {cfg : WqCfg} {s t : WqState}

theorem requested_start {req : PostReq} (h : wqStep cfg s (.start req) = some t) :
    t.requested = s.requested + 1 := by
  obtain ⟨hidle, rfl⟩ := wqStep_start h
  simp only [WqState.requested, hidle]

theorem PosterMove.requested (h : PosterMove cfg s t) : t.requested ≤ s.requested := by
  cases h with
  | publish hp =>
    simp only [WqState.requested, hp, List.length_append, List.length_singleton]
    omega
  | full hp | reserve hp | load hp | store hp | noMem hp | alloc _ hp | abandon hp =>
    simp only [WqState.requested, hp]
    omega

theorem wqStep_requested {a : WqAct} (ha : ∀ req, a ≠ .start req) (h : wqStep cfg s a = some t) :
    t.requested ≤ s.requested := by
  cases a with
  | start req => exact absurd rfl (ha req)
  | poster buf => exact (posterStep_move h).requested
  | worker out =>
    obtain ⟨hposter, hposted, _⟩ := (workerStep_move h).frame
    rw [WqState.requested, WqState.requested, hposter, hposted]
  | stop =>
    cases Option.some.inj h
    exact Nat.le_refl _

end

section

variable {cfg : QpsCfg} {used : Finset QueueId} {s t : Qps}

theorem queueStep_wq {j : QueueId} {byWorker : Bool} {a : PairAct QueueId}
    (h : queueStep cfg s j byWorker a = some t) (i : QueueId) : t.wq i = s.wq i ∨
      j = i ∧ ∃ b, a = .wq b ∧ wqStep (cfg.wq i) (s.wq i) b = some (t.wq i) := by
  unfold queueStep at h
  split at h
  next =>
    split at h
    next =>
      obtain ⟨u, hu, rfl⟩ := Option.map_eq_some_iff.mp h
      by_cases hi : i = j
      · subst hi
        have hwq : (s.setPair cfg i u).wq i = u.wq := by simp [Qps.setPair]
        rw [hwq]
        cases pairStep_move hu with
        | wq hq _ => exact .inr ⟨rfl, _, rfl, hq⟩
        | @back out _ _ _ _ _ _ hq => exact .inr ⟨rfl, .worker out, rfl, hq⟩
        | call | cq => exact .inl rfl
      · exact .inl (by simp [Qps.setPair, hi])
    next => simp at h
  next => simp at h

/-- A queue goes on by itself, and starts a post only when it is told to. -/
theorem qpsStep_wq {a : QpsAct} (h : qpsStep cfg s a = some t) (i : QueueId) : t.wq i = s.wq i ∨
    ∃ b, wqStep (cfg.wq i) (s.wq i) b = some (t.wq i) ∧
      ∀ req, b = .start req → a = .queue i (.start req) := by
  cases a with
  | queue j b =>
    rcases queueStep_wq h i with hsame | ⟨rfl, b', hb, hstep⟩
    · exact .inl hsame
    · cases hb
      exact .inr ⟨b, hstep, fun req hreq => by rw [hreq]⟩
  | complete j =>
    rcases queueStep_wq h i with hsame | ⟨_, b, hb, _⟩
    · exact .inl hsame
    · cases hb
  | create q =>
    simp only [qpsStep] at h
    split at h
    next => cases Option.some.inj h; exact .inl rfl
    next => simp at h
  | start j =>
    simp only [qpsStep] at h
    split at h
    next => cases Option.some.inj h; exact .inl rfl
    next => simp at h
  | cq c b =>
    cases b with
    | call => simp [qpsStep] at h
    | producer | poll | poller =>
      obtain ⟨cq, _, rfl⟩ := Option.map_eq_some_iff.mp h
      exact .inl rfl
  | destroy q =>
    simp only [qpsStep] at h
    split at h
    next =>
      split at h
      next => cases Option.some.inj h; exact .inl rfl
      next => simp at h
    next => simp at h

theorem requested_step {a : QpsAct} (h : qpsStep cfg s a = some t) (i : QueueId) :
    (t.wq i).requested ≤ (s.wq i).requested + a.starts i := by
  rcases qpsStep_wq h i with hsame | ⟨b, hb, hstart⟩
  · rw [hsame]
    omega
  · by_cases hs : ∃ req, b = .start req
    · obtain ⟨req, rfl⟩ := hs
      rw [requested_start hb, hstart req rfl]
      simp [QpsAct.starts]
    · have hle := wqStep_requested (not_exists.mp hs) hb
      omega

theorem sum_starts (S : Finset QueueId) (a : QpsAct) : ∑ i ∈ S, a.starts i ≤ 1 := by
  by_cases ha : ∃ j req, a = .queue j (.start req)
  · obtain ⟨j, req, rfl⟩ := ha
    simp only [QpsAct.starts, Finset.sum_ite_eq]
    split <;> omega
  · have hzero : ∑ i ∈ S, a.starts i = 0 := by
      refine Finset.sum_eq_zero fun i _ => ?_
      unfold QpsAct.starts
      split
      next j req => exact absurd ⟨j, req, rfl⟩ ha
      next => rfl
    omega

theorem CqMove.polled {ι : Type} [DecidableEq ι] {r : RingSize} {s t : CqState ι} {a : CqAct ι}
    (h : CqMove r s a t) : s.polled <+: t.polled := by
  cases h with
  | finish | empty =>
    simp only [CqState.polled, List.flatMap_append]
    exact List.prefix_append _ _
  | _ => exact List.prefix_refl _

theorem qpsStep_polled {a : QpsAct} (h : qpsStep cfg s a = some t) (c : Nat) :
    (s.cq c).polled <+: (t.cq c).polled := by
  rcases (qpsStep_move h).cqStep c with hsame | ⟨b, _, hq⟩
  · rw [hsame]
  · exact (cqStep_move hq).polled

theorem CreditInv.step (hi : CreditInv cfg used s) {a : QpsAct} (hok : Credited cfg used s a)
    (h : qpsStep cfg s a = some t) : CreditInv cfg used t := by
  constructor
  · intro i hno
    have hle := requested_step h i
    have hzero := hi.unused i hno
    have hnot : a.starts i = 0 := by
      unfold QpsAct.starts
      split
      next j req =>
        have hne : j ≠ i := by
          rintro rfl
          exact hno hok.1
        rw [if_neg hne]
      next => rfl
    omega
  · intro c
    have hsum : t.requested cfg used c ≤
        s.requested cfg used c + ∑ i ∈ cfg.usersOf used c, a.starts i := by
      rw [Qps.requested, Qps.requested, ← Finset.sum_add_distrib]
      exact Finset.sum_le_sum fun i _ => requested_step h i
    have hpolled := (qpsStep_polled h c).length_le
    by_cases ha : ∃ j req, a = .queue j (.start req) ∧ cfg.cqOf j = c
    · obtain ⟨j, req, rfl, rfl⟩ := ha
      have hone := sum_starts (cfg.usersOf used (cfg.cqOf j)) (.queue j (.start req))
      have hroom := hok.2
      omega
    · have hnone : ∑ i ∈ cfg.usersOf used c, a.starts i = 0 := by
        refine Finset.sum_eq_zero fun i hmem => ?_
        unfold QpsAct.starts
        split
        next j req =>
          refine if_neg ?_
          rintro rfl
          exact ha ⟨j, req, rfl, (Finset.mem_filter.mp hmem).2⟩
        next => rfl
      have hroom := hi.room c
      omega

theorem reach_credit (h : Reach QpsInit (Acts (qpsStep cfg) (Credited cfg used)) s) :
    Reach QpsInit (Acts (qpsStep cfg) anyAct) s ∧ CreditInv cfg used s := by
  apply h.invariant
  · intro s hs
    have hzero (i : QueueId) : (s.wq i).requested = 0 := by
      rw [(hs.1 i).1]
      rfl
    refine ⟨reach_start hs, fun i _ => hzero i, fun c => ?_⟩
    have hsum : s.requested cfg used c = 0 := Finset.sum_eq_zero fun i _ => hzero i
    have hsize := (cfg.cqRing c).size_pos
    omega
  · rintro s t _ ⟨hany, hi⟩ ⟨a, hok, hs⟩
    exact ⟨hany.next ⟨a, trivial, hs⟩, hi.step hok hs⟩

theorem posted_requested (s : WqState) : s.posted.length ≤ s.requested := Nat.le_add_right ..

/-- The poller has released what its polls returned. -/
theorem polled_taken (h : Reach QpsInit (Acts (qpsStep cfg) anyAct) s) (c : Nat) :
    (s.cq c).polled.length ≤ (s.cq c).taken := by
  have hcopied := congrArg List.length (reach_cqPoll (reach_qpsCq h c)).copied
  rw [List.length_append, List.length_map, List.length_take] at hcopied
  have hlen : (s.cq c).polled.length = ((s.cq c).polls.flatMap PollResult.wcs).length := rfl
  omega

/-- A queue has at most one entry for each WR it accepted. -/
theorem mine_posted (h : Reach QpsInit (Acts (qpsStep cfg) anyAct) s) (i : QueueId) :
    ((s.cq (cfg.cqOf i)).mine i).length ≤ (s.wq i).posted.length := by
  obtain ⟨statuses, _, hacc⟩ := reach_accounted (reach_pair h i)
  have hlen := (answered_sublist inserts ((s.pair cfg i).wq.posted.map (·.wqe.eraseLen))
    ((s.pair cfg i).cq.answers i)).length_le
  rw [← hacc.wqes, List.length_map, List.length_map] at hlen
  exact hlen

/-- There is none yet for the WQE that is reported. -/
theorem running_posted (h : Reach QpsInit (Acts (qpsStep cfg) anyAct) s) {i : QueueId}
    {call : CqeCall} (hrun : (s.cq (cfg.cqOf i)).view i = .running call) :
    ((s.cq (cfg.cqOf i)).mine i).length < (s.wq i).posted.length := by
  obtain ⟨statuses, hp, hacc⟩ := reach_accounted (reach_pair h i)
  have hview : (s.pair cfg i).cq.view i = .running call := hrun
  have hlen := (answered_sublist inserts statuses ((s.pair cfg i).cq.answers i)).length_le
  rw [← hacc.reports, reported, List.length_map] at hlen
  cases hp with
  | quiet _ _ hv => simp [hv] at hview
  | running _ _ _ hrep =>
    obtain ⟨p, hp, _⟩ := hrep
    have hlt := (List.getElem?_eq_some_iff.mp hp).1
    exact Nat.lt_of_le_of_lt hlen hlt
  | returned _ _ hv => exact absurd hview (hv call)
  | completed _ _ hv => simp [hv] at hview

/-- The entries of a completion queue are those of the queues in use. -/
theorem inserted_sum (h : Reach QpsInit (Acts (qpsStep cfg) anyAct) s) (hi : CreditInv cfg used s)
    (c : Nat) :
    (s.cq c).inserted.length = ∑ i ∈ cfg.usersOf used c, ((s.cq c).mine i).length := by
  have hmem : ∀ i ∈ (↑((s.cq c).inserted.map Inserted.producer) : Multiset QueueId),
      i ∈ cfg.usersOf used c := by
    intro i hin
    obtain ⟨e, he, rfl⟩ := List.mem_map.mp (Multiset.mem_coe.mp hin)
    refine Finset.mem_filter.mpr ⟨?_, reach_insertedBy h c e he⟩
    by_contra hno
    obtain ⟨p, hp, _⟩ := inserted_posted h he
    have hzero := hi.unused e.producer hno
    have hpos := List.length_pos_of_mem hp
    have hle := posted_requested (s.wq e.producer)
    omega
  have hsum := Multiset.sum_count_eq_card hmem
  rw [Multiset.coe_card, List.length_map] at hsum
  rw [← hsum]
  refine Finset.sum_congr rfl fun i _ => ?_
  rw [Multiset.coe_count, CqState.mine, ← List.countP_eq_length_filter]
  refine List.countP_map.trans (List.countP_congr fun e _ => ?_)
  simp

theorem CreditInv.hasRoom (hi : CreditInv cfg used s)
    (h : Reach QpsInit (Acts (qpsStep cfg) anyAct) s) {c head : Nat} {i : QueueId} {call : CqeCall}
    (hh : (s.cq c).holder = some (i, call, .gotHead head)) :
    ¬ circSpace head (s.cq c).tail (cfg.cqRing c).size < 1 := by
  have hrun : (s.cq c).view i = .running call := view_holder hh
  have hc := reach_attached h c i call hrun
  subst hc
  have hlt := running_posted h hrun
  have hmem : i ∈ cfg.usersOf used (cfg.cqOf i) := by
    refine Finset.mem_filter.mpr ⟨?_, rfl⟩
    by_contra hno
    have hzero := hi.unused i hno
    have hle := posted_requested (s.wq i)
    omega
  have hsum : (s.cq (cfg.cqOf i)).inserted.length < s.requested cfg used (cfg.cqOf i) := by
    rw [inserted_sum h hi]
    refine Finset.sum_lt_sum (fun j hj => ?_) ⟨i, hmem, Nat.lt_of_lt_of_le hlt (posted_requested _)⟩
    have hj := (Finset.mem_filter.mp hj).2
    rw [← hj]
    exact (mine_posted h j).trans (posted_requested _)
  have hring := reach_cqRing (reach_qpsCq h (cfg.cqOf i))
  have hhead : head = (s.cq (cfg.cqOf i)).inserted.length % (cfg.cqRing (cfg.cqOf i)).size := by
    refine (hring.prod_head head (holder_prod hh)).trans (hring.head_eq.trans ?_)
    simp [CqState.ring]
  have htail : (s.cq (cfg.cqOf i)).tail =
      (s.cq (cfg.cqOf i)).taken % (cfg.cqRing (cfg.cqOf i)).size :=
    hring.tail_eq
  have hle := taken_le_inserted hring
  have hpolled := polled_taken h (cfg.cqOf i)
  have hroom := hi.room (cfg.cqOf i)
  rw [hhead, htail, circSpace_mod _ hle (by omega)]
  omega

/-- Every insertion is answered with 0. -/
theorem answers_unrefused (hi : CreditInv cfg used s)
    (h : Reach QpsInit (Acts (qpsStep cfg) anyAct) s) {i : QueueId}
    (hall : ∀ ret ∈ (s.cq (cfg.cqOf i)).answers i, ret = 0) {a : QpsAct}
    (hs : qpsStep cfg s a = some t) : ∀ ret ∈ (t.cq (cfg.cqOf i)).answers i, ret = 0 := by
  rcases (qpsStep_move hs).cqStep (cfg.cqOf i) with hsame | ⟨b, _, hq⟩
  · rw [hsame]
    exact hall
  · have hmove := cqStep_move hq
    have hf := reach_lockFree (reach_qpsCq h (cfg.cqOf i))
    cases hmove.answer hf with
    | keep ha | call ha | unlock ha =>
      rw [ha]
      exact hall
    | answer hret ha _ hrun hview =>
      rw [ha]
      intro ret' hmem
      rcases List.mem_append.mp hmem with hmem | hmem
      · exact hall ret' hmem
      rw [List.mem_singleton.mp hmem]
      rcases hret with hzero | rfl
      · exact hzero
      -- only a full test makes the answer -42
      have hv : ViewMove (cfg.cqRing (cfg.cqOf i)) i (s.cq (cfg.cqOf i)) _ _ := hmove.view hf
      cases hv with
      | other hsame => simp [hrun, hview] at hsame
      | full hh hs => exact absurd hs (hi.hasRoom h hh)
      | insert _ hzero => simp [hview] at hzero
      | unlock hret => simp [hret] at hrun

theorem reach_unrefused (h : Reach QpsInit (Acts (qpsStep cfg) (Credited cfg used)) s) (i : QueueId) :
    ∀ ret ∈ (s.cq (cfg.cqOf i)).answers i, ret = 0 := by
  apply h.invariant
  · intro s hs
    rw [hs.2.1 (cfg.cqOf i)]
    simp [CqState.answers, CqState.view, CqState.waitView, CallView.answer]
  · rintro s t hreach hall ⟨a, _, hstep⟩
    obtain ⟨hany, hi⟩ := reach_credit hreach
    exact answers_unrefused hi hany hall hstep

/-- An account without a refused insertion. -/
theorem Account.pairInv {ι : Type} [DecidableEq ι] {me : ι} {s : PairState ι}
    {statuses : List IbWcStatus} (hacc : Account me s statuses) (hp : AccountPhase me s statuses)
    (hall : ∀ ret ∈ s.cq.answers me, inserts ret = true) : PairInv me s := by
  have hlen := hacc.length
  have hrep : reported (s.cq.mine me) = statuses := by
    rw [hacc.reports, answered_all hall (Nat.le_of_eq hlen), hlen, List.take_length]
  refine ⟨fun k e he => ?_, ?_⟩
  · have hwqes : (s.cq.mine me).map (·.call.wqe.eraseLen) =
        (s.wq.posted.map (·.wqe.eraseLen)).take (s.cq.answers me).length := by
      rw [hacc.wqes, answered_all hall]
      rw [hlen, List.length_map]
      exact hacc.posted
    have hk := congrArg (·[k]?) hwqes
    simp only [List.getElem?_map, he, Option.map_some, List.getElem?_take] at hk
    split at hk
    next =>
      obtain ⟨p, hp, heq⟩ := Option.map_eq_some_iff.mp hk.symm
      exact ⟨p, hp, heq.symm⟩
    next => simp at hk
  · cases hp with
    | quiet hq hcall hv => exact .quiet hq hcall hv hrep
    | running hw hcall hv hreports => exact .running hw hcall hv hreports hrep
    | returned hw hcall hv => exact .returned hw hcall hv hrep
    | completed hd hcall hv => exact .completed hd hcall hv hrep

theorem mine_answers (h : Reach QpsInit (Acts (qpsStep cfg) anyAct) s) {i : QueueId}
    (hall : ∀ ret ∈ (s.cq (cfg.cqOf i)).answers i, inserts ret = true) :
    ((s.cq (cfg.cqOf i)).mine i).length = ((s.cq (cfg.cqOf i)).answers i).length := by
  obtain ⟨statuses, _, hacc⟩ := reach_accounted (reach_pair h i)
  have hrep := congrArg List.length hacc.reports
  rw [reported, List.length_map, answered_length (Nat.le_of_eq hacc.length)] at hrep
  exact hrep.trans (List.countP_eq_length.mpr hall)

/-- What is polled for a queue whose insertions were all answered with 0 begins its accepted WRs. -/
theorem polled_posted (h : Reach QpsInit (Acts (qpsStep cfg) anyAct) s) {i : QueueId}
    (hall : ∀ ret ∈ (s.cq (cfg.cqOf i)).answers i, inserts ret = true) :
    ((s.cq (cfg.cqOf i)).polled.filter (·.isOf i)).map IbWc.wrId <+:
      (s.wq i).posted.map fun p => p.req.wr.wrId.toUInt32.toUInt64 := by
  obtain ⟨statuses, _, hacc⟩ := reach_accounted (reach_pair h i)
  have hlen : ((s.cq (cfg.cqOf i)).answers i).length ≤ (s.wq i).posted.length :=
    (Nat.le_of_eq hacc.length).trans hacc.posted
  have hwqes : ((s.cq (cfg.cqOf i)).mine i).map (·.call.wqe.eraseLen) =
      ((s.wq i).posted.map (·.wqe.eraseLen)).take ((s.cq (cfg.cqOf i)).answers i).length := by
    refine hacc.wqes.trans (answered_all hall ?_)
    rw [List.length_map]
    exact hlen
  have hids : ((s.cq (cfg.cqOf i)).mine i).map (IbWc.wrId ∘ Inserted.wc) =
      (((s.cq (cfg.cqOf i)).mine i).map (·.call.wqe.eraseLen)).map (·.wrId.toUInt64) := by
    rw [List.map_map]
    rfl
  have hpre := ((reach_polled (c := cfg.cqOf i) h).filter (·.isOf i)).map IbWc.wrId
  rw [mine_wcs h, List.map_map, hids, hwqes] at hpre
  rw [posted_ids h]
  exact hpre.trans ((List.take_prefix _ _).map _)

end

/-- A consumer that counts its credits loses nothing: while it never has more WRs outstanding than
the completion queue has room for, however many queues share that, no insertion finds it full,
every retired WQE has its completion, and the ids that polls return for a queue are the low halves
of those of the WRs it accepted, in order and without a gap. -/
theorem reach_credited (cfg : QpsCfg) (used : Finset QueueId) (s : Qps)
    (h : Reach QpsInit (Acts (qpsStep cfg) (Credited cfg used)) s) (i : QueueId) :
    (∀ ret ∈ (s.cq (cfg.cqOf i)).answers i, ret = 0) ∧ CompletedOnce i (s.pair cfg i) ∧
      ((s.cq (cfg.cqOf i)).polled.filter (·.isOf i)).map IbWc.wrId <+:
        (s.wq i).posted.map fun p => p.req.wr.wrId.toUInt32.toUInt64 := by
  have hany := (reach_credit h).1
  have hserved := reach_unrefused h i
  have hall : ∀ ret ∈ (s.cq (cfg.cqOf i)).answers i, inserts ret = true :=
    fun ret hret => decide_eq_true (hserved ret hret)
  obtain ⟨statuses, hp, hacc⟩ := reach_accounted (reach_pair hany i)
  have hfill := reach_cqFill (reach_qpsCq hany (cfg.cqOf i))
  exact ⟨hserved, (hacc.pairInv hp hall).completedOnce hfill, polled_posted hany hall⟩

/-- `Credited`, as a test of the state before the step. -/
def credited (cfg : QpsCfg) (used : Finset QueueId) (s : Qps) : QpsAct → Bool
  | .queue i (.start _) => decide (i ∈ used ∧ s.requested cfg used (cfg.cqOf i) + 1 <
      (s.cq (cfg.cqOf i)).polled.length + (cfg.cqRing (cfg.cqOf i)).size)
  | _ => true

theorem credited_sound (cfg : QpsCfg) (used : Finset QueueId) (s : Qps) (a : QpsAct)
    (h : credited cfg used s a = true) : Credited cfg used s a := by
  unfold credited at h
  split at h
  next =>
    have hk := of_decide_eq_true h
    exact hk
  next hne =>
    unfold Credited
    split
    next => exact absurd rfl (hne _ _)
    next => trivial

/-- The completion of the first send is polled before the second one is posted. -/
def creditedQps : Qps := afterChecked (qpsStep oneCq) (credited oneCq {(7, .sq)}) freshQps
  ([.create 7, .start (7, .sq)] ++ sendQpsActs 10 ++
    .cq 0 (.poll 1) :: List.replicate 9 (.cq 0 .poller) ++ sendQpsActs 10)

theorem creditedQps_reach :
    Reach QpsInit (Acts (qpsStep oneCq) (Credited oneCq {(7, .sq)})) creditedQps :=
  reach_afterChecked (credited_sound oneCq _) (reach_start freshQps_init) _

theorem reach_credited_polled :
    (creditedQps.wq (7, .sq)).retired = [.success, .success] ∧
      (∀ ret ∈ (creditedQps.cq (oneCq.cqOf (7, .sq))).answers (7, .sq), ret = 0) ∧
      CompletedOnce (7, .sq) (creditedQps.pair oneCq (7, .sq)) ∧
      ((creditedQps.cq (oneCq.cqOf (7, .sq))).polled.filter (·.isOf (7, .sq))).map IbWc.wrId <+:
        (creditedQps.wq (7, .sq)).posted.map fun p => p.req.wr.wrId.toUInt32.toUInt64 :=
  ⟨by decide, reach_credited oneCq {(7, .sq)} creditedQps creditedQps_reach (7, .sq)⟩

end DisKverbs
