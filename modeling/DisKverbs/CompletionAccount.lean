import DisKverbs.Answered
import DisKverbs.CompletedOnce

namespace DisKverbs

open Answered CellProg CircBuf RingMachine StepSystem

section

variable {ι : Type} [DecidableEq ι] {r : RingSize} {s t : CqState ι} {me : ι}

def CallView.answer : CallView → List Int
  | .returned ret => [ret]
  | _ => []

/-- What the completion function answered to a producer, with the answer that is under way. -/
def CqState.answers (s : CqState ι) (me : ι) : List Int :=
  (s.rets.filter fun p => p.1 = me).map Prod.snd ++ (s.view me).answer

/-- The answer 0, the other one is -42. -/
def inserts (ret : Int) : Bool := ret = 0

/-- What a step of a completion queue means to the account of one of its producers. -/
inductive AnswerMove (me : ι) (s : CqState ι) : CqAct ι → CqState ι → Prop
  | keep {a t} : t.answers me = s.answers me → t.mine me = s.mine me → t.view me = s.view me →
      AnswerMove me s a t
  | call {call t} : t.answers me = s.answers me → t.mine me = s.mine me →
      s.view me = .quiet → t.view me = .running call → AnswerMove me s (.call me call) t
  | answer {call ret cqe t} : (ret = 0 ∨ ret = -42) → t.answers me = s.answers me ++ [ret] →
      t.mine me = s.mine me ++ (if inserts ret then [⟨me, call, cqe⟩] else []) →
      s.view me = .running call → t.view me = .returned ret → AnswerMove me s (.producer me) t
  | unlock {ret t} : t.answers me = s.answers me → t.mine me = s.mine me →
      s.view me = .returned ret → t.view me = .quiet → AnswerMove me s (.producer me) t

theorem view_returned {ret : Int} (h : s.view me = .returned ret) :
    ∃ call, s.holder = some (me, call, .unlock ret) := by
  have hwait : s.waitView me ≠ .returned ret := by
    unfold CqState.waitView
    split <;> simp
  cases hh : s.holder with
  | none =>
    rw [CqState.view, hh] at h
    exact absurd h hwait
  | some p =>
    obtain ⟨i, call, pc⟩ := p
    by_cases hi : i = me
    · subst hi
      rw [view_holder hh] at h
      cases pc with
      | unlock ret' =>
        cases h
        exact ⟨call, rfl⟩
      | _ => simp [HolderPc.view] at h
    · rw [view_other hh hi] at h
      exact absurd h hwait

/-- Only the exit of a call adds an answer, and nothing else happens to a call on its exit. -/
theorem CqMove.rets {a : CqAct ι} (h : CqMove r s a t) :
    (t.rets = s.rets ∧ ∀ i call ret, s.holder = some (i, call, .unlock ret) →
      t.holder = s.holder) ∨
    ∃ i call ret, s.holder = some (i, call, .unlock ret) ∧ a = .producer i ∧
      t = { s with holder := none, rets := s.rets ++ [(i, ret)] } := by
  cases h with
  | @unlock i call ret hh => exact .inr ⟨i, call, ret, hh, rfl, rfl⟩
  | lock hh _ | loadHead hh | full hh _ | reserve hh _ | load hh | store hh | ask hh | insert hh =>
    refine .inl ⟨rfl, fun i call ret he => ?_⟩
    rw [hh] at he
    cases he
  | _ => exact .inl ⟨rfl, fun _ _ _ _ => rfl⟩

theorem CqMove.inserted_one {a : CqAct ι} (h : CqMove r s a t) : t.inserted = s.inserted ∨
    ∃ i call cqe, s.view i = .running call ∧ t.inserted = s.inserted ++ [⟨i, call, cqe⟩] := by
  cases h with
  | insert hh => exact .inr ⟨_, _, _, view_holder hh, rfl⟩
  | _ => exact .inl rfl

theorem answers_eq (hr : t.rets = s.rets) (hv : (t.view me).answer = (s.view me).answer) :
    t.answers me = s.answers me := by
  rw [CqState.answers, CqState.answers, hr, hv]

theorem answers_next {ret : Int} {call : CqeCall} (hr : t.rets = s.rets)
    (hs : s.view me = .running call) (ht : t.view me = .returned ret) :
    t.answers me = s.answers me ++ [ret] := by
  rw [CqState.answers, CqState.answers, hr, hs, ht]
  simp [CallView.answer]

theorem CqMove.answer {a : CqAct ι} (hf : LockFree s) (h : CqMove r s a t) :
    AnswerMove me s a t := by
  rcases h.rets with ⟨hrets, hexit⟩ | ⟨i, call, ret, hh, rfl, rfl⟩
  · cases h.view hf with
    | other hview hmine => exact .keep (answers_eq hrets (by rw [hview])) hmine hview
    | call hquiet hrun hmine =>
      exact .call (answers_eq hrets (by rw [hquiet, hrun]; rfl)) hmine hquiet hrun
    | @full call head _ hh hs hret hmine =>
      have hrun : s.view me = .running call := view_holder hh
      have hnone : t.mine me = s.mine me ++
          (if inserts (-42) then [⟨me, call, default⟩] else []) := by
        rw [hmine]
        exact (List.append_nil _).symm
      exact .answer (.inr rfl) (answers_next hrets hrun hret) hnone hrun hret
    | insert hrun hret hmine =>
      exact .answer (.inl rfl) (answers_next hrets hrun hret) hmine hrun hret
    | unlock hret hquiet hmine =>
      obtain ⟨call, hh⟩ := view_returned hret
      have hsame := view_holder ((hexit _ _ _ hh).trans hh)
      rw [hquiet] at hsame
      cases hsame
  · by_cases hi : i = me
    · subst hi
      have hret : s.view i = .returned ret := view_holder hh
      have hquiet : ({ s with holder := none, rets := s.rets ++ [(i, ret)] } : CqState ι).view i =
          .quiet := by
        simp [CqState.view, CqState.waitView, hf i call _ hh]
      refine .unlock ?_ rfl hret hquiet
      rw [CqState.answers, CqState.answers, hret, hquiet]
      simp [CallView.answer]
    · have hview : ({ s with holder := none, rets := s.rets ++ [(i, ret)] } : CqState ι).view me =
          s.view me := (view_other hh hi).symm
      refine .keep ?_ rfl hview
      rw [CqState.answers, CqState.answers, hview]
      simp [hi]

end

section

variable {ι : Type} [DecidableEq ι] {cfg : WqCfg} {r : RingSize} {me : ι} {s t : PairState ι}

/-- Where a worker stands with its call, and the statuses it gave out so far, the one that was
answered but is not retired yet included. -/
inductive AccountPhase (me : ι) (s : PairState ι) : List IbWcStatus → Prop
  | quiet : (∀ status, s.wq.worker.stage ≠ .completed status) → s.called = false →
      s.cq.view me = .quiet → AccountPhase me s s.wq.retired
  | running {tail call} : s.wq.worker = .complete tail call.status → s.called = true →
      s.cq.view me = .running call → Reports s.wq.posted s.wq.retired.length call →
      AccountPhase me s s.wq.retired
  | returned {tail status} : s.wq.worker = .complete tail status → s.called = true →
      (∀ call, s.cq.view me ≠ .running call) → AccountPhase me s (s.wq.retired ++ [status])
  | completed {status} : s.wq.worker.stage = .completed status → s.called = false →
      s.cq.view me = .quiet → AccountPhase me s (s.wq.retired ++ [status])

/-- The entries of a worker are those of the WQEs for which its completion function answered 0, in
the order of posting. -/
structure Account (me : ι) (s : PairState ι) (statuses : List IbWcStatus) : Prop where
  length : (s.cq.answers me).length = statuses.length
  posted : statuses.length ≤ s.wq.posted.length
  answer : ∀ ret ∈ s.cq.answers me, ret = 0 ∨ ret = -42
  wqes : (s.cq.mine me).map (·.call.wqe.eraseLen) =
    answered inserts (s.wq.posted.map (·.wqe.eraseLen)) (s.cq.answers me)
  reports : reported (s.cq.mine me) = answered inserts statuses (s.cq.answers me)

theorem AccountPhase.length {statuses : List IbWcStatus} (hp : AccountPhase me s statuses) :
    statuses = s.wq.retired ∨ ∃ status, statuses = s.wq.retired ++ [status] := by
  cases hp with
  | quiet | running => exact .inl rfl
  | returned | completed => exact .inr ⟨_, rfl⟩

/-- A step of the work queue moves the worker on, but not what was answered. -/
theorem AccountPhase.wq {statuses : List IbWcStatus} (hp : AccountPhase me s statuses) {a : WqAct}
    {wq : WqState} (hs : wqStep cfg s.wq a = some wq)
    (hn : ∀ out, a = .worker out → ∀ tail status, s.wq.worker ≠ .complete tail status) :
    AccountPhase me { s with wq := wq } statuses := by
  by_cases ha : ∃ out, a = .worker out
  · obtain ⟨out, rfl⟩ := ha
    have hne := hn out rfl
    cases hp with
    | quiet hq hcall hv =>
      cases (workerStep_move hs).stage with
      | consume _ ht hret => rw [← hret]; exact .quiet ht hcall hv
      | complete h => exact absurd h (hne _ _)
      | free h => exact absurd h (hq _)
      | retire h => exact absurd h (hq _)
    | running h => exact absurd h (hne _ _)
    | returned h => exact absurd h (hne _ _)
    | completed hd hcall hv =>
      cases (workerStep_move hs).stage with
      | consume h => simp [hd] at h
      | complete h => exact absurd h (hne _ _)
      | free h ht hret =>
        cases hd.symm.trans h
        rw [← hret]
        exact .completed ht hcall hv
      | retire h ht hret =>
        cases hd.symm.trans h
        rw [← hret]
        exact .quiet (by simp [ht]) hcall hv
  · obtain ⟨hw, hret, es, hpost⟩ := wqStep_other (not_exists.mp ha) hs
    cases hp with
    | quiet hq hcall hv => rw [← hret]; exact .quiet (by rw [hw]; exact hq) hcall hv
    | running h hcall hv hrep =>
      rw [← hret]
      refine .running (hw.trans h) hcall hv ?_
      rw [hpost, hret]
      exact hrep.append es
    | returned h hcall hv => rw [← hret]; exact .returned (hw.trans h) hcall hv
    | completed h hcall hv => rw [← hret]; exact .completed (by rw [hw]; exact h) hcall hv

theorem Account.wq {statuses : List IbWcStatus} (hi : Account me s statuses) {wq : WqState}
    {called : Bool} (hpost : ∃ es, wq.posted = s.wq.posted ++ es) :
    Account me { s with wq := wq, called := called } statuses := by
  obtain ⟨es, hes⟩ := hpost
  have hposted := hi.posted
  refine ⟨hi.length, ?_, hi.answer, ?_, hi.reports⟩
  · show statuses.length ≤ wq.posted.length
    rw [hes, List.length_append]
    omega
  · show _ = answered inserts (wq.posted.map (·.wqe.eraseLen)) (s.cq.answers me)
    rw [hes, List.map_append, answered_left, hi.wqes]
    rw [List.length_map, hi.length]
    exact hposted

theorem Account.cq {statuses : List IbWcStatus} (hi : Account me s statuses) {cq : CqState ι}
    {called : Bool} (ha : cq.answers me = s.cq.answers me) (hm : cq.mine me = s.cq.mine me) :
    Account me { s with cq := cq, called := called } statuses := by
  refine ⟨?_, hi.posted, ?_, ?_, ?_⟩
  · show (cq.answers me).length = _
    rw [ha]
    exact hi.length
  · show ∀ ret ∈ cq.answers me, _
    rw [ha]
    exact hi.answer
  · show (cq.mine me).map _ = answered inserts _ (cq.answers me)
    rw [ha, hm]
    exact hi.wqes
  · show reported (cq.mine me) = answered inserts _ (cq.answers me)
    rw [ha, hm]
    exact hi.reports

/-- The answer to a call closes the account of one more WQE. -/
theorem Account.answered (hi : Account me s s.wq.retired) {cq : CqState ι} {call : CqeCall}
    {ret : Int} {cqe : DisCqe} (hret : ret = 0 ∨ ret = -42)
    (hrep : Reports s.wq.posted s.wq.retired.length call)
    (ha : cq.answers me = s.cq.answers me ++ [ret])
    (hm : cq.mine me = s.cq.mine me ++ if inserts ret then [⟨me, call, cqe⟩] else []) :
    Account me { s with cq := cq } (s.wq.retired ++ [call.status]) := by
  obtain ⟨p, hp, hwqe⟩ := hrep
  have hlt := (List.getElem?_eq_some_iff.mp hp).1
  have hlength := hi.length
  refine ⟨?_, ?_, ?_, ?_, ?_⟩
  · show (cq.answers me).length = _
    rw [ha, List.length_append, List.length_append, hlength]
    rfl
  · show _ ≤ s.wq.posted.length
    rw [List.length_append, List.length_singleton]
    omega
  · show ∀ ret ∈ cq.answers me, _
    rw [ha]
    intro ret' hmem
    rcases List.mem_append.mp hmem with hmem | hmem
    · exact hi.answer ret' hmem
    · rw [List.mem_singleton.mp hmem]
      exact hret
  · show (cq.mine me).map _ = Answered.answered inserts (s.wq.posted.map _) (cq.answers me)
    have hnext : (s.wq.posted.map (·.wqe.eraseLen))[(s.cq.answers me).length]? =
        some p.wqe.eraseLen := by
      rw [hlength, List.getElem?_map, hp]
      rfl
    rw [ha, hm, answered_next hnext, List.map_append, hi.wqes]
    congr 1
    split
    next => rw [← hwqe]; rfl
    next => rfl
  · show reported (cq.mine me) = Answered.answered inserts _ (cq.answers me)
    rw [ha, hm, answered_append hlength.symm, reported, List.map_append, ← reported, hi.reports]
    congr 1
    simp only [Answered.answered]
    split
    next => rfl
    next => rfl

def Accounted (me : ι) (s : PairState ι) : Prop :=
  ∃ statuses, AccountPhase me s statuses ∧ Account me s statuses

theorem Accounted.move (hi : Accounted me s) (hr : RingInv cfg.ring DisWqe.eraseLen s.wq.ring)
    (hf : LockFree s.cq) {a : PairAct ι} (h : PairMove cfg r me s a t) : Accounted me t := by
  obtain ⟨statuses, hp, hacc⟩ := hi
  cases h with
  | wq hs hn => exact ⟨statuses, hp.wq hs hn, hacc.wq (wqStep_posted hs)⟩
  | @back out wq tail status hw hcall hv hs =>
    have hm := workerStep_move hs
    have hposted : ∃ es, wq.posted = s.wq.posted ++ es := wqStep_posted (a := .worker out) hs
    refine ⟨statuses, ?_, ?_⟩
    · cases hp with
      | quiet _ hc => simp [hc] at hcall
      | running _ _ hv' => simp [hv'] at hv
      | returned hw' =>
        cases hw.symm.trans hw'
        have hstage : s.wq.worker.stage = .completing tail status := by
          rw [hw]
          rfl
        cases hm.stage with
        | consume hc => simp [hstage] at hc
        | free hc => simp [hstage] at hc
        | retire hc => simp [hstage] at hc
        | complete hw'' ht hret =>
          cases hw.symm.trans hw''
          rw [← hret]
          exact .completed ht rfl hv
      | completed _ hc => simp [hc] at hcall
    · exact hacc.wq hposted
  | @call tail status cq hw hcall hs =>
    have hhold : s.wq.worker.holds = some tail := by
      rw [hw]
      rfl
    have hquiet := (cqStep_move hs).call_view
    cases (cqStep_move hs).answer hf with
    | keep _ _ hview =>
      rw [hquiet.1, hquiet.2.1] at hview
      cases hview
    | call ha hm _ hrun =>
      refine ⟨statuses, ?_, hacc.cq ha hm⟩
      cases hp with
      | quiet => exact .running hw rfl hrun (held_reports hr hhold cfg.type status)
      | running _ hc => simp [hcall] at hc
      | returned _ hc => simp [hcall] at hc
      | completed hd => simp [hw, WorkerPc.stage] at hd
  | @cq a cq hne hs =>
    cases (cqStep_move hs).answer hf with
    | keep ha hm hview =>
      refine ⟨statuses, ?_, hacc.cq ha hm⟩
      cases hp with
      | quiet hq hcall hv => exact .quiet hq hcall (hview.trans hv)
      | running hw hcall hv hrep => exact .running hw hcall (hview.trans hv) hrep
      | returned hw hcall hv => exact .returned hw hcall (by rw [hview]; exact hv)
      | completed hd hcall hv => exact .completed hd hcall (hview.trans hv)
    | call => exact absurd rfl (hne _)
    | @answer call ret cqe _ hret ha hm hrun hview =>
      cases hp with
      | quiet _ _ hv => simp [hv] at hrun
      | running hw hcall hv hrep =>
        cases hrun.symm.trans hv
        exact ⟨_, .returned hw hcall (by simp [hview]), hacc.answered hret hrep ha hm⟩
      | returned _ _ hv => exact absurd hrun (hv _)
      | completed _ _ hv => simp [hv] at hrun
    | unlock ha hm hret hquiet =>
      refine ⟨statuses, ?_, hacc.cq ha hm⟩
      cases hp with
      | quiet _ _ hv => simp [hv] at hret
      | running _ _ hv => simp [hv] at hret
      | returned hw hcall _ => exact .returned hw hcall (by simp [hquiet])
      | completed _ _ hv => simp [hv] at hret

theorem reach_accounted {ok : PairState ι → PairAct ι → Prop}
    (h : Reach PairInit (Acts (pairStep cfg r me) ok) s) : Accounted me s := by
  apply h.invariant
  · rintro ⟨wq, cq, called⟩ ⟨rfl, rfl, rfl⟩
    refine ⟨[], .quiet (by simp [WorkerPc.stage]) rfl rfl, rfl, Nat.le_refl 0, ?_, rfl, rfl⟩
    simp [CqState.answers, CqState.view, CqState.waitView, CallView.answer]
  · rintro s t hs hi ⟨a, _, hstep⟩
    have hr := reach_wqRing (reach_pairWq hs)
    exact hi.move hr (reach_lockFree (reach_pairCq hs)) (pairStep_move hstep)

end

/-- A worker's account in every run, however full the completion queue is: each WQE it was done with
got one answer from its completion function, 0 or -42, and the entries of the worker are those of the
WQEs answered with 0, once each and in the order of posting, with the status of their retirement. -/
theorem reach_account {ι : Type} [DecidableEq ι] (cfg : WqCfg) (r : RingSize) (me : ι)
    (s : PairState ι) (h : Reach PairInit (Acts (pairStep cfg r me) anyAct) s) :
    ∃ statuses, (statuses = s.wq.retired ∨ ∃ status, statuses = s.wq.retired ++ [status]) ∧
      Account me s statuses ∧
      (s.cq.mine me).length = (s.cq.answers me).countP inserts := by
  obtain ⟨statuses, hp, hacc⟩ := reach_accounted h
  refine ⟨statuses, hp.length, hacc, ?_⟩
  have hlength := congrArg List.length hacc.reports
  rw [answered_length (Nat.le_of_eq hacc.length)] at hlength
  simpa [reported] using hlength

/-- The second of two completions found the queue full. -/
theorem reach_account_overflow :
    overflowPair.cq.answers 0 = [0, -42] ∧ overflowPair.wq.retired = [.success, .success] ∧
      ∃ statuses, (statuses = overflowPair.wq.retired ∨
          ∃ status, statuses = overflowPair.wq.retired ++ [status]) ∧
        Account 0 overflowPair statuses ∧
        (overflowPair.cq.mine 0).length = (overflowPair.cq.answers 0).countP inserts :=
  ⟨by decide, by decide,
    reach_account twoSlotSq twoSlots 0 overflowPair (reach_afterActs freshPair_init _)⟩

end DisKverbs
