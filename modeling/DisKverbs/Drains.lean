import DisKverbs.CompletionAccount
import DisKverbs.CqReturns
import DisKverbs.PolledCompletions
import DisKverbs.WorkerProgress

namespace DisKverbs

open CircBuf OwnSteps StepSystem

section

variable {ι : Type}

def CqAct.byProducers : CqAct ι → Bool
  | .producer _ => true
  | _ => false

/-- The accesses of a worker and of the code under the lock of its completion queue. -/
def PairAct.serves : PairAct ι → Bool
  | .wq (.worker _) | .call | .cq (.producer _) => true
  | _ => false

variable [DecidableEq ι] {r : RingSize} {me : ι}

theorem view_quiet {s : CqState ι} (hh : s.holder = none) (hw : s.waiting me = none) :
    s.view me = .quiet := by
  simp [CqState.view, CqState.waitView, hh, hw]

/-- Wherever a producer is in its completion function, it can come out of it without a poll. -/
theorem cq_quiets {s : CqState ι} (h : Reach CqInit (Acts (cqStep r) anyAct) s) (me : ι) :
    ∃ t, LeadsTo (cqStep r) CqAct.byProducers s t ∧ t.view me = .quiet := by
  have producers {as : List (CqAct ι)} (hown : ∀ a ∈ as, ∃ j, a = .producer j) :
      ∀ a ∈ as, a.byProducers = true := by
    intro a ha
    obtain ⟨j, rfl⟩ := hown a ha
    rfl
  cases hw : s.waiting me with
  | some call =>
    obtain ⟨as, u, rets, ret, hrun, _, hown, hfree, hw', _⟩ := waiting_returns h hw
    exact ⟨u, ⟨as, hrun, producers hown⟩, view_quiet hfree hw'⟩
  | none =>
    cases hh : s.holder with
    | none => exact ⟨s, leadsTo_refl s, view_quiet hh hw⟩
    | some p =>
      obtain ⟨j, call, pc⟩ := p
      by_cases hj : j = me
      · subst hj
        obtain ⟨as, u, hrun, ⟨hfree, hw', _⟩, hown, _⟩ :=
          (hold_bounded r s.rets j).alone (reach_holdAt h hh)
        exact ⟨u, ⟨as, hrun, producers (byProducer_producer hown)⟩, view_quiet hfree hw'⟩
      · refine ⟨s, leadsTo_refl s, ?_⟩
        rw [view_other hh hj, CqState.waitView, hw]

/-- A producer that is not in its completion function can call it. -/
theorem call_enabled {s : CqState ι} (call : CqeCall) (h : s.view me = .quiet) :
    ∃ t, cqStep r s (.call me call) = some t := by
  have hwait (hv : s.waitView me = .quiet) : s.waiting me = none := by
    unfold CqState.waitView at hv
    split at hv
    next => cases hv
    next hw => exact hw
  cases hh : s.holder with
  | none =>
    have hw := hwait (by simpa [CqState.view, hh] using h)
    exact ⟨_, by simp only [cqStep, hw, hh]; rfl⟩
  | some p =>
    obtain ⟨j, call', pc⟩ := p
    have hj : j ≠ me := by
      rintro rfl
      rw [view_holder hh] at h
      cases pc <;> cases h
    have hw := hwait (by rw [← view_other hh hj]; exact h)
    exact ⟨_, by simp only [cqStep, hw, hh, if_neg hj]; rfl⟩

variable {cfg : WqCfg} {s t : PairState ι}

theorem pair_quiets (h : Reach PairInit (Acts (pairStep cfg r me) anyAct) s) :
    ∃ t, LeadsTo (pairStep cfg r me) PairAct.serves s t ∧ t.wq = s.wq ∧ t.called = s.called ∧
      t.cq.view me = .quiet := by
  obtain ⟨cq, hcq, hquiet⟩ := cq_quiets (reach_pairCq h) me
  have hstep (cq cq' : CqState ι) (a : CqAct ι) (u : PairState ι) (hu : u = { s with cq := cq })
      (ha : a.byProducers = true) (hs : cqStep r cq a = some cq') :
      ∃ v, LeadsTo (pairStep cfg r me) PairAct.serves u v ∧ v = { s with cq := cq' } := by
    subst hu
    cases a with
    | producer j =>
      exact ⟨_, leadsTo_one (a := .cq (.producer j)) rfl (by simp [pairStep, hs]), rfl⟩
    | call | poll | poller => simp [CqAct.byProducers] at ha
  obtain ⟨t, ht, rfl⟩ :
      ∃ t, LeadsTo (pairStep cfg r me) PairAct.serves s t ∧ t = { s with cq := cq } :=
    hcq.lift (fun cq u => u = { s with cq := cq }) hstep rfl
  exact ⟨_, ht, rfl, rfl, hquiet⟩

/-- A worker that reports a WQE gets its answer, however full the completion queue is. -/
theorem pair_reported (h : Reach PairInit (Acts (pairStep cfg r me) anyAct) s) {tail : Nat}
    {status : IbWcStatus} (hw : s.wq.worker = .complete tail status) :
    ∃ t, LeadsTo (pairStep cfg r me) PairAct.serves s t ∧ t.wq = s.wq ∧ t.called = true ∧
      t.cq.view me = .quiet := by
  cases hcalled : s.called with
  | true =>
    obtain ⟨t, ht, hwq, hc, hquiet⟩ := pair_quiets h
    exact ⟨t, ht, hwq, hc.trans hcalled, hquiet⟩
  | false =>
    obtain ⟨statuses, hphase, _⟩ := reach_accounted h
    have hquiet : s.cq.view me = .quiet := by
      cases hphase with
      | quiet _ _ hv => exact hv
      | running _ hc => simp [hcalled] at hc
      | returned _ hc => simp [hcalled] at hc
      | completed hd => simp [hw, WorkerPc.stage] at hd
    obtain ⟨cq, hcq⟩ := call_enabled (r := r) ⟨cfg.type, s.wq.slots tail, status⟩ hquiet
    have hstep : pairStep cfg r me s .call = some { s with cq := cq, called := true } := by
      simp [pairStep, hw, hcalled, hcq]
    obtain ⟨t, ht, hwq, hc, hquiet'⟩ := pair_quiets (h.next ⟨.call, trivial, hstep⟩)
    exact ⟨t, (leadsTo_one rfl hstep).trans ht, hwq, hc, hquiet'⟩

/-- What a worker does by itself it can do together with its completion queue. -/
theorem pair_worker (h : Reach PairInit (Acts (pairStep cfg r me) anyAct) s) {out : Option UInt32}
    {q : WqState} (hs : workerStep cfg out s.wq = some q) :
    ∃ t, LeadsTo (pairStep cfg r me) PairAct.serves s t ∧ t.wq = q := by
  cases hw : s.wq.worker with
  | complete tail status =>
    obtain ⟨t, ht, hwq, hcalled, hquiet⟩ := pair_reported h hw
    have hback : pairStep cfg r me t (.wq (.worker out)) =
        some { t with wq := q, called := false } := by
      simp [pairStep, hwq, hw, hcalled, hquiet, hs]
    exact ⟨_, ht.trans (leadsTo_one rfl hback), rfl⟩
  | _ =>
    have hstep : pairStep cfg r me s (.wq (.worker out)) = some { s with wq := q } := by
      simp [pairStep, hw, hs]
    exact ⟨_, leadsTo_one rfl hstep, rfl⟩

theorem pair_runs (h : Reach PairInit (Acts (pairStep cfg r me) anyAct) s) {q : WqState}
    (hrun : WorkerRuns cfg s.wq q) :
    ∃ t, LeadsTo (pairStep cfg r me) PairAct.serves s t ∧ t.wq = q := by
  induction hrun with
  | refl => exact ⟨s, leadsTo_refl s, rfl⟩
  | @tail q q' _ hstep ih =>
    obtain ⟨out, hs⟩ := hstep
    obtain ⟨t, ht, rfl⟩ := ih
    obtain ⟨u, hu, huq⟩ := pair_worker (ht.reach h) hs
    exact ⟨u, ht.trans hu, huq⟩

end

section

variable {cfg : WqCfg} {q q' : WqState}

theorem WorkerRuns.posted (h : WorkerRuns cfg q q') : q'.posted = q.posted := by
  induction h with
  | refl => rfl
  | tail _ hs ih =>
    obtain ⟨out, hs⟩ := hs
    exact (workerStep_move hs).frame.2.1.trans ih

theorem WorkerRuns.reach (h : WorkerRuns cfg q q')
    (hq : Reach WqInit (Acts (wqStep cfg) anyAct) q) :
    Reach WqInit (Acts (wqStep cfg) anyAct) q' := by
  induction h with
  | refl => exact hq
  | tail _ hs ih =>
    obtain ⟨out, hs⟩ := hs
    exact ih.next ⟨.worker out, trivial, hs⟩

/-- From the top of its loop a worker can retire all that was posted. -/
theorem runs_drained (hq : Reach WqInit (Acts (wqStep cfg) anyAct) q) (hw : q.worker = .top)
    (hs : q.shouldStop = false) : ∃ q', WorkerRuns cfg q q' ∧ q'.worker = .top ∧
      q'.shouldStop = false ∧ q'.retired.length = q'.posted.length := by
  have hbounds := wqBounds (reach_wqRing hq)
  -- by induction on the number of WQEs that are left
  induction hn : q.posted.length - q.retired.length generalizing q with
  | zero =>
    have hle := hbounds.le
    exact ⟨q, .refl, hw, hs, by omega⟩
  | succ n ih =>
    have hcnt : ¬ circCnt q.head q.tail cfg.ring.size < 1 := by
      rw [hbounds.head, hbounds.tail, circCnt_mod cfg.ring hbounds.le hbounds.room]
      omega
    obtain ⟨q', hrun, hw', hs', hlen⟩ := serves_one hw hcnt hs
    have hposted := congrArg List.length hrun.posted
    have hq' := hrun.reach hq
    obtain ⟨q'', hrun', hend⟩ := ih hq' hw' hs' (wqBounds (reach_wqRing hq')) (by omega)
    exact ⟨q'', hrun.trans hrun', hend⟩

end

/-- The accesses of the worker of one queue and of the code under the lock of its completion queue:
nobody polls or posts, and no other worker moves on. -/
def QpsAct.serves (cfg : QpsCfg) (i : QueueId) : QpsAct → Bool
  | .queue j (.worker _) => j = i
  | .complete j => j = i
  | .cq c (.producer _) => c = cfg.cqOf i
  | _ => false

section

variable {cfg : QpsCfg} {s t : Qps} {i : QueueId}

/-- A queue of a live QP, beside the others as they are in `s`. -/
structure Beside (cfg : QpsCfg) (s : Qps) (i : QueueId) (p : PairState QueueId) (u : Qps) :
    Prop where
  pair : u.pair cfg i = p
  live : u.stage i.1 = .live
  started : u.started i = true
  rest : ∀ j, j ≠ i → u.wq j = s.wq j

theorem Beside.setPair {p q : PairState QueueId} {u : Qps} (h : Beside cfg s i p u) :
    Beside cfg s i q (u.setPair cfg i q) := by
  refine ⟨pair_setPair_self u i q, h.live, h.started, fun j hj => ?_⟩
  exact (Function.update_of_ne hj ..).trans (h.rest j hj)

theorem Beside.queue {p q : PairState QueueId} {u : Qps} (h : Beside cfg s i p u) {byWorker : Bool}
    {a : PairAct QueueId}
    (hs : pairStep (cfg.wq i) (cfg.cqRing (cfg.cqOf i)) i p a = some q) :
    queueStep cfg u i byWorker a = some (u.setPair cfg i q) := by
  rw [← h.pair] at hs
  simp [queueStep, h.live, h.started, hs]

/-- A queue with its completion queue can go on among the others. -/
theorem Beside.step {p q : PairState QueueId} {a : PairAct QueueId} {u : Qps}
    (h : Beside cfg s i p u) (ha : a.serves = true)
    (hs : pairStep (cfg.wq i) (cfg.cqRing (cfg.cqOf i)) i p a = some q) :
    ∃ v, LeadsTo (qpsStep cfg) (QpsAct.serves cfg i) u v ∧ Beside cfg s i q v := by
  cases a with
  | wq a =>
    cases a with
    | worker out =>
      exact ⟨_, leadsTo_one (a := .queue i (.worker out)) (by simp [QpsAct.serves]) (h.queue hs),
        h.setPair⟩
    | start | poster | stop => simp [PairAct.serves] at ha
  | call =>
    exact ⟨_, leadsTo_one (a := .complete i) (by simp [QpsAct.serves]) (h.queue hs), h.setPair⟩
  | cq a =>
    cases a with
    | producer j =>
      obtain ⟨cq, hcq, rfl⟩ := Option.map_eq_some_iff.mp hs
      rw [← h.pair] at hcq
      have hstep : qpsStep cfg u (.cq (cfg.cqOf i) (.producer j)) =
          some { u with cq := Function.update u.cq (cfg.cqOf i) cq } := by
        simp only [qpsStep]
        exact Option.map_eq_some_iff.mpr ⟨cq, hcq, rfl⟩
      refine ⟨_, leadsTo_one (by simp [QpsAct.serves]) hstep, ?_, h.live, h.started, h.rest⟩
      rw [← h.pair]
      simp [Qps.pair]
    | call | poll | poller => simp [PairAct.serves] at ha

/-- A worker that runs and was not told to stop can come to the top of its loop with everything
retired that was posted. -/
theorem qps_drained (h : Reach QpsInit (Acts (qpsStep cfg) anyAct) s) (hlive : s.stage i.1 = .live)
    (hon : s.started i = true) (hw : (s.wq i).worker ≠ .exited) (hs : (s.wq i).shouldStop = false) :
    ∃ t, LeadsTo (qpsStep cfg) (QpsAct.serves cfg i) s t ∧ (t.wq i).posted = (s.wq i).posted ∧
      (t.wq i).worker = .top ∧ (t.wq i).retired.length = (s.wq i).posted.length ∧
      ∀ j, j ≠ i → t.wq j = s.wq j := by
  have hpair := reach_pair h i
  have hwq := reach_pairWq hpair
  obtain ⟨n, q, hrun, htop, hgo, _⟩ := serves_some hw hs
  obtain ⟨q', hrun', htop', _, hall⟩ := runs_drained (hrun.reach hwq) htop hgo
  have hposted : q'.posted = (s.wq i).posted := hrun'.posted.trans hrun.posted
  obtain ⟨p, hp, hpq⟩ := pair_runs hpair (hrun.trans hrun')
  obtain ⟨t, ht, hbeside⟩ := hp.lift (Beside cfg s i) (fun _ _ _ _ hb => hb.step)
    ⟨rfl, hlive, hon, fun _ _ => rfl⟩
  have htq : t.wq i = q' := (congrArg PairState.wq hbeside.pair).trans hpq
  refine ⟨t, ht, ?_, ?_, ?_, hbeside.rest⟩
  · rw [htq, hposted]
  · rw [htq, htop']
  · rw [htq, hall, hposted]

/-- At the top of its loop a worker has an answer for each WQE it retired. -/
theorem top_answers (h : Reach QpsInit (Acts (qpsStep cfg) anyAct) s)
    (htop : (s.wq i).worker = .top) :
    ((s.cq (cfg.cqOf i)).answers i).length = (s.wq i).retired.length := by
  obtain ⟨statuses, hphase, hacc⟩ := reach_accounted (reach_pair h i)
  have hanswers : ((s.cq (cfg.cqOf i)).answers i).length = statuses.length := hacc.length
  have hstatuses : statuses = (s.wq i).retired := by
    cases hphase with
    | quiet | running => rfl
    | returned hw => simp [Qps.pair, htop] at hw
    | completed hd => simp [Qps.pair, htop, WorkerPc.stage] at hd
  rw [hanswers, hstatuses]

end

/-- From every state that QPs and completion queues reach together, a worker that runs and was not
told to stop can retire all that was posted to its queue, with an answer to each of its completions:
full completion queues do not block it, nor does another queue that is in their lock, and it takes no
poll and no progress of other workers. -/
theorem reach_drains (cfg : QpsCfg) (s : Qps) (h : Reach QpsInit (Acts (qpsStep cfg) anyAct) s)
    (i : QueueId) (hlive : s.stage i.1 = .live) (hon : s.started i = true)
    (hw : (s.wq i).worker ≠ .exited) (hs : (s.wq i).shouldStop = false) :
    ∃ t, LeadsTo (qpsStep cfg) (QpsAct.serves cfg i) s t ∧ (t.wq i).posted = (s.wq i).posted ∧
      (t.wq i).retired.length = (s.wq i).posted.length ∧
      ((t.cq (cfg.cqOf i)).answers i).length = (s.wq i).posted.length ∧
      ∀ j, j ≠ i → t.wq j = s.wq j := by
  obtain ⟨t, ht, hposted, htop, hretired, hrest⟩ := qps_drained h hlive hon hw hs
  exact ⟨t, ht, hposted, hretired, (top_answers (ht.reach h) htop).trans hretired, hrest⟩

/-- The completion queue is full, and one more WQE was posted. -/
def fullCqQps : Qps := afterActs (qpsStep oneCq) freshQps
  ([.create 7, .start (7, .sq)] ++ sendQpsActs 10 ++ (postActs emptyWr 11).map (.queue (7, .sq)))

theorem reach_drains_full :
    (fullCqQps.wq (7, .sq)).posted.length = 2 ∧ (fullCqQps.wq (7, .sq)).retired.length = 1 ∧
      circSpace (fullCqQps.cq 0).head (fullCqQps.cq 0).tail twoSlots.size = 0 ∧
      ∃ t, LeadsTo (qpsStep oneCq) (QpsAct.serves oneCq (7, .sq)) fullCqQps t ∧
        (t.wq (7, .sq)).posted = (fullCqQps.wq (7, .sq)).posted ∧
        (t.wq (7, .sq)).retired.length = (fullCqQps.wq (7, .sq)).posted.length ∧
        ((t.cq 0).answers (7, .sq)).length = (fullCqQps.wq (7, .sq)).posted.length ∧
        ∀ j, j ≠ (7, .sq) → t.wq j = fullCqQps.wq j := by
  have htop : (fullCqQps.wq (7, .sq)).worker = .top := rfl
  exact ⟨by decide, by decide, by decide, reach_drains oneCq fullCqQps
    (reach_afterActs freshQps_init _) (7, .sq) rfl (by decide) (by simp [htop]) (by decide)⟩

end DisKverbs
