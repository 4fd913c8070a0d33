import DisKverbs.Credits
import DisKverbs.Drains

namespace DisKverbs

open CellProg CircBuf OwnSteps RingMachine StepSystem

section

variable {ι : Type} {r : RingSize} {s t : CqState ι}

def CqAct.byPolls : CqAct ι → Bool
  | .poll _ | .poller => true
  | _ => false

/-- A poll that was asked for all the `n` entries that were there, while nobody inserts. -/
def TakesAll (n : Nat) (s : CqState ι) : Prop :=
  match s.poller with
  | .idle => s.taken = s.inserted.length
  | .loop m got => m = n ∧ s.taken + n = s.inserted.length + got.length
  | .gotHead m got head _ =>
    m = n ∧ s.taken + n = s.inserted.length + got.length ∧ head = s.head
  | .copy m got _ _ => m = n ∧ s.taken + n = s.inserted.length + got.length

/-- A copy under way only loads what is left of the entry. -/
def Copying (s : CqState ι) : Prop :=
  ∀ m got tail prog, s.poller = .copy m got tail prog → ∃ k, prog.Loads k

variable [DecidableEq ι]

theorem TakesAll.poller {n : Nat} (h : TakesAll n s) (hr : RingInv r id s.ring) (hp : CqPoll r s)
    (hm : CqMove r s .poller t) : TakesAll n t := by
  have hle := taken_le_inserted hr
  cases hm with
  | peek hpc _ =>
    rw [TakesAll, hpc] at h
    exact ⟨h.1, h.2, rfl⟩
  | finish hpc hlt =>
    rw [TakesAll, hpc] at h
    obtain ⟨rfl, hsum⟩ := h
    have hgot := hp.loop _ _ hpc
    show s.taken = s.inserted.length
    omega
  | empty hpc hs =>
    rw [TakesAll, hpc] at h
    obtain ⟨_, _, rfl⟩ := h
    have hroom : s.inserted.length < s.taken + r.size := by simpa [CqState.ring] using hr.room
    have hhead : s.head = s.inserted.length % r.size := by simpa [CqState.ring] using hr.head_eq
    have htail : s.tail = s.taken % r.size := hr.tail_eq
    rw [hhead, htail, circCnt_mod r hle hroom] at hs
    show s.taken = s.inserted.length
    omega
  | acquire hpc _ =>
    rw [TakesAll, hpc] at h
    exact ⟨h.1, h.2.1⟩
  | copy hpc =>
    rw [TakesAll, hpc] at h
    exact h
  | @release m got tail wc hpc =>
    rw [TakesAll, hpc] at h
    refine ⟨h.1, ?_⟩
    have hsum := h.2
    show s.taken + 1 + n = s.inserted.length + (got ++ [wc]).length
    rw [List.length_append, List.length_singleton]
    omega

theorem Copying.move {a : CqAct ι} (h : Copying s) (hm : CqMove r s a t) : Copying t := by
  cases hm with
  | poll | peek | finish | empty | release => simp [Copying]
  | acquire =>
    intro m got tail prog hpc
    cases hpc
    exact ⟨5, copyCqe_loads⟩
  | @copy m got tail k hp =>
    intro m' got' tail' prog hpc
    cases hpc
    obtain ⟨j, hk⟩ := h _ _ _ _ hp
    cases j with
    | zero => exact hk.elim
    | succ j => exact ⟨j, hk _⟩
  | _ => exact h

theorem reach_copying (h : Reach CqInit (Acts (cqStep r) anyAct) s) : Copying s := by
  apply h.invariant
  · rintro s rfl
    simp [Copying]
  · rintro s t _ hi ⟨a, _, hs⟩
    exact hi.move (cqStep_move hs)

/-- A poll under way comes to its end. -/
theorem reach_pollAt (h : Reach CqInit (Acts (cqStep r) anyAct) s) (hp : s.poller ≠ .idle) :
    ∃ numWc n, PollAt s.polls numWc s n := by
  have hpoll := reach_cqPoll h
  cases hpc : s.poller with
  | idle => exact absurd hpc hp
  | loop m got =>
    refine ⟨m, 8 * (m - got.length).toNat, rfl, ?_⟩
    rw [hpc]
    exact ⟨rfl, Nat.le_refl _⟩
  | gotHead m got head pending =>
    refine ⟨m, 8 * (m - got.length).toNat, rfl, ?_⟩
    rw [hpc]
    exact ⟨rfl, (hpoll.peeked _ _ _ _ hpc).1, Nat.le_succ _⟩
  | copy m got tail prog =>
    obtain ⟨k, hk⟩ := reach_copying h _ _ _ _ hpc
    refine ⟨m, 8 * (m - got.length).toNat + k, rfl, ?_⟩
    rw [hpc]
    exact ⟨rfl, (hpoll.copy _ _ _ _ hpc).1, k, hk, by omega⟩

omit [DecidableEq ι] in
theorem byPoller_polls (a : CqAct ι) (ha : a.byPoller = true) : a.byPolls = true := by
  cases a with
  | poller => rfl
  | call | producer | poll => simp [CqAct.byPoller] at ha

theorem poller_stops (h : Reach CqInit (Acts (cqStep r) anyAct) s) :
    ∃ t, LeadsTo (cqStep r) CqAct.byPoller s t ∧ t.poller = .idle := by
  by_cases hp : s.poller = .idle
  · exact ⟨s, leadsTo_refl s, hp⟩
  · obtain ⟨numWc, n, hat⟩ := reach_pollAt h hp
    obtain ⟨as, u, hrun, hdone, hown, _⟩ := (poll_bounded r s.polls numWc).alone hat
    exact ⟨u, ⟨as, hrun, hown⟩, hdone.1⟩

/-- Polls alone can return everything that was inserted. -/
theorem polls_all (h : Reach CqInit (Acts (cqStep r) anyAct) s) :
    ∃ t, LeadsTo (cqStep r) CqAct.byPolls s t ∧ t.polled.length = t.inserted.length := by
  obtain ⟨u, hu, hidle⟩ := poller_stops h
  have hreach := hu.reach h
  have hle := taken_le_inserted (reach_cqRing hreach)
  let n := u.inserted.length - u.taken
  have hpoll : cqStep r u (.poll n) = some { u with poller := .loop n [] } := by
    simp only [cqStep, hidle]
  have hat : PollAt u.polls n { u with poller := .loop n [] } (8 * n) := by
    refine ⟨rfl, rfl, ?_⟩
    simp
  obtain ⟨as, t, hrun, hdone, hown, _⟩ := (poll_bounded r u.polls n).alone hat
  have hbegun : Reach CqInit (Acts (cqStep r) anyAct) { u with poller := .loop n [] } ∧
      TakesAll n { u with poller := .loop n [] } := by
    refine ⟨hreach.next ⟨.poll n, trivial, hpoll⟩, rfl, ?_⟩
    show u.taken + (u.inserted.length - u.taken) = u.inserted.length + 0
    omega
  have hrest : LeadsTo (cqStep r) CqAct.byPoller { u with poller := .loop n [] } t :=
    ⟨as, hrun, hown⟩
  have hkeep : Reach CqInit (Acts (cqStep r) anyAct) t ∧ TakesAll n t := by
    refine hrest.keeps (P := fun v => Reach CqInit (Acts (cqStep r) anyAct) v ∧ TakesAll n v)
      (fun v w a hv ha hs => ?_) hbegun
    cases a with
    | poller =>
      exact ⟨hv.1.next ⟨.poller, trivial, hs⟩,
        hv.2.poller (reach_cqRing hv.1) (reach_cqPoll hv.1) (cqStep_move hs)⟩
    | call | producer | poll => simp [CqAct.byPoller] at ha
  have htaken : t.taken = t.inserted.length := by
    have hall := hkeep.2
    rw [TakesAll, hdone.1] at hall
    exact hall
  have hcopied := congrArg List.length (reach_cqPoll hkeep.1).copied
  rw [hdone.1, htaken, List.take_length] at hcopied
  refine ⟨t, (hu.wider byPoller_polls).trans ((leadsTo_one rfl hpoll).trans
    (hrest.wider byPoller_polls)), ?_⟩
  simpa [CqState.polled, PollerPc.got] using hcopied

end

section

variable {cfg : QpsCfg} {used : Finset QueueId} {s t : Qps} {i : QueueId}

/-- The accesses that retire the WQEs of one queue, and the polls of its completion queue. -/
def QpsAct.delivers (cfg : QpsCfg) (i : QueueId) : QpsAct → Bool
  | .cq c a => c = cfg.cqOf i && (QpsAct.serves cfg i (.cq c a) || a.byPolls)
  | a => QpsAct.serves cfg i a

theorem serves_delivers (a : QpsAct) (ha : QpsAct.serves cfg i a = true) :
    QpsAct.delivers cfg i a = true := by
  cases a with
  | cq c a =>
    cases a with
    | producer j =>
      have hc : c = cfg.cqOf i := of_decide_eq_true ha
      simp [QpsAct.delivers, QpsAct.serves, hc]
    | call | poll | poller => simp [QpsAct.serves] at ha
  | _ => exact ha

/-- None of them posts anything. -/
theorem delivers_credited (s : Qps) (a : QpsAct) (ha : QpsAct.delivers cfg i a = true) :
    Credited cfg used s a := by
  unfold Credited
  split
  next => simp [QpsAct.delivers, QpsAct.serves] at ha
  next => trivial

theorem qps_polls (h : Reach QpsInit (Acts (qpsStep cfg) anyAct) s) (i : QueueId) :
    ∃ t, LeadsTo (qpsStep cfg) (QpsAct.delivers cfg i) s t ∧ t.wq = s.wq ∧
      (t.cq (cfg.cqOf i)).polled.length = (t.cq (cfg.cqOf i)).inserted.length := by
  obtain ⟨cq, hcq, hall⟩ := polls_all (reach_qpsCq h (cfg.cqOf i))
  have hstep (q q' : CqState QueueId) (a : CqAct QueueId) (u : Qps)
      (hu : u.cq (cfg.cqOf i) = q ∧ u.wq = s.wq) (ha : a.byPolls = true)
      (hs : cqStep (cfg.cqRing (cfg.cqOf i)) q a = some q') :
      ∃ v, LeadsTo (qpsStep cfg) (QpsAct.delivers cfg i) u v ∧
        v.cq (cfg.cqOf i) = q' ∧ v.wq = s.wq := by
    rw [← hu.1] at hs
    have hown : QpsAct.delivers cfg i (.cq (cfg.cqOf i) a) = true := by
      simp [QpsAct.delivers, ha]
    have hq : qpsStep cfg u (.cq (cfg.cqOf i) a) =
        some { u with cq := Function.update u.cq (cfg.cqOf i) q' } := by
      cases a with
      | call | producer => simp [CqAct.byPolls] at ha
      | poll | poller => simp only [qpsStep, hs, Option.map_some]
    exact ⟨_, leadsTo_one hown hq, Function.update_self .., hu.2⟩
  obtain ⟨t, ht, htcq, hwq⟩ := hcq.lift
    (fun q (u : Qps) => u.cq (cfg.cqOf i) = q ∧ u.wq = s.wq) hstep ⟨rfl, rfl⟩
  refine ⟨t, ht, hwq, ?_⟩
  rw [htcq]
  exact hall

end

/-- While a consumer counts its credits, every accepted WR can be completed and polled: from every
state, by the worker of the queue (which runs and was not told to stop), the code under the lock of
its completion queue and polls, with no further post and no other worker, the ids that polls
returned for the queue become the low halves of those of all WRs it accepted. -/
theorem reach_allPolled (cfg : QpsCfg) (used : Finset QueueId) (s : Qps)
    (h : Reach QpsInit (Acts (qpsStep cfg) (Credited cfg used)) s) (i : QueueId)
    (hlive : s.stage i.1 = .live) (hon : s.started i = true) (hw : (s.wq i).worker ≠ .exited)
    (hs : (s.wq i).shouldStop = false) :
    ∃ t, LeadsTo (qpsStep cfg) (QpsAct.delivers cfg i) s t ∧ (t.wq i).posted = (s.wq i).posted ∧
      ((t.cq (cfg.cqOf i)).polled.filter (·.isOf i)).map IbWc.wrId =
        (s.wq i).posted.map fun p => p.req.wr.wrId.toUInt32.toUInt64 := by
  obtain ⟨u, hu, hposted, htop, hretired, _⟩ := qps_drained (reach_credit h).1 hlive hon hw hs
  have hleads := hu.wider serves_delivers
  obtain ⟨t, ht, hwq, hpolled⟩ := qps_polls (hu.reach (reach_credit h).1) i
  have hreach := (hleads.trans ht).reachOk delivers_credited h
  have hany := (reach_credit hreach).1
  have hall : ∀ ret ∈ (t.cq (cfg.cqOf i)).answers i, inserts ret = true :=
    fun ret hret => decide_eq_true (reach_unrefused hreach i ret hret)
  have hsame : (t.wq i).posted = (s.wq i).posted := by rw [hwq, hposted]
  refine ⟨t, hleads.trans ht, hsame, ?_⟩
  rw [← hsame]
  refine (polled_posted hany hall).eq_of_length ?_
  -- every entry was polled, and there is one for each WR
  have hentries : (t.cq (cfg.cqOf i)).polled = (t.cq (cfg.cqOf i)).inserted.map Inserted.wc :=
    (reach_polled hany).eq_of_length (by rw [hpolled, List.length_map])
  have hanswers : ((t.cq (cfg.cqOf i)).answers i).length = (t.wq i).retired.length :=
    top_answers hany (by rw [hwq, htop])
  rw [List.length_map, hentries, mine_wcs hany, List.length_map, List.length_map,
    mine_answers hany hall, hanswers, hsame, hwq, hretired]

/-- One WR is accepted, and no worker has looked at it. -/
def postedQps : Qps := afterChecked (qpsStep oneCq) (credited oneCq {(7, .sq)}) freshQps
  ([.create 7, .start (7, .sq)] ++ (postActs emptyWr 11).map (.queue (7, .sq)))

theorem postedQps_reach :
    Reach QpsInit (Acts (qpsStep oneCq) (Credited oneCq {(7, .sq)})) postedQps :=
  reach_afterChecked (credited_sound oneCq _) (reach_start freshQps_init) _

theorem reach_allPolled_one :
    ((postedQps.wq (7, .sq)).posted.map fun p => p.req.wr.wrId.toUInt32.toUInt64) = [2] ∧
      ∃ t, LeadsTo (qpsStep oneCq) (QpsAct.delivers oneCq (7, .sq)) postedQps t ∧
        (t.wq (7, .sq)).posted = (postedQps.wq (7, .sq)).posted ∧
        ((t.cq (oneCq.cqOf (7, .sq))).polled.filter (·.isOf (7, .sq))).map IbWc.wrId =
          (postedQps.wq (7, .sq)).posted.map fun p => p.req.wr.wrId.toUInt32.toUInt64 := by
  have htop : (postedQps.wq (7, .sq)).worker = .top := rfl
  exact ⟨by decide, reach_allPolled oneCq {(7, .sq)} postedQps postedQps_reach (7, .sq) rfl
    (by decide) (by simp [htop]) (by decide)⟩

end DisKverbs
