import DisKverbs.Qps
import DisKverbs.CompletedOnce

namespace DisKverbs

open CellProg CircBuf RingMachine StepSystem

/-- QP `q` was created, and if it was destroyed, entry `k` of completion queue `c` was there. -/
def QpStage.Names (c k : Nat) : QpStage → Prop
  | .unused => False
  | .live => True
  | .destroyed inserted => k < inserted c

/-- The worker of a queue runs between its start and the end of its QP. -/
structure QueueOk (s : Qps) (i : QueueId) : Prop where
  idle : s.started i = false → (s.wq i).worker = .top
  used : s.started i = true → s.stage i.1 ≠ .unused
  gone : ∀ inserted, s.stage i.1 = .destroyed inserted → s.stopped i = true

/-- Only the queues of a completion queue insert into it. -/
def Attached (cfg : QpsCfg) (s : Qps) : Prop :=
  ∀ c i call, (s.cq c).view i = .running call → cfg.cqOf i = c

/-- Every entry names the QP of the worker that inserted it. -/
def EntriesNamed (s : Qps) : Prop :=
  ∀ (c k : Nat) (e : Inserted QueueId), (s.cq c).inserted[k]? = some e →
    e.cqe.ibqp = e.producer.1 ∧ (s.stage e.producer.1).Names c k

section

variable {cfg : QpsCfg} {s t : Qps}

theorem stopped_worker {i : QueueId} (h : s.stopped i = true) (hon : s.started i = true) :
    (s.wq i).worker = .exited := by
  cases hw : (s.wq i).worker with
  | exited => rfl
  | _ => simp [Qps.stopped, hon, hw] at h

theorem reach_queueOk (h : Reach QpsInit (Acts (qpsStep cfg) anyAct) s) (i : QueueId) :
    QueueOk s i := by
  apply h.invariant
  · intro s hi
    obtain ⟨hq, _, hstage⟩ := hi
    obtain ⟨hw, _, hoff⟩ := hq i
    refine ⟨fun _ => by rw [hw], fun hon => by simp [hoff] at hon, fun ins he => ?_⟩
    simp [hstage] at he
  · rintro s t _ hi ⟨a, _, hs⟩
    cases qpsStep_move hs with
    | @create q hq =>
      by_cases he : i.1 = q
      · subst he
        refine ⟨hi.idle, fun _ => by simp, fun ins he => ?_⟩
        simp at he
      · refine ⟨hi.idle, fun hon => ?_, fun ins hd => hi.gone ins ?_⟩
        · simpa [he] using hi.used hon
        · simpa [he] using hd
    | @start j hj =>
      by_cases he : i = j
      · subst he
        refine ⟨fun hoff => by simp at hoff, fun _ => by simp [hj], fun ins hd => ?_⟩
        simp [hj] at hd
      · refine ⟨fun hoff => hi.idle (by simpa [he] using hoff),
          fun hon => hi.used (by simpa [he] using hon), fun ins hd => ?_⟩
        simpa [Qps.stopped, he] using hi.gone ins hd
    | @queue j a u hlive hoff ha hu =>
      by_cases he : i = j
      · subst he
        refine ⟨fun hidle => ?_, hi.used, fun ins hd => ?_⟩
        · obtain ⟨b, rfl, hb⟩ := hoff hidle
          cases pairStep_move hu with
          | wq hq _ => simpa [Qps.setPair] using (wqStep_other hb hq).1.trans (hi.idle hidle)
          | back => exact absurd rfl (hb _)
        · have hd' : s.stage i.1 = .destroyed ins := hd
          simp [hlive] at hd'
      · refine ⟨fun hidle => ?_, hi.used, fun ins hd => ?_⟩
        · simpa [Qps.setPair, he] using hi.idle hidle
        · simpa [Qps.stopped, Qps.setPair, he] using hi.gone ins hd
    | cq => exact ⟨hi.idle, hi.used, hi.gone⟩
    | @destroy q hlive hstop =>
      by_cases he : i.1 = q
      · subst he
        exact ⟨hi.idle, fun _ => by simp, fun _ _ => hstop i.2⟩
      · refine ⟨hi.idle, fun hon => ?_, fun ins hd => hi.gone ins ?_⟩
        · simpa [he] using hi.used hon
        · simpa [he] using hd

theorem view_move {c : Nat} {a : CqAct QueueId} {cq : CqState QueueId}
    (hs : Reach QpsInit (Acts (qpsStep cfg) anyAct) s)
    (hq : cqStep (cfg.cqRing c) (s.cq c) a = some cq) (i : QueueId) :
    ViewMove (cfg.cqRing c) i (s.cq c) a cq :=
  (cqStep_move hq).view (reach_lockFree (reach_qpsCq hs c))

theorem reach_attached (h : Reach QpsInit (Acts (qpsStep cfg) anyAct) s) : Attached cfg s := by
  apply h.invariant
  · intro s hi c i call hv
    have hcq := hi.2.1 c
    rw [hcq] at hv
    cases hv
  · rintro s t hs hi ⟨a, _, hstep⟩ c i call hv
    rcases (qpsStep_move hstep).cqStep c with he | ⟨a, ha, hq⟩
    · exact hi c i call (he ▸ hv)
    · cases view_move hs hq i with
      | other hview _ => exact hi c i call (hview ▸ hv)
      | call => exact ha i _ rfl
      | full _ _ hret _ => simp [hret] at hv
      | insert _ hret _ => simp [hret] at hv
      | unlock _ hquiet _ => simp [hquiet] at hv

/-- A worker that is about to insert an entry runs for a live QP, and names it. -/
theorem inserting_live (hs : Reach QpsInit (Acts (qpsStep cfg) anyAct) s) {c : Nat} {i : QueueId}
    {call : CqeCall} (hv : (s.cq c).view i = .running call) :
    call.wqe.ibqp = i.1 ∧ s.stage i.1 = .live := by
  have hc := reach_attached hs c i call hv
  subst hc
  have hpair := reach_pair hs i
  obtain ⟨tail, status, hw, rfl⟩ := reach_calling hpair call hv
  have hwq : (s.wq i).worker = .complete tail status := hw
  have hq := reach_queueOk hs i
  have hon : s.started i = true := by
    cases hst : s.started i with
    | true => rfl
    | false => simp [hq.idle hst] at hwq
  refine ⟨?_, ?_⟩
  · have hr := reach_wqRing (reach_pairWq hpair)
    have hheld : (s.pair cfg i).wq.worker.holds = some tail := by rw [hw]; rfl
    obtain ⟨e, he, hk⟩ := held_posted hr hheld
    have hruns := (reach_wqInv (reach_pairWq hpair)).entries e (List.mem_of_getElem? he)
    have hid : ((s.pair cfg i).wq.slots tail).eraseLen.ibqp = e.wqe.eraseLen.ibqp :=
      congrArg DisWqe.ibqp hk
    exact hid.trans (postOneBody_names hruns).2
  · cases hst : s.stage i.1 with
    | unused => exact absurd hst (hq.used hon)
    | live => rfl
    | destroyed ins =>
      have hgone := stopped_worker (hq.gone ins hst) hon
      simp [hgone] at hwq

theorem EntriesNamed.stage (hi : EntriesNamed s) {q : Nat} {st : QpStage}
    (hst : ∀ c k, k < (s.cq c).inserted.length → (s.stage q).Names c k → st.Names c k) :
    EntriesNamed { s with stage := Function.update s.stage q st } := by
  intro c k e he
  obtain ⟨hqp, hn⟩ := hi c k e he
  refine ⟨hqp, ?_⟩
  by_cases hq : e.producer.1 = q
  · subst hq
    simpa using hst c k (List.getElem?_eq_some_iff.mp he).1 hn
  · simpa [hq] using hn

theorem inserted_move {c : Nat} {a : CqAct QueueId} {cq : CqState QueueId}
    (hs : Reach QpsInit (Acts (qpsStep cfg) anyAct) s)
    (hq : cqStep (cfg.cqRing c) (s.cq c) a = some cq) (hi : EntriesNamed s) (k : Nat)
    (e : Inserted QueueId) (he : cq.inserted[k]? = some e) :
    e.cqe.ibqp = e.producer.1 ∧ (s.stage e.producer.1).Names c k := by
  have hstored := (reach_cqFill ((reach_qpsCq hs c).next ⟨a, trivial, hq⟩)).entries
  cases cqStep_move hq with
  | @insert i call head hh =>
    rcases Nat.lt_or_ge k (s.cq c).inserted.length with hlt | hge
    · rw [List.getElem?_append_left hlt] at he
      exact hi c k e he
    · have hmem := List.mem_of_getElem? he
      rw [List.getElem?_append_right hge, List.getElem?_singleton] at he
      split at he
      next =>
        cases Option.some.inj he
        obtain ⟨hqp, hlive⟩ := inserting_live hs (view_holder hh)
        refine ⟨?_, by rw [hlive]; trivial⟩
        rw [hstored _ hmem]
        exact hqp
      next => simp at he
  | _ => exact hi c k e he

theorem reach_entriesNamed (h : Reach QpsInit (Acts (qpsStep cfg) anyAct) s) :
    EntriesNamed s := by
  apply h.invariant
  · intro s hi c k e he
    have hcq := hi.2.1 c
    rw [hcq] at he
    simp at he
  · rintro s t hs hi ⟨a, _, hstep⟩
    have hcq := (qpsStep_move hstep).cqStep
    cases qpsStep_move hstep with
    | create hq => exact hi.stage fun c k _ hn => by rw [hq] at hn; exact hn.elim
    | start => exact hi
    | queue | cq =>
      intro c k e he
      rcases hcq c with hsame | ⟨a, _, hq⟩
      · exact hi c k e (hsame ▸ he)
      · exact inserted_move hs hq hi k e he
    | destroy => exact hi.stage fun c k hlt _ => hlt

/-- The entries of a completion queue and the completions it returned name QPs that existed
when the entry was inserted. -/
structure NamesQps (cfg : QpsCfg) (s : Qps) (c : Nat) : Prop where
  ring : ∀ (j : Nat) (cqe : DisCqe),
    (window (s.cq c).slots (s.cq c).head (s.cq c).tail (cfg.cqRing c).size)[j]? = some cqe →
      (s.stage cqe.ibqp).Names c ((s.cq c).taken + j)
  returned : ∀ (k : Nat) (wc : IbWc), ((s.cq c).polls.flatMap PollResult.wcs)[k]? = some wc →
    (s.stage wc.qp).Names c k

/-- A CQE names a QP that was not destroyed before it was inserted; the destruction of a QP
leaves the rings as they are. -/
theorem cqes_name_qps (cfg : QpsCfg) (s : Qps)
    (h : Reach QpsInit (Acts (qpsStep cfg) anyAct) s) :
    (∀ c, NamesQps cfg s c) ∧ ∀ q t, qpsStep cfg s (.destroy q) = some t → t.cq = s.cq := by
  have hnamed := reach_entriesNamed h
  refine ⟨fun c => ?_, fun q t ht => ?_⟩
  · have hcq := reach_qpsCq h c
    refine ⟨fun j cqe hj => ?_, fun k wc hk => ?_⟩
    · rw [reach_queued hcq, List.getElem?_map] at hj
      obtain ⟨e, he, rfl⟩ := Option.map_eq_some_iff.mp hj
      rw [List.getElem?_drop] at he
      obtain ⟨hqp, hn⟩ := hnamed c _ e he
      rw [hqp]
      exact hn
    · obtain ⟨e, he, rfl⟩ := returned_entry hcq hk
      obtain ⟨hqp, hn⟩ := hnamed c k e he
      rw [(reach_cqFill hcq).entries e (List.mem_of_getElem? he)] at hqp
      have hid : (e.call.wqe.cqe e.call.status).wc.qp = e.producer.1 := hqp
      rw [hid]
      exact hn
  · simp only [qpsStep] at ht
    split at ht
    next =>
      split at ht
      next => cases Option.some.inj ht; rfl
      next => simp at ht
    next => simp at ht

end

def Qps.destroyed (s : Qps) (q : Nat) : Bool :=
  match s.stage q with
  | .destroyed _ => true
  | _ => false

/-- QPs of two-slot queues that share one completion queue of two slots. -/
def oneCq : QpsCfg := ⟨sciLib64, fun _ => twoSlots, fun _ => 2, fun _ => 0, fun _ => twoSlots⟩

def freshQps : Qps :=
  ⟨fun _ => freshWq, fun _ => false, fun _ => false,
    fun _ => ⟨0, 0, fun _ => default, fun _ => none, none, .idle, [], [], 0, []⟩, fun _ => .unused⟩

theorem freshQps_init : QpsInit freshQps := ⟨fun _ => ⟨rfl, rfl, rfl⟩, fun _ => rfl, fun _ => rfl⟩

/-- Create a QP, send one WR and complete it, and destroy the QP before anybody polls. -/
def destroyActs : List QpsAct :=
  [.create 7, .start (7, .sq)] ++ (postActs emptyWr 11).map (.queue (7, .sq)) ++
    List.replicate 5 (.queue (7, .sq) (.worker (some 0))) ++ [.complete (7, .sq)] ++
    List.replicate 10 (.cq 0 (.producer (7, .sq))) ++
    List.replicate 3 (.queue (7, .sq) (.worker (some 0))) ++
    [.queue (7, .sq) .stop, .queue (7, .sq) (.worker none), .destroy 7]

def destroyRun : Qps := afterActs (qpsStep oneCq) freshQps destroyActs

/-- The poll comes after the QP was destroyed. -/
def latePollRun : Qps :=
  afterActs (qpsStep oneCq) freshQps (destroyActs ++ .cq 0 (.poll 1) :: List.replicate 9 (.cq 0 .poller))

theorem cqes_name_qps_late : (∀ c, NamesQps oneCq latePollRun c) ∧
    ∀ q t, qpsStep oneCq latePollRun (.destroy q) = some t → t.cq = latePollRun.cq :=
  cqes_name_qps oneCq latePollRun (reach_afterActs freshQps_init _)

/-- The entry outlives its QP, and so does the completion that a poll returns for it. -/
theorem cqe_outlives_qp :
    Reach QpsInit (Acts (qpsStep oneCq) anyAct) destroyRun ∧
      window (destroyRun.cq 0).slots (destroyRun.cq 0).head (destroyRun.cq 0).tail twoSlots.size =
        [⟨7, 2, .success, 0, .send⟩] ∧
      destroyRun.destroyed 7 = true ∧
      Reach QpsInit (Acts (qpsStep oneCq) anyAct) latePollRun ∧
      (latePollRun.cq 0).polls.flatMap PollResult.wcs = [⟨2, .success, .send, 0, 7⟩] ∧
      latePollRun.destroyed 7 = true :=
  ⟨reach_afterActs freshQps_init _, by decide, by decide, reach_afterActs freshQps_init _,
    by decide, by decide⟩

end DisKverbs
