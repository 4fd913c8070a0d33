import DisKverbs.CompletionAccount
import DisKverbs.LiveQps

namespace DisKverbs

open Answered CellProg CircBuf RingMachine StepSystem

section

variable {A : Option PageMap → Prop} {lib : SciLib} {t : MrTable} {wr : IbWr} {w w' : DisWqe}

theorem spanAll_opcode (w : DisWqe) (i : Nat) (gs : List IbSge) :
    (w.spanAll lib t i gs).opcode = w.opcode := by
  induction gs generalizing w i with
  | nil => rfl
  | cons g gs ih =>
    have hone : (w.span lib t i g).opcode = w.opcode := by
      unfold DisWqe.span
      split
      next => rfl
      next => rfl
    exact (ih (w.span lib t i g) (i + 1)).trans hone

theorem mapEntries_opcode (w : DisWqe) (p : IovPtr) (es : List Iovec) :
    (w.mapEntries p es).opcode = w.opcode := by
  induction es generalizing w p with
  | nil => rfl
  | cons e es ih =>
    have hone : (w.mapEntry p e).opcode = w.opcode := by
      cases p <;> rfl
    exact (ih (w.mapEntry p e) (p.add 1)).trans hone

theorem postOneBody_opcode {opcode : IbWcOpcode} {ibqp sciMsq : Nat} {wqe : DisWqe}
    {used : List (List Nat)}
    (h : Runs A (postOneBody lib opcode ibqp sciMsq t wr) w (some used) wqe) :
    wqe.opcode = opcode := by
  obtain ⟨_, _, _, w₁, hm, rfl⟩ := postOneBody_some lib t h
  refine (mapEntries_opcode w₁ _ _).trans ?_
  let header := w.header opcode ibqp sciMsq wr.wrId.toUInt32
  have hspan : (header.spanAll lib t 0 wr.visited).opcode = header.opcode := spanAll_opcode ..
  rcases hm with ⟨_, rfl⟩ | ⟨buf, _, _, rfl⟩
  · exact hspan
  · exact hspan

end

section

variable {cfg : QpsCfg} {s t : Qps}

/-- The queue a work completion is for. -/
def IbWc.isOf (wc : IbWc) (i : QueueId) : Bool := wc.qp = i.1 ∧ wc.opcode = i.2.opcode

def CqState.polled {ι : Type} (s : CqState ι) : List IbWc := s.polls.flatMap PollResult.wcs

def Inserted.wc {ι : Type} (e : Inserted ι) : IbWc := (e.call.wqe.cqe e.call.status).wc

theorem reach_insertedBy (h : Reach QpsInit (Acts (qpsStep cfg) anyAct) s) :
    ∀ c, ∀ e ∈ (s.cq c).inserted, cfg.cqOf e.producer = c := by
  apply h.invariant
  · intro s hi c e he
    have hcq := hi.2.1 c
    rw [hcq] at he
    simp at he
  · rintro s t hs hi ⟨a, _, hstep⟩ c e he
    rcases (qpsStep_move hstep).cqStep c with hsame | ⟨a, _, hq⟩
    · rw [hsame] at he
      exact hi c e he
    · have hmove := cqStep_move hq
      rcases (CqMove.inserted_one hmove) with hkeep | ⟨i, call, cqe, hrun, hnew⟩
      · rw [hkeep] at he
        exact hi c e he
      · rw [hnew] at he
        rcases List.mem_append.mp he with he | he
        · exact hi c e he
        · rw [List.mem_singleton.mp he]
          exact reach_attached hs c i call hrun

theorem opcode_injective : Function.Injective DisWqType.opcode := by
  intro a b h
  cases a <;> cases b <;> first | rfl | cases h

/-- An entry is for a WQE that was posted to the queue that inserted it. -/
theorem inserted_posted (h : Reach QpsInit (Acts (qpsStep cfg) anyAct) s) {c : Nat}
    {e : Inserted QueueId} (he : e ∈ (s.cq c).inserted) :
    ∃ p ∈ (s.wq e.producer).posted, e.call.wqe.eraseLen = p.wqe.eraseLen := by
  have hc := reach_insertedBy h c e he
  obtain ⟨statuses, _, hacc⟩ := reach_accounted (reach_pair h e.producer)
  have hmine : e ∈ (s.pair cfg e.producer).cq.mine e.producer := by
    refine List.mem_filter.mpr ⟨?_, by simp⟩
    show e ∈ (s.cq (cfg.cqOf e.producer)).inserted
    rw [hc]
    exact he
  have hwqe : e.call.wqe.eraseLen ∈
      ((s.pair cfg e.producer).cq.mine e.producer).map (·.call.wqe.eraseLen) :=
    List.mem_map_of_mem hmine
  rw [hacc.wqes] at hwqe
  obtain ⟨p, hp, heq⟩ := List.mem_map.mp ((answered_sublist ..).mem hwqe)
  exact ⟨p, hp, heq.symm⟩

theorem inserted_isOf (h : Reach QpsInit (Acts (qpsStep cfg) anyAct) s) {c : Nat}
    {e : Inserted QueueId} (he : e ∈ (s.cq c).inserted) (i : QueueId) :
    e.wc.isOf i = decide (e.producer = i) := by
  obtain ⟨p, hp, heq⟩ := inserted_posted h he
  have hruns := (reach_wqInv (reach_pairWq (reach_pair h e.producer))).entries p hp
  have hqp : e.wc.qp = e.producer.1 :=
    (congrArg DisWqe.ibqp heq).trans (postOneBody_names hruns).2
  have hopcode : p.wqe.opcode = e.producer.2.opcode := postOneBody_opcode hruns
  have hop : e.wc.opcode = e.producer.2.opcode := (congrArg DisWqe.opcode heq).trans hopcode
  unfold IbWc.isOf
  refine decide_eq_decide.mpr ?_
  rw [hqp, hop]
  exact ⟨fun ⟨h₁, h₂⟩ => Prod.ext h₁ (opcode_injective h₂), fun he => by rw [he]; exact ⟨rfl, rfl⟩⟩

theorem reach_polled {c : Nat} (h : Reach QpsInit (Acts (qpsStep cfg) anyAct) s) :
    (s.cq c).polled <+: (s.cq c).inserted.map Inserted.wc := by
  have hcq := reach_qpsCq h c
  obtain ⟨rest, hrest⟩ := reach_returned hcq
  refine ⟨rest, hrest.trans (List.map_congr_left fun e he => ?_)⟩
  rw [(reach_cqFill hcq).entries e he]
  rfl

/-- Of the completions in a completion queue, those for one of its queues. -/
theorem mine_wcs (h : Reach QpsInit (Acts (qpsStep cfg) anyAct) s) (c : Nat) (i : QueueId) :
    ((s.cq c).inserted.map Inserted.wc).filter (·.isOf i) = ((s.cq c).mine i).map Inserted.wc := by
  rw [List.filter_map, CqState.mine]
  congr 1
  exact List.filter_congr fun e he => inserted_isOf h he i

/-- The ids of the accepted WRs are those that their WQEs keep. -/
theorem posted_ids (h : Reach QpsInit (Acts (qpsStep cfg) anyAct) s) (i : QueueId) :
    (s.wq i).posted.map (fun p => p.req.wr.wrId.toUInt32.toUInt64) =
      ((s.wq i).posted.map (·.wqe.eraseLen)).map (fun w => w.wrId.toUInt64) := by
  have hentries := (reach_wqInv (reach_pairWq (reach_pair h i))).entries
  rw [List.map_map]
  refine List.map_congr_left fun p hp => ?_
  have hid : p.wqe.wrId = p.req.wr.wrId.toUInt32 := (postOneBody_names (hentries p hp)).1
  exact (congrArg UInt32.toUInt64 hid).symm

/-- What the entries of a queue tell is what its WQEs and their retirement say. -/
theorem mine_account (h : Reach QpsInit (Acts (qpsStep cfg) anyAct) s) {i : QueueId}
    {statuses : List IbWcStatus} (hacc : Account i (s.pair cfg i) statuses) :
    ((s.cq (cfg.cqOf i)).mine i).map (fun e => (e.wc.wrId, e.wc.status)) =
      answered inserts (((s.wq i).posted.map fun p => p.req.wr.wrId.toUInt32.toUInt64).zip statuses)
        ((s.cq (cfg.cqOf i)).answers i) := by
  have hwqes : answered inserts ((s.wq i).posted.map (·.wqe.eraseLen))
      ((s.cq (cfg.cqOf i)).answers i) = ((s.cq (cfg.cqOf i)).mine i).map (·.call.wqe.eraseLen) :=
    hacc.wqes.symm
  have hreports : answered inserts statuses ((s.cq (cfg.cqOf i)).answers i) =
      ((s.cq (cfg.cqOf i)).mine i).map (·.call.status) := hacc.reports.symm
  rw [answered_zip, posted_ids h, answered_map, hwqes, hreports, List.map_map, List.zip_map']
  rfl

end

/-- The account of a queue, up to the completions that polls returned for it. -/
structure PolledOf (cfg : QpsCfg) (s : Qps) (i : QueueId) (statuses : List IbWcStatus) : Prop where
  counted : statuses = (s.wq i).retired ∨ ∃ status, statuses = (s.wq i).retired ++ [status]
  answers : ((s.cq (cfg.cqOf i)).answers i).length = statuses.length
  answer : ∀ ret ∈ (s.cq (cfg.cqOf i)).answers i, ret = 0 ∨ ret = -42
  polled : ((s.cq (cfg.cqOf i)).polled.filter (·.isOf i)).map (fun wc => (wc.wrId, wc.status)) <+:
    answered inserts (((s.wq i).posted.map fun p => p.req.wr.wrId.toUInt32.toUInt64).zip statuses)
      ((s.cq (cfg.cqOf i)).answers i)

/-- Among any number of QPs and completion queues, full ones included: what a poll returns is for a
queue that completes there, and what polls return for a queue are the WQEs of that queue whose
completion function answered 0, in the order of posting and each of them once. -/
theorem reach_polledOf (cfg : QpsCfg) (s : Qps)
    (h : Reach QpsInit (Acts (qpsStep cfg) anyAct) s) :
    (∀ c, ∀ wc ∈ (s.cq c).polled, ∃ i, cfg.cqOf i = c ∧ wc.isOf i = true) ∧
      ∀ i, ∃ statuses, PolledOf cfg s i statuses := by
  refine ⟨fun c wc hwc => ?_, fun i => ?_⟩
  · obtain ⟨k, hk⟩ := List.mem_iff_getElem?.mp hwc
    obtain ⟨e, he, rfl⟩ := returned_entry (reach_qpsCq h c) hk
    have hmem := List.mem_of_getElem? he
    refine ⟨e.producer, reach_insertedBy h c e hmem, ?_⟩
    exact (inserted_isOf h hmem e.producer).trans (by simp)
  · obtain ⟨statuses, hp, hacc⟩ := reach_accounted (reach_pair h i)
    refine ⟨statuses, hp.length, hacc.length, hacc.answer, ?_⟩
    rw [← mine_account h hacc]
    have hpre := ((reach_polled (c := cfg.cqOf i) h).filter (·.isOf i)).map
      fun wc => (wc.wrId, wc.status)
    rw [mine_wcs h, List.map_map] at hpre
    exact hpre

def sendQpsActs (n : Nat) : List QpsAct :=
  (postActs emptyWr 11).map (.queue (7, .sq)) ++
    List.replicate 5 (.queue (7, .sq) (.worker (some 0))) ++ [.complete (7, .sq)] ++
    List.replicate n (.cq 0 (.producer (7, .sq))) ++
    List.replicate 3 (.queue (7, .sq) (.worker (some 0)))

/-- Two sends before the first poll, into a completion queue for one entry. -/
def overflowQps : Qps := afterActs (qpsStep oneCq) freshQps
  ([.create 7, .start (7, .sq)] ++ sendQpsActs 10 ++ sendQpsActs 4 ++
    .cq 0 (.poll 2) :: List.replicate 10 (.cq 0 .poller))

theorem reach_polledOf_overflow :
    (overflowQps.cq 0).polled = [⟨2, .success, .send, 0, 7⟩] ∧
      (overflowQps.cq 0).answers (7, .sq) = [0, -42] ∧
      (∀ c, ∀ wc ∈ (overflowQps.cq c).polled, ∃ i, oneCq.cqOf i = c ∧ wc.isOf i = true) ∧
      ∀ i, ∃ statuses, PolledOf oneCq overflowQps i statuses :=
  ⟨by decide, by decide, reach_polledOf oneCq overflowQps (reach_afterActs freshQps_init _)⟩

end DisKverbs
