import DisKverbs.WqCompletion

namespace DisKverbs

open CellProg CircBuf RingMachine StepSystem

/-- Where a worker stands with the completion of its oldest WQE. -/
inductive Stage
  | consuming
  | completing (tail : Nat) (status : IbWcStatus)
  | completed (status : IbWcStatus)

def WorkerPc.stage : WorkerPc → Stage
  | .complete tail status => .completing tail status
  | .free _ status => .completed status
  | .retire _ status => .completed status
  | _ => .consuming

inductive StageMove (s t : WqState) : Prop
  | consume : s.worker.stage = .consuming → (∀ status, t.worker.stage ≠ .completed status) →
      t.retired = s.retired → StageMove s t
  | complete {tail status} : s.worker = .complete tail status →
      t.worker.stage = .completed status → t.retired = s.retired → StageMove s t
  | free {status} : s.worker.stage = .completed status → t.worker.stage = .completed status →
      t.retired = s.retired → StageMove s t
  | retire {status} : s.worker.stage = .completed status → t.worker.stage = .consuming →
      t.retired = s.retired ++ [status] → StageMove s t

theorem consumes_stage {pc : WorkerPc} {tail : Nat} (h : pc.consumes = some tail) :
    pc.stage = .consuming := by
  cases pc <;> first | rfl | simp [WorkerPc.consumes] at h

theorem works_stage {pc : WorkerPc} {tail : Nat} (h : pc.Works tail) (status : IbWcStatus) :
    pc.stage ≠ .completed status := by
  rcases h with h | ⟨st, rfl⟩
  · simp [consumes_stage h]
  · simp [WorkerPc.stage]

theorem WorkerMove.stage {cfg : WqCfg} {s t : WqState} (h : WorkerMove cfg s t) :
    StageMove s t := by
  cases h with
  | rest hw hpc =>
    refine .consume ?_ ?_ rfl
    · rcases hw with hw | hw <;> rw [hw] <;> rfl
    · rcases hpc with rfl | rfl | rfl <;> simp [WorkerPc.stage]
  | peek hw => exact .consume (by rw [hw]; rfl) (by simp [WorkerPc.stage]) rfl
  | empty hw _ => exact .consume (by rw [hw]; rfl) (by simp [WorkerPc.stage]) rfl
  | acquire hw _ hpc => exact .consume (by rw [hw]; rfl) (works_stage (.inl hpc)) rfl
  | hold hs hpc => exact .consume (consumes_stage hs) (works_stage hpc) rfl
  | touch n hs hpc => exact .consume (consumes_stage hs) (works_stage hpc) rfl
  | complete hw => exact .complete hw rfl rfl
  | free hw => exact .free (by rw [hw]; rfl) rfl rfl
  | retire hw => exact .retire (by rw [hw]; rfl) rfl rfl

def reported {ι : Type} (es : List (Inserted ι)) : List IbWcStatus := es.map (·.call.status)

/-- A call that reports the WQE with an index. -/
def Reports (posted : List Posted) (i : Nat) (call : CqeCall) : Prop :=
  ∃ p, posted[i]? = some p ∧ call.wqe.eraseLen = p.wqe.eraseLen

theorem Reports.append {posted : List Posted} {i : Nat} {call : CqeCall} (h : Reports posted i call)
    (es : List Posted) : Reports (posted ++ es) i call := by
  obtain ⟨p, hp, he⟩ := h
  have hi := (List.getElem?_eq_some_iff.mp hp).1
  exact ⟨p, by rw [List.getElem?_append_left hi]; exact hp, he⟩

theorem wqStep_other {cfg : WqCfg} {a : WqAct} {w w' : WqState} (ha : ∀ out, a ≠ .worker out)
    (h : wqStep cfg w a = some w') :
    w'.worker = w.worker ∧ w'.retired = w.retired ∧ ∃ es, w'.posted = w.posted ++ es := by
  have same : w.posted = w.posted ++ [] := (List.append_nil _).symm
  cases a with
  | start req =>
    obtain ⟨_, rfl⟩ := wqStep_start h
    exact ⟨rfl, rfl, [], same⟩
  | poster buf =>
    cases posterStep_move h with
    | publish hp => exact ⟨rfl, rfl, _, rfl⟩
    | _ => exact ⟨rfl, rfl, [], same⟩
  | worker out => exact absurd rfl (ha out)
  | stop => cases Option.some.inj h; exact ⟨rfl, rfl, [], same⟩

theorem wqStep_posted {cfg : WqCfg} {a : WqAct} {w w' : WqState} (h : wqStep cfg w a = some w') :
    ∃ es, w'.posted = w.posted ++ es := by
  by_cases ha : ∃ out, a = .worker out
  · obtain ⟨out, rfl⟩ := ha
    exact ⟨[], by rw [(workerStep_move h).frame.2.1, List.append_nil]⟩
  · exact (wqStep_other (not_exists.mp ha) h).2.2

theorem held_reports {cfg : WqCfg} {w : WqState} (hr : RingInv cfg.ring DisWqe.eraseLen w.ring)
    {tail : Nat} (hw : w.worker.holds = some tail) (type : DisWqType) (status : IbWcStatus) :
    Reports w.posted w.retired.length ⟨type, w.slots tail, status⟩ := held_posted hr hw

variable {ι : Type} [DecidableEq ι] {cfg : WqCfg} {r : RingSize} {me : ι} {s t : PairState ι}

/-- How the worker's progress and its call of the completion function fit together. -/
inductive PairPhase (me : ι) (s : PairState ι) : Prop
  | quiet : (∀ status, s.wq.worker.stage ≠ .completed status) → s.called = false →
      s.cq.view me = .quiet → reported (s.cq.mine me) = s.wq.retired → PairPhase me s
  | running {tail call} : s.wq.worker = .complete tail call.status → s.called = true →
      s.cq.view me = .running call → Reports s.wq.posted s.wq.retired.length call →
      reported (s.cq.mine me) = s.wq.retired → PairPhase me s
  | returned {tail status} : s.wq.worker = .complete tail status → s.called = true →
      (∀ call, s.cq.view me ≠ .running call) →
      reported (s.cq.mine me) = s.wq.retired ++ [status] → PairPhase me s
  | completed {status} : s.wq.worker.stage = .completed status → s.called = false →
      s.cq.view me = .quiet → reported (s.cq.mine me) = s.wq.retired ++ [status] → PairPhase me s

structure PairInv (me : ι) (s : PairState ι) : Prop where
  entries : ∀ i e, (s.cq.mine me)[i]? = some e → Reports s.wq.posted i e.call
  phase : PairPhase me s

/-- The completion queue has a free slot whenever an insertion of `me` tests for one. -/
def SpaceFor (r : RingSize) (me : ι) (s : PairState ι) : PairAct ι → Prop
  | .cq (.producer i) => i = me → ∀ call head, s.cq.holder = some (me, call, .gotHead head) →
      ¬ circSpace head s.cq.tail r.size < 1
  | _ => True

end DisKverbs
