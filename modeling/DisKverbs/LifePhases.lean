import DisKverbs.QueueLife

namespace DisKverbs

/-- A thread in `dis_wq_thread` that has announced itself and not yet its end. -/
def TaskPc.serving : TaskPc → Prop
  | .connect | .top | .drain | .wait | .tearDown | .setExited => True
  | _ => False

def TaskPc.entered : TaskPc → Prop
  | .absent | .created | .woken | .skipped => False
  | _ => True

/-- The state of a queue whose only thread is at a place. -/
def TaskPc.status : TaskPc → DisWqStatus
  | .absent => .uninitialized
  | .created | .woken | .skipped | .setRunning => .initialized
  | .connect | .top | .drain | .wait | .tearDown | .setExited => .running
  | .gone => .exited

theorem serving_status {pc : TaskPc} (h : pc.serving) : pc.status = .running := by
  cases pc <;> first | rfl | exact h.elim

theorem serving_entered {pc : TaskPc} (h : pc.serving) : pc.entered := by
  cases pc <;> trivial

theorem serving_ended {pc : TaskPc} (h : pc.serving) : pc.ended = false := by
  cases pc <;> first | rfl | exact h.elim

theorem status_vacant {pc : TaskPc} (h : pc.status = .uninitialized) : pc = .absent := by
  cases pc <;> simp [TaskPc.status] at h ⊢

/-- The steps of a thread. -/
inductive TaskMove (q : LifeQueue) (i : Nat) : LifeQueue → Prop
  | stay : (q.tasks i).pc.serving → TaskMove q i q
  | skip : (q.tasks i).pc = .woken → (q.tasks i).shouldStop = true →
      TaskMove q i (q.setTask i .skipped)
  | enter : (q.tasks i).pc = .woken → (q.tasks i).shouldStop = false →
      TaskMove q i (q.setTask i .setRunning)
  | running : (q.tasks i).pc = .setRunning →
      TaskMove q i { q.setTask i .connect with wqState := .running }
  | serve {pc} : (q.tasks i).pc.serving → pc.serving → TaskMove q i (q.setTask i pc)
  | exited : (q.tasks i).pc = .setExited →
      TaskMove q i { q.setTask i .gone with wqState := .exited }

/-- A task that goes on after either of two tests, and else comes back to them. -/
theorem TaskMove.tests {q q' : LifeQueue} {i : Nat} {a b : Prop} [Decidable a] [Decidable b]
    {pc pc' : TaskPc} (h : (if a then some (q.setTask i pc)
      else if b then some (q.setTask i pc') else some q) = some q')
    (hs : (q.tasks i).pc.serving) (hpc : pc.serving) (hpc' : pc'.serving) : TaskMove q i q' := by
  split at h
  next => cases Option.some.inj h; exact .serve hs hpc
  next =>
    split at h
    next => cases Option.some.inj h; exact .serve hs hpc'
    next => cases Option.some.inj h; exact .stay hs

theorem taskStep_move {p : SciIf} {type : DisWqType} {env : TaskEnv} {q q' : LifeQueue} {i : Nat}
    (h : taskStep p type env q i = some q') : TaskMove q i q' := by
  unfold taskStep at h
  split at h
  next => simp at h
  next => simp at h
  next hp =>
    cases Option.some.inj h
    by_cases hs : (q.tasks i).shouldStop = true
    · rw [if_pos hs]
      exact .skip hp hs
    · rw [if_neg hs]
      exact .enter hp (by simpa using hs)
  next => simp at h
  next hp => cases Option.some.inj h; exact .running hp
  next hp =>
    have hv : (q.tasks i).pc.serving := by rw [hp]; trivial
    exact .tests h hv trivial trivial
  next hp =>
    cases Option.some.inj h
    exact .serve (by rw [hp]; trivial) (by split <;> trivial)
  next hp =>
    have hv : (q.tasks i).pc.serving := by rw [hp]; trivial
    exact .tests h hv trivial trivial
  next hp =>
    cases Option.some.inj h
    exact .serve (by rw [hp]; trivial) (by split <;> trivial)
  next hp => cases Option.some.inj h; exact .serve (by rw [hp]; trivial) trivial
  next hp => cases Option.some.inj h; exact .exited hp
  next => simp at h

/-- The steps of `dis_qp_init`. -/
inductive QpInitMove (q : LifeQueue) : QpInitPc → LifeQueue × QpInitPc → Prop
  | refused : q.wqState = .exited → QpInitMove q .testState (q, .ret (-42))
  | free : q.wqState ≠ .exited → QpInitMove q .testState (q, .setState)
  | claim : QpInitMove q .setState ({ q with wqState := .initialized }, .create)
  | thread : QpInitMove q .create ({ q with
      thread := .task q.fresh
      tasks := Function.update q.tasks q.fresh ⟨.created, false⟩
      fresh := q.fresh + 1 }, .wake)
  | errPtr : QpInitMove q .create ({ q with thread := .errPtr }, .wake)
  | null : QpInitMove q .create ({ q with thread := .null }, .undo)
  | undo : QpInitMove q .undo ({ q with wqState := .uninitialized }, .ret (-42))
  | wake {i} : q.thread = .task i → QpInitMove q .wake (q.wake i, .ret 0)

theorem qpInitStep_move {out : KthreadCreate} {q : LifeQueue} {pc : QpInitPc}
    {r : LifeQueue × QpInitPc} (h : qpInitStep out q pc = some r) : QpInitMove q pc r := by
  unfold qpInitStep at h
  split at h
  next =>
    cases Option.some.inj h
    by_cases hx : q.wqState = .exited
    · rw [if_pos hx]
      exact .refused hx
    · rw [if_neg hx]
      exact .free hx
  next => cases Option.some.inj h; exact .claim
  next =>
    split at h
    next => cases Option.some.inj h; exact .thread
    next => cases Option.some.inj h; exact .errPtr
    next => cases Option.some.inj h; exact .null
  next => cases Option.some.inj h; exact .undo
  next =>
    split at h
    next hi => cases Option.some.inj h; exact .wake hi
    next => simp at h
  next => simp at h

def QpInitPc.vacantState : QpInitPc → DisWqStatus
  | .create | .undo | .wake => .initialized
  | _ => .uninitialized

/-- The places of `dis_qp_init` at which the queue may have its thread. -/
def QpInitPc.staffs : QpInitPc → Prop
  | .setState | .create | .undo => False
  | _ => True

/-- A queue that has had no worker yet. -/
structure Vacant (pc : QpInitPc) (q : LifeQueue) : Prop where
  tasks : ∀ i, (q.tasks i).pc = .absent
  fresh : q.fresh = 0
  thread : ∀ i, q.thread ≠ .task i
  state : q.wqState = pc.vacantState

/-- A queue with one worker, alive or ended. -/
structure Staffed (pc : QpInitPc) (q : LifeQueue) : Prop where
  init : pc.staffs
  other : ∀ i, i ≠ 0 → (q.tasks i).pc = .absent
  made : (q.tasks 0).pc ≠ .absent
  fresh : q.fresh = 1
  thread : q.thread = .task 0
  state : q.wqState = (q.tasks 0).pc.status

/-- Where a queue is, with `dis_qp_init` at a place, as long as it has made one thread at most. -/
def LifePhase (pc : QpInitPc) (q : LifeQueue) : Prop := Vacant pc q ∨ Staffed pc q

section

variable {q q' : LifeQueue} {pc pc' : QpInitPc} {i : Nat}

@[simp] theorem setTask_self (q : LifeQueue) (i : Nat) (pc : TaskPc) :
    (q.setTask i pc).tasks i = ⟨pc, (q.tasks i).shouldStop⟩ := by
  simp [LifeQueue.setTask]

@[simp] theorem setTask_ne (q : LifeQueue) {i j : Nat} (pc : TaskPc) (h : j ≠ i) :
    (q.setTask i pc).tasks j = q.tasks j := by
  simp [LifeQueue.setTask, h]

theorem wake_pc (q : LifeQueue) (i j : Nat) : ((q.wake i).tasks j).pc = (q.tasks j).pc ∨
    j = i ∧ (q.tasks i).pc = .created ∧ ((q.wake i).tasks j).pc = .woken := by
  unfold LifeQueue.wake
  split
  next hc =>
    by_cases hj : j = i
    · subst hj
      exact .inr ⟨rfl, hc, by simp⟩
    · exact .inl (by simp [hj])
  next => exact .inl rfl

theorem stop_pc (q : LifeQueue) (i j : Nat) : ((q.stop i).tasks j).pc = (q.tasks j).pc ∨
    j = i ∧ (q.tasks i).pc = .created ∧ ((q.stop i).tasks j).pc = .woken := by
  have key : ∀ k, (Function.update q.tasks i { q.tasks i with shouldStop := true } k).pc =
      (q.tasks k).pc := by
    intro k
    by_cases hk : k = i
    · subst hk
      simp
    · simp [hk]
  have h := wake_pc { q with tasks := Function.update q.tasks i { q.tasks i with shouldStop := true } }
    i j
  simp only [key] at h
  exact h

theorem stop_shouldStop (q : LifeQueue) (i : Nat) : ((q.stop i).tasks i).shouldStop = true := by
  unfold LifeQueue.stop LifeQueue.wake
  split <;> simp

theorem wake_shouldStop (q : LifeQueue) (i j : Nat) :
    ((q.wake i).tasks j).shouldStop = (q.tasks j).shouldStop := by
  unfold LifeQueue.wake
  split
  next =>
    by_cases hj : j = i
    · rw [hj, setTask_self]
    · rw [setTask_ne q _ hj]
  next => rfl

@[simp] theorem wake_frame (q : LifeQueue) (i : Nat) : (q.wake i).wqState = q.wqState ∧
    (q.wake i).thread = q.thread ∧ (q.wake i).fresh = q.fresh ∧ (q.wake i).qpn = q.qpn := by
  unfold LifeQueue.wake
  split <;> exact ⟨rfl, rfl, rfl, rfl⟩

@[simp] theorem stop_frame (q : LifeQueue) (i : Nat) : (q.stop i).wqState = q.wqState ∧
    (q.stop i).thread = q.thread ∧ (q.stop i).fresh = q.fresh ∧ (q.stop i).qpn = q.qpn :=
  wake_frame _ i

theorem Staffed.only (h : Staffed pc q) (hi : (q.tasks i).pc ≠ .absent) : i = 0 := by
  by_contra hne
  exact hi (h.other i hne)

theorem Staffed.named (h : Staffed pc q) (ht : q.thread = .task i) : i = 0 := by
  rw [h.thread] at ht
  exact (KthreadPtr.task.inj ht).symm

/-- A change that at most wakes the thread keeps the phase of the queue. -/
theorem Staffed.woken (h : Staffed pc q) (hpc : pc'.staffs)
    (ht : ∀ j, (q'.tasks j).pc = (q.tasks j).pc ∨
      j = 0 ∧ (q.tasks 0).pc = .created ∧ (q'.tasks j).pc = .woken)
    (hf : q'.wqState = q.wqState ∧ q'.thread = q.thread ∧ q'.fresh = q.fresh ∧ q'.qpn = q.qpn) :
    Staffed pc' q' := by
  obtain ⟨hs, hth, hfr, _⟩ := hf
  refine ⟨hpc, ?_, ?_, hfr.trans h.fresh, hth.trans h.thread, ?_⟩
  · intro j hj
    rcases ht j with he | ⟨hz, _⟩
    · exact he.trans (h.other j hj)
    · exact absurd hz hj
  · rcases ht 0 with he | ⟨_, _, he⟩
    · rw [he]
      exact h.made
    · simp [he]
  · rcases ht 0 with he | ⟨_, hc, he⟩
    · rw [hs, he]
      exact h.state
    · rw [hs, he, h.state, hc]
      rfl

/-- The guard of `dis_qp_init` lets only exited queues be refused; here it is entered on
none that is on its way. -/
def FirstStart (q : LifeQueue) : Prop := q.wqState ≠ .initialized ∧ q.wqState ≠ .running

theorem LifePhase.init {out : KthreadCreate} (h : LifePhase pc q)
    (hfirst : pc = .testState → FirstStart q) (hs : qpInitStep out q pc = some (q', pc')) :
    LifePhase pc' q' := by
  rcases h with h | h
  · cases qpInitStep_move hs with
    | refused he => simp [h.state, QpInitPc.vacantState] at he
    | free => exact .inl ⟨h.tasks, h.fresh, h.thread, h.state⟩
    | claim | undo => exact .inl ⟨h.tasks, h.fresh, h.thread, rfl⟩
    | thread =>
      refine .inr ⟨trivial, ?_, ?_, ?_, ?_, ?_⟩
      · intro i hi
        simp [h.fresh, hi, h.tasks i]
      · simp [h.fresh]
      · simp [h.fresh]
      · simp [h.fresh]
      · simp [h.fresh, h.state, TaskPc.status, QpInitPc.vacantState]
    | errPtr | null => exact .inl ⟨h.tasks, h.fresh, by simp, h.state⟩
    | wake hi => exact absurd hi (h.thread _)
  · have hinit := h.init
    cases qpInitStep_move hs with
    | refused => exact .inr ⟨trivial, h.other, h.made, h.fresh, h.thread, h.state⟩
    | free hne =>
      obtain ⟨hi, hr⟩ := hfirst rfl
      cases hq : q.wqState with
      | uninitialized => exact absurd (status_vacant (h.state.symm.trans hq)) h.made
      | initialized => exact absurd hq hi
      | running => exact absurd hq hr
      | exited => exact absurd hq hne
    | wake ht =>
      obtain rfl := h.named ht
      exact .inr (h.woken trivial (fun j => wake_pc q 0 j) (wake_frame q 0))
    | _ => exact hinit.elim

theorem TaskMove.present (h : TaskMove q i q') : (q.tasks i).pc ≠ .absent := by
  intro ha
  cases h with
  | stay hv => rw [ha] at hv; exact hv
  | serve hv _ => rw [ha] at hv; exact hv
  | _ hp => simp [ha] at hp

theorem TaskMove.not_ended (h : TaskMove q i q') : (q.tasks i).pc.ended = false := by
  cases h with
  | stay hv => exact serving_ended hv
  | serve hv _ => exact serving_ended hv
  | _ hp => rw [hp]; rfl

theorem TaskMove.frame (h : TaskMove q i q') : q'.thread = q.thread ∧ q'.fresh = q.fresh ∧
    q'.qpn = q.qpn ∧ ∀ j, j ≠ i → q'.tasks j = q.tasks j := by
  cases h with
  | stay _ => exact ⟨rfl, rfl, rfl, fun _ _ => rfl⟩
  | _ => exact ⟨rfl, rfl, rfl, fun j hj => setTask_ne q _ hj⟩

/-- The only thread leaves in the queue what its place stands for. -/
theorem TaskMove.status (h : TaskMove q i q') (hs : q.wqState = (q.tasks i).pc.status) :
    q'.wqState = (q'.tasks i).pc.status ∧ (q'.tasks i).pc ≠ .absent := by
  have hne := h.present
  cases h with
  | stay _ => exact ⟨hs, hne⟩
  | skip hp _ => exact ⟨by rw [setTask_self]; exact hs.trans (by rw [hp]; rfl), by simp⟩
  | enter hp _ => exact ⟨by rw [setTask_self]; exact hs.trans (by rw [hp]; rfl), by simp⟩
  | running _ => exact ⟨by simp [TaskPc.status], by simp⟩
  | serve hv hv' =>
    refine ⟨?_, ?_⟩
    · rw [setTask_self, serving_status hv']
      exact hs.trans (serving_status hv)
    · intro ha
      rw [setTask_self] at ha
      subst ha
      exact hv'
  | exited _ => exact ⟨by simp [TaskPc.status], by simp⟩

theorem LifePhase.task (h : LifePhase pc q) (hm : TaskMove q i q') : LifePhase pc q' := by
  rcases h with h | h
  · exact absurd (h.tasks i) hm.present
  · obtain ⟨hth, hfr, _, ho⟩ := hm.frame
    have hi : i = 0 := h.only hm.present
    subst hi
    obtain ⟨hs, hne⟩ := hm.status h.state
    refine .inr ⟨h.init, ?_, hne, hfr.trans h.fresh, hth.trans h.thread, hs⟩
    intro j hj
    rw [ho j hj]
    exact h.other j hj

theorem LifePhase.stop (h : LifePhase pc q) (ht : q.thread = .task i) :
    LifePhase pc (q.stop i) := by
  rcases h with h | h
  · exact absurd ht (h.thread i)
  · have hi : i = 0 := h.named ht
    subst hi
    exact .inr (h.woken h.init (stop_pc q 0) (stop_frame q 0))

theorem zeroLife_phase : LifePhase .testState zeroLife :=
  .inl ⟨fun _ => rfl, rfl, by simp [zeroLife], rfl⟩

end

end DisKverbs
