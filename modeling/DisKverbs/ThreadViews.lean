import DisKverbs.LifePhases
import DisKverbs.NoLostWakeup
import DisKverbs.ThreadBracket

namespace DisKverbs

open CircBuf StepSystem

inductive LifeAct
  | task (env : TaskEnv)
  | stop

/-- The life of a queue's only thread, once it is in its function. -/
def lifeStep (p : SciIf) (type : DisWqType) (q : LifeQueue) : LifeAct → Option LifeQueue
  | .task env => taskStep p type env q 0
  | .stop => some (q.stop 0)

def LifeInit (qpn : WqQpn) (q : LifeQueue) : Prop :=
  q.wqState = .initialized ∧ q.qpn = qpn ∧ q.tasks 0 = ⟨.setRunning, false⟩

def enteredLife (qpn : WqQpn) : LifeQueue :=
  ⟨.initialized, .task 0, qpn, 0, fun _ => ⟨.setRunning, false⟩, 1⟩

/-- What the places of the whole function are in the life of its thread. -/
def WqThreadPc.task : WqThreadPc → TaskPc
  | .setRunning => .setRunning
  | .initTop | .initCall => .connect
  | .top => .top
  | .setEmpty | .consume => .drain
  | .testFlag _ | .testStop _ | .prepare | .blocked => .wait
  | .exit => .tearDown
  | .initFailed | .setExited => .setExited
  | .returned _ => .gone

/-- What the places of a thread that is woken and sleeps are in its life. -/
def ThreadPc.task : ThreadPc → TaskPc
  | .absent => .absent
  | .created => .created
  | .setRunning => .setRunning
  | .connect => .connect
  | .top => .top
  | .setEmpty | .drainTop | .loadHead | .gotHead _ | .consume _ | .advance _ => .drain
  | .testFlag _ | .testStop _ | .prepare | .blocked => .wait
  | .disconnect => .tearDown
  | .setExited => .setExited
  | .gone => .gone

/-- The queue has this state and numbers, and its thread is at this place. -/
structure LifeView (qpn : WqQpn) (wqState : DisWqStatus) (task : Task) (q : LifeQueue) : Prop where
  state : q.wqState = wqState
  qpn : q.qpn = qpn
  task : q.tasks 0 = task

/-- The life of the thread of `s`. Where a stop comes between the last test of `dis_wq_init` and
a call that succeeds, the thread is still connecting in its life, and both end alike. -/
def LifeOf (qpn : WqQpn) (s : WqThread) (q : LifeQueue) : Prop :=
  LifeView qpn s.wqState ⟨s.pc.task, s.wq.shouldStop⟩ q ∨
    s.wq.shouldStop = true ∧ (s.pc = .top ∨ s.pc = .exit) ∧
      LifeView qpn s.wqState ⟨.connect, true⟩ q

def LifeOfWake (qpn : WqQpn) {ι : Type*} (s : WakeState ι) (q : LifeQueue) : Prop :=
  LifeView qpn s.wqState ⟨s.thread.task, s.shouldStop⟩ q

/-- The life of a thread comes to where `R` holds while the thread makes an access. -/
def Follows (p : SciIf) (type : DisWqType) (q : LifeQueue) (R : LifeQueue → Prop) : Prop :=
  ∃ q', Relation.ReflTransGen (Acts (lifeStep p type) anyAct) q q' ∧ R q'

section

variable {p : SciIf} {type : DisWqType} {qpn : WqQpn} {st : DisWqStatus} {stop : Bool}
  {pc pc' : TaskPc} {q : LifeQueue}

theorem Follows.imp {R R' : LifeQueue → Prop} (h : Follows p type q R)
    (hr : ∀ q', R q' → R' q') : Follows p type q R' := by
  obtain ⟨q', hs, hq⟩ := h
  exact ⟨q', hs, hr q' hq⟩

/-- An access that the life of the thread does not tell. -/
theorem Follows.stay {R : LifeQueue → Prop} (h : R q) : Follows p type q R := ⟨q, .refl, h⟩

theorem LifeView.goes (h : LifeView qpn st ⟨pc, stop⟩ q) (env : TaskEnv)
    (hs : taskStep p type env q 0 = some (q.setTask 0 pc')) :
    Follows p type q (LifeView qpn st ⟨pc', stop⟩) := by
  refine ⟨q.setTask 0 pc', .single ⟨.task env, trivial, hs⟩, h.state, h.qpn, ?_⟩
  rw [setTask_self, h.task]

theorem LifeView.stores (h : LifeView qpn st ⟨pc, stop⟩ q) (st' : DisWqStatus)
    (hs : taskStep p type fineEnv q 0 = some { q.setTask 0 pc' with wqState := st' }) :
    Follows p type q (LifeView qpn st' ⟨pc', stop⟩) := by
  refine ⟨_, .single ⟨.task fineEnv, trivial, hs⟩, rfl, h.qpn, ?_⟩
  show (q.setTask 0 pc').tasks 0 = _
  rw [setTask_self, h.task]

/-- A stop that comes to a thread in its function. -/
theorem LifeView.stopped (h : LifeView qpn st ⟨pc, stop⟩ q) (hpc : pc ≠ .created) :
    Follows p type q (LifeView qpn st ⟨pc, true⟩) := by
  obtain ⟨hst, _, _, hq⟩ := stop_frame q 0
  refine ⟨q.stop 0, .single ⟨.stop, trivial, rfl⟩, hst.trans h.state, hq.trans h.qpn, ?_⟩
  rcases stop_pc q 0 0 with he | ⟨_, hc, _⟩
  · rw [h.task] at he
    exact congrArg₂ Task.mk he (stop_shouldStop q 0)
  · rw [h.task] at hc
    exact absurd hc hpc

theorem LifeView.running (h : LifeView qpn st ⟨.setRunning, stop⟩ q) :
    Follows p type q (LifeView qpn .running ⟨.connect, stop⟩) :=
  h.stores .running (by simp [taskStep, h.task])

theorem LifeView.exited (h : LifeView qpn st ⟨.setExited, stop⟩ q) :
    Follows p type q (LifeView qpn .exited ⟨.gone, stop⟩) :=
  h.stores .exited (by simp [taskStep, h.task])

/-- `dis_wq_init` has not connected when it finds a stop. -/
theorem LifeView.gaveUp (h : LifeView qpn st ⟨.connect, true⟩ q) :
    Follows p type q (LifeView qpn st ⟨.setExited, true⟩) :=
  h.goes fineEnv (by simp [taskStep, h.task])

theorem LifeView.connected (h : LifeView qpn st ⟨.connect, false⟩ q) {scil : MsqArgs → SciError}
    (hret : disWqInitTry scil p type qpn = 0) :
    Follows p type q (LifeView qpn st ⟨.top, false⟩) :=
  h.goes ⟨scil, true⟩ (by simp [taskStep, h.task, h.qpn, hret])

/-- The test at the top of the loop of `dis_wq_thread`. -/
theorem LifeView.tested (h : LifeView qpn st ⟨.top, stop⟩ q) :
    Follows p type q (LifeView qpn st ⟨if stop then .tearDown else .drain, stop⟩) :=
  h.goes fineEnv (by simp [taskStep, h.task])

theorem LifeView.drained (h : LifeView qpn st ⟨.drain, stop⟩ q) :
    Follows p type q (LifeView qpn st ⟨.wait, stop⟩) :=
  h.goes fineEnv (by simp [taskStep, h.task, fineEnv])

theorem LifeView.broke (h : LifeView qpn st ⟨.drain, true⟩ q) :
    Follows p type q (LifeView qpn st ⟨.tearDown, true⟩) :=
  h.goes ⟨fun _ => .ok, false⟩ (by simp [taskStep, h.task])

/-- The end of a wait, by a signal or not. -/
theorem LifeView.waited (h : LifeView qpn st ⟨.wait, stop⟩ q) (fine : Bool) :
    Follows p type q (LifeView qpn st ⟨if fine then .top else .tearDown, stop⟩) :=
  h.goes ⟨fun _ => .ok, fine⟩ (by simp [taskStep, h.task])

theorem LifeView.tornDown (h : LifeView qpn st ⟨.tearDown, stop⟩ q) :
    Follows p type q (LifeView qpn st ⟨.setExited, stop⟩) :=
  h.goes fineEnv (by simp [taskStep, h.task])

end

section

variable {cfg : WqCfg} {p : SciIf} {qpn : WqQpn} {s t : WqThread} {q : LifeQueue}

/-- The thread has not left its account behind. -/
theorem LifeOf.view {pc : WqThreadPc} (h : LifeOf qpn s q) (hp : s.pc = pc) (ht : pc ≠ .top)
    (he : pc ≠ .exit) : LifeView qpn s.wqState ⟨pc.task, s.wq.shouldStop⟩ q := by
  subst hp
  rcases h with h | ⟨_, hp | hp, _⟩
  · exact h
  · exact absurd hp ht
  · exact absurd hp he

/-- The thread keeps its place, or goes to one that is the same in its life. -/
theorem LifeView.quiet {pc : TaskPc} (h : LifeView qpn s.wqState ⟨pc, s.wq.shouldStop⟩ q)
    (hpc : t.pc.task = pc) (hst : t.wqState = s.wqState)
    (hs : t.wq.shouldStop = s.wq.shouldStop) : Follows p cfg.type q (LifeOf qpn t) :=
  .stay (.inl (by rw [hst, hs, hpc]; exact h))

theorem Follows.life {pc : TaskPc} {st : DisWqStatus} {stop : Bool}
    (h : Follows p cfg.type q (LifeView qpn st ⟨pc, stop⟩)) (hpc : t.pc.task = pc)
    (hst : t.wqState = st) (hs : t.wq.shouldStop = stop) :
    Follows p cfg.type q (LifeOf qpn t) :=
  h.imp fun q' hq => .inl (by rw [hst, hs, hpc]; exact hq)

theorem wqThreadStep_life {scil : MsqArgs → SciError} {out : Option UInt32}
    (h : wqThreadStep cfg p qpn scil out s = some t) (hl : LifeOf qpn s q) :
    Follows p cfg.type q (LifeOf qpn t) := by
  cases hp : s.pc with
  | setRunning =>
    simp only [wqThreadStep, hp] at h
    cases Option.some.inj h
    have hv := hl.view hp (by simp) (by simp)
    exact hv.running.life rfl rfl rfl
  | initTop =>
    simp only [wqThreadStep, hp] at h
    cases Option.some.inj h
    have hv := hl.view hp (by simp) (by simp)
    cases hs : s.wq.shouldStop with
    | true =>
      rw [hs] at hv
      exact hv.gaveUp.life rfl rfl hs
    | false => exact hv.quiet rfl rfl rfl
  | initCall =>
    simp only [wqThreadStep, hp] at h
    cases Option.some.inj h
    have hv := hl.view hp (by simp) (by simp)
    by_cases hret : disWqInitTry scil p cfg.type qpn = 0
    · cases hs : s.wq.shouldStop with
      | true =>
        -- the stop came during a call that connects
        rw [hs] at hv
        exact .stay (.inr ⟨hs, .inl (if_pos hret), hv⟩)
      | false =>
        rw [hs] at hv
        exact (hv.connected hret).life (by rw [if_pos hret]; rfl) rfl hs
    · exact hv.quiet (by rw [if_neg hret]; rfl) rfl rfl
  | initFailed =>
    simp only [wqThreadStep, hp] at h
    cases Option.some.inj h
    have hv := hl.view hp (by simp) (by simp)
    exact hv.exited.life rfl rfl rfl
  | top =>
    simp only [wqThreadStep, hp] at h
    cases Option.some.inj h
    rcases hl with hv | ⟨hs, _, hv⟩
    · rw [hp] at hv
      refine (LifeView.tested hv).life ?_ rfl rfl
      split <;> rfl
    · exact .stay (.inr ⟨hs, .inr (if_pos hs), hv⟩)
  | setEmpty =>
    simp only [wqThreadStep, hp] at h
    cases Option.some.inj h
    have hv := hl.view hp (by simp) (by simp)
    exact hv.quiet rfl rfl rfl
  | consume =>
    simp only [wqThreadStep, hp] at h
    obtain ⟨w, hw, rfl⟩ := Option.map_eq_some_iff.mp h
    have hv := hl.view hp (by simp) (by simp)
    obtain ⟨hs, hstop⟩ := workerStep_stop hw
    cases ha : w.worker with
    | idle => exact hv.drained.life rfl rfl hs
    | exited =>
      rw [hstop ha] at hv
      exact hv.broke.life rfl rfl (hs.trans (hstop ha))
    | _ => exact hv.quiet rfl rfl hs
  | testFlag signal =>
    simp only [wqThreadStep, hp] at h
    cases Option.some.inj h
    have hv := hl.view hp (by simp) (by simp)
    by_cases hf : s.wqFlag = .empty
    · exact hv.quiet (by rw [if_pos hf]; rfl) rfl rfl
    · exact (hv.waited true).life (by rw [if_neg hf]; rfl) rfl rfl
  | testStop signal =>
    have hv := hl.view hp (by simp) (by simp)
    simp only [wqThreadStep, hp] at h
    split at h
    next hs =>
      cases Option.some.inj h
      exact (hv.waited true).life rfl rfl rfl
    next =>
      cases signal with
      | none =>
        cases Option.some.inj h
        exact hv.quiet rfl rfl rfl
      | some killed =>
        cases Option.some.inj h
        cases killed with
        | true => exact (hv.waited false).life rfl rfl rfl
        | false => exact hv.quiet rfl rfl rfl
  | prepare | blocked =>
    simp only [wqThreadStep, hp] at h
    cases Option.some.inj h
    have hv := hl.view hp (by simp) (by simp)
    exact hv.quiet rfl rfl rfl
  | exit =>
    simp only [wqThreadStep, hp] at h
    cases Option.some.inj h
    rcases hl with hv | ⟨hs, _, hv⟩
    · rw [hp] at hv
      exact (LifeView.tornDown hv).life rfl rfl rfl
    · exact hv.gaveUp.life rfl rfl hs
  | setExited =>
    simp only [wqThreadStep, hp] at h
    cases Option.some.inj h
    have hv := hl.view hp (by simp) (by simp)
    exact hv.exited.life rfl rfl rfl
  | returned => simp [wqThreadStep, hp] at h

theorem task_ne_created (pc : WqThreadPc) : pc.task ≠ .created := by
  cases pc <;> simp [WqThreadPc.task]

/-- What comes from outside leaves the life of the thread as it is, a stop apart. -/
theorem wqThreadRun_life {a : WqThreadAct} (h : wqThreadRun cfg p qpn s a = some t)
    (hl : LifeOf qpn s q) : Follows p cfg.type q (LifeOf qpn t) := by
  have same (hp : t.pc = s.pc) (hst : t.wqState = s.wqState)
      (hs : t.wq.shouldStop = s.wq.shouldStop) : Follows p cfg.type q (LifeOf qpn t) := by
    refine .stay ?_
    rw [LifeOf, hp, hst, hs]
    exact hl
  cases a with
  | thread scil out => exact wqThreadStep_life h hl
  | start req =>
    obtain ⟨w, hw, rfl⟩ := Option.map_eq_some_iff.mp h
    obtain ⟨_, rfl⟩ := wqStep_start hw
    exact same rfl rfl rfl
  | poster buf =>
    obtain ⟨w, hw, rfl⟩ := Option.map_eq_some_iff.mp h
    exact same rfl rfl (by cases posterStep_move hw <;> rfl)
  | notify | kill =>
    cases Option.some.inj h
    exact same rfl rfl rfl
  | stop =>
    cases Option.some.inj h
    rcases hl with hv | ⟨_, hpc, hv⟩
    · exact (hv.stopped (task_ne_created _)).life rfl rfl rfl
    · exact (hv.stopped (by simp)).imp fun q' hq => .inr ⟨rfl, hpc, hq⟩

/-- In every run of the whole function, the ring is where its own model takes it and the thread is
where the model of its life takes it. -/
theorem reach_threadViews (h : Reach WqThreadInit (Acts (wqThreadRun cfg p qpn) anyAct) s) :
    Reach WqInit (Acts (wqStep cfg) anyAct) s.wq ∧
      ∃ q, Reach (LifeInit qpn) (Acts (lifeStep p cfg.type) anyAct) q ∧ LifeOf qpn s q := by
  refine ⟨reach_threadWq h, h.simulate (fun s q => LifeOf qpn s q) ?_ ?_⟩
  · rintro s ⟨hw, hp, hst, _⟩
    refine ⟨enteredLife qpn, ⟨rfl, rfl, rfl⟩, .inl ?_⟩
    rw [hp, hst, hw]
    exact ⟨rfl, rfl, rfl⟩
  · rintro s t q ⟨a, _, hs⟩ hl
    exact wqThreadRun_life hs hl

end

/-- The thread is not told to stop before it has entered its function. -/
def WakeAct.entered {ι : Type*} (s : WakeState ι) : WakeAct ι → Prop
  | .stop => s.thread.started
  | _ => True

section

variable {ι : Type*} {size : Nat} {p : SciIf} {type : DisWqType} {qpn : WqQpn}
  {s t : WakeState ι} {q : LifeQueue}

theorem Follows.wake {pc : TaskPc} {st : DisWqStatus} {stop : Bool}
    (h : Follows p type q (LifeView qpn st ⟨pc, stop⟩)) (hpc : t.thread.task = pc)
    (hst : t.wqState = st) (hs : t.shouldStop = stop) : Follows p type q (LifeOfWake qpn t) :=
  h.imp fun q' hq => by rw [LifeOfWake, hst, hs, hpc]; exact hq

theorem threadStep_life {ok : Bool} (h : threadStep size ok s = some t)
    (hl : LifeOfWake qpn s q) : Follows p type q (LifeOfWake qpn t) := by
  have view {pc : ThreadPc} (hp : s.thread = pc) :
      LifeView qpn s.wqState ⟨pc.task, s.shouldStop⟩ q := hp ▸ hl
  have quiet (hp : t.thread.task = s.thread.task) (hst : t.wqState = s.wqState)
      (hs : t.shouldStop = s.shouldStop) : Follows p type q (LifeOfWake qpn t) :=
    (Follows.stay hl).wake hp hst hs
  cases hp : s.thread with
  | absent | created | gone => simp [threadStep, hp] at h
  | setRunning =>
    simp only [threadStep, hp] at h
    cases Option.some.inj h
    exact (view hp).running.wake rfl rfl rfl
  | connect =>
    simp only [threadStep, hp] at h
    have hv := view hp
    split at h
    next hs =>
      cases Option.some.inj h
      rw [hs] at hv
      exact hv.gaveUp.wake rfl rfl hs
    next hs =>
      cases Option.some.inj h
      rw [Bool.not_eq_true] at hs
      rw [hs] at hv
      cases ok with
      | true =>
        have hret : disWqInitTry (fun _ => .ok) p type qpn = 0 := by cases type <;> rfl
        exact (hv.connected hret).wake rfl rfl hs
      | false => exact quiet (by rw [hp]; rfl) rfl rfl
  | top =>
    simp only [threadStep, hp] at h
    cases Option.some.inj h
    exact (view hp).tested.wake (by split <;> rfl) rfl rfl
  | drainTop =>
    simp only [threadStep, hp] at h
    cases Option.some.inj h
    have hv := view hp
    by_cases hs : s.shouldStop = true
    · rw [hs] at hv
      exact hv.broke.wake (by rw [if_pos hs]; rfl) rfl hs
    · exact quiet (by rw [if_neg hs, hp]; rfl) rfl rfl
  | gotHead head =>
    simp only [threadStep, hp] at h
    split at h
    next =>
      cases Option.some.inj h
      exact (view hp).drained.wake rfl rfl rfl
    next =>
      cases Option.some.inj h
      exact quiet (by rw [hp]; rfl) rfl rfl
  | setEmpty | loadHead | consume | advance | prepare =>
    simp only [threadStep, hp] at h
    cases Option.some.inj h
    exact quiet (by rw [hp]; rfl) rfl rfl
  | testFlag first =>
    simp only [threadStep, hp] at h
    cases Option.some.inj h
    by_cases hf : s.wqFlag = .empty
    · exact quiet (by simp only [if_pos hf]; rw [hp]; rfl) rfl rfl
    · exact ((view hp).waited true).wake (by simp only [if_neg hf]; rfl) rfl rfl
  | testStop first =>
    simp only [threadStep, hp] at h
    split at h
    next =>
      cases Option.some.inj h
      exact ((view hp).waited true).wake rfl rfl rfl
    next =>
      cases Option.some.inj h
      exact quiet (by rw [hp]; cases first <;> rfl) rfl rfl
  | blocked =>
    simp only [threadStep, hp] at h
    split at h
    next =>
      cases Option.some.inj h
      exact quiet (by rw [hp]; rfl) rfl rfl
    next => simp at h
  | disconnect =>
    simp only [threadStep, hp] at h
    cases Option.some.inj h
    exact (view hp).tornDown.wake rfl rfl rfl
  | setExited =>
    simp only [threadStep, hp] at h
    cases Option.some.inj h
    exact (view hp).exited.wake rfl rfl rfl

/-- Before the thread enters its function, nothing has told it to stop and the state is the one
that `dis_qp_init` stored. -/
structure BeforeEntry (s : WakeState ι) : Prop where
  shouldStop : s.shouldStop = false
  state : s.init = .setFlag ∨ s.init = .create ∨ s.init = .wakeThread → s.wqState = .initialized

theorem InitMove.entry (hm : InitMove s t) (hb : BeforeEntry s) :
    BeforeEntry t ∧ t.thread = s.thread ∨ BeforeEntry t ∧ t.thread = .created ∨
      t.thread = .setRunning ∧ t.wqState = .initialized ∧ t.shouldStop = false := by
  cases hm with
  | test _ hpc =>
    refine .inl ⟨⟨hb.shouldStop, ?_⟩, rfl⟩
    rintro (rfl | rfl | rfl) <;> simp at hpc
  | state => exact .inl ⟨⟨hb.shouldStop, fun _ => rfl⟩, rfl⟩
  | flag hi => exact .inl ⟨⟨hb.shouldStop, fun _ => hb.state (.inl hi)⟩, rfl⟩
  | created hi => exact .inr (.inl ⟨⟨hb.shouldStop, fun _ => hb.state (.inr (.inl hi))⟩, rfl⟩)
  | failed => exact .inl ⟨⟨hb.shouldStop, by simp⟩, rfl⟩
  | undo => exact .inl ⟨⟨hb.shouldStop, by simp⟩, rfl⟩
  | wake hi => exact .inr (.inr ⟨rfl, hb.state (.inr (.inr hi)), hb.shouldStop⟩)

variable [DecidableEq ι]

theorem wakeStep_life {a : WakeAct ι} (h : wakeStep size s a = some t) (ht : s.thread.started)
    (hi : s.init = .done) (hl : LifeOfWake qpn s q) :
    t.thread.started ∧ Follows p type q (LifeOfWake qpn t) := by
  cases a with
  | poster i accepts =>
    cases Option.some.inj h
    obtain ⟨hp, hs, hst, _⟩ := (notifyStep_move size i accepts s).frame
    refine ⟨?_, (Follows.stay hl).wake (by rw [hp]) hst hs⟩
    rw [hp]
    exact ht
  | init => simp [wakeStep, initStep, hi] at h
  | thread ok => exact ⟨(threadStep_move h).started, threadStep_life h hl⟩
  | kill =>
    obtain ⟨hp, ht⟩ := Option.ite_none_right_eq_some.mp h
    cases Option.some.inj ht
    have hv : LifeView qpn s.wqState ⟨.wait, s.shouldStop⟩ q := by
      rw [LifeOfWake, hp] at hl
      exact hl
    exact ⟨trivial, (hv.waited false).wake rfl rfl rfl⟩
  | stop =>
    cases Option.some.inj h
    refine ⟨ht, (LifeView.stopped hl fun hc => ?_).wake rfl rfl rfl⟩
    cases hp : s.thread <;> simp [hp, ThreadPc.task, ThreadPc.started] at ht hc

/-- In every run in which nothing tells the thread to stop before it has entered its function,
the thread that is waited for and woken is where the model of its life takes it. -/
theorem reach_wakeLife (h : Reach WakeInit (Acts (wakeStep size) WakeAct.entered) s) :
    (¬ s.thread.started → BeforeEntry s) ∧ (s.thread.started →
      ∃ q, Reach (LifeInit qpn) (Acts (lifeStep p type) anyAct) q ∧ LifeOfWake qpn s q) := by
  apply h.invariant
  · rintro s rfl
    exact ⟨fun _ => ⟨rfl, by simp⟩, False.elim⟩
  · rintro s t hr ⟨before, life⟩ ⟨a, ha, hs⟩
    by_cases ht : s.thread.started
    · obtain ⟨q, hq, hl⟩ := life ht
      have hi := ((reach_wakeInv hr).running ht).2
      have hf : t.thread.started ∧ Follows p type q (LifeOfWake qpn t) :=
        wakeStep_life hs ht hi hl
      obtain ⟨ht', q', hrun, hl'⟩ := hf
      exact ⟨fun hn => absurd ht' hn, fun _ => ⟨q', hq.steps hrun, hl'⟩⟩
    · have hb := before ht
      have same (hp : t.thread = s.thread) (hb' : BeforeEntry t) :
          (¬ t.thread.started → BeforeEntry t) ∧ (t.thread.started →
            ∃ q, Reach (LifeInit qpn) (Acts (lifeStep p type) anyAct) q ∧ LifeOfWake qpn t q) :=
        ⟨fun _ => hb', fun hn => absurd (hp ▸ hn) ht⟩
      cases a with
      | poster i accepts =>
        cases Option.some.inj hs
        obtain ⟨hp, hstop, hst, _⟩ := (notifyStep_move size i accepts s).frame
        refine same hp ⟨hstop.trans hb.shouldStop, ?_⟩
        rw [hst, (notifyStep_move size i accepts s).init]
        exact hb.state
      | init ok =>
        rcases (initStep_move hs).entry hb with ⟨hb', hp⟩ | ⟨hb', hp⟩ | ⟨hp, hst, hstop⟩
        · exact same hp hb'
        · exact ⟨fun _ => hb', fun hn => by rw [hp] at hn; exact hn.elim⟩
        · refine ⟨fun hn => by rw [hp] at hn; exact absurd trivial hn, fun _ => ?_⟩
          refine ⟨enteredLife qpn, reach_start ⟨rfl, rfl, rfl⟩, ?_⟩
          rw [LifeOfWake, hp, hst, hstop]
          exact ⟨rfl, rfl, rfl⟩
      | thread ok =>
        refine absurd ?_ ht
        cases hp : s.thread <;> first | trivial | simp [wakeStep, threadStep, hp] at hs
      | kill =>
        obtain ⟨hp, _⟩ := Option.ite_none_right_eq_some.mp hs
        exact absurd (by rw [hp]; trivial) ht
      | stop => exact absurd ha ht

end

end DisKverbs
