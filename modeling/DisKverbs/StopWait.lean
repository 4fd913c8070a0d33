import DisKverbs.LifePhases
import DisKverbs.StepSystem

namespace DisKverbs

open StepSystem

/-- A call of `dis_qp_init` and one of `dis_qp_exit` on a queue, in any interleaving with
the thread. `stoppedAt` is where the thread was when `kthread_stop` set its stop flag. -/
structure ExitState where
  q : LifeQueue
  init : QpInitPc
  exit : QpExitPc
  stoppedAt : Option TaskPc

inductive ExitAct
  | init (out : KthreadCreate)
  | task (i : Nat) (env : TaskEnv)
  | exit

def ExitState.stopping (s : ExitState) : Option TaskPc :=
  match s.exit, s.q.thread with
  | .stop, .task i => some (s.q.tasks i).pc
  | _, _ => s.stoppedAt

def exitStep (p : SciIf) (type : DisWqType) (s : ExitState) : ExitAct → Option ExitState
  | .init out => (qpInitStep out s.q s.init).map fun r => { s with q := r.1, init := r.2 }
  | .task i env => (taskStep p type env s.q i).map fun q => { s with q := q }
  | .exit => (qpExitStep s.q s.exit).map fun r =>
      { s with q := r.1, exit := r.2, stoppedAt := s.stopping }

def ExitInit (s : ExitState) : Prop :=
  ∃ qpn mtu, s = ⟨{ zeroLife with qpn := qpn, mtu := mtu }, .testState, .testState, none⟩

/-- `kthread_stop` has been called and has returned. -/
def ExitState.stopReturned (s : ExitState) : Prop :=
  s.stoppedAt.isSome ∧ (s.exit = .wake ∨ s.exit = .loop ∨ s.exit = .done)

structure StopCompletes (p : SciIf) (type : DisWqType) (s : ExitState) : Prop where
  exited : s.q.wqState = .exited
  ends : s.exit = .loop → ∃ t, exitStep p type s .exit = some t ∧ t.exit = .done

inductive ExitPhase (s : ExitState) : Prop
  | early : s.stoppedAt = none → LifePhase s.init s.q →
      (s.init = .testState → s.q.wqState = .uninitialized) →
      s.exit = .testState ∨ s.exit = .stop ∨ s.exit = .done → ExitPhase s
  | late {pc : TaskPc} : s.stoppedAt = some pc → Staffed s.init s.q → s.init ≠ .testState →
      (s.q.tasks 0).shouldStop = true → (s.q.tasks 0).pc ≠ .created →
      (pc.entered ↔ (s.q.tasks 0).pc.entered) →
      s.exit = .join 0 ∨ (s.q.tasks 0).pc.ended = true ∧
        (s.exit = .wake ∨ s.exit = .loop ∨ s.exit = .done) → ExitPhase s

section

variable {p : SciIf} {type : DisWqType} {s t : ExitState}

/-- A thread that is told to stop does not enter its function any more. -/
theorem TaskMove.stopped {q q' : LifeQueue} {i : Nat} (h : TaskMove q i q')
    (hs : (q.tasks i).shouldStop = true) :
    ((q'.tasks i).pc.entered ↔ (q.tasks i).pc.entered) ∧ (q'.tasks i).shouldStop = true ∧
      (q'.tasks i).pc ≠ .created := by
  have serves {pc : TaskPc} (hv : pc.serving) : pc ≠ .created := by
    rintro rfl
    exact hv
  cases h with
  | stay hv => exact ⟨Iff.rfl, hs, serves hv⟩
  | skip hp _ => simp [hp, hs, TaskPc.entered]
  | enter _ hn => simp [hs] at hn
  | running hp => simp [hp, hs, TaskPc.entered]
  | serve hv hv' =>
    rw [setTask_self]
    exact ⟨⟨fun _ => serving_entered hv, fun _ => serving_entered hv'⟩, hs, serves hv'⟩
  | exited hp => simp [hp, hs, TaskPc.entered]

theorem qpInitStep_leaves {out : KthreadCreate} {q : LifeQueue} {pc : QpInitPc}
    {r : LifeQueue × QpInitPc} (h : qpInitStep out q pc = some r) : r.2 ≠ .testState := by
  cases qpInitStep_move h <;> simp

/-- Once there is a thread, all that `dis_qp_init` still does is wake it. -/
theorem Staffed.init_wakes {out : KthreadCreate} {q : LifeQueue} {pc : QpInitPc}
    {r : LifeQueue × QpInitPc} (hp : Staffed pc q) (ht : pc ≠ .testState)
    (hs : qpInitStep out q pc = some r) : pc = .wake ∧ r = (q.wake 0, .ret 0) := by
  have hinit := hp.init
  cases qpInitStep_move hs with
  | refused | free => exact absurd rfl ht
  | wake hi =>
    obtain rfl := hp.named hi
    exact ⟨rfl, rfl⟩
  | _ => exact hinit.elim

theorem ExitPhase.init {out : KthreadCreate} {r : LifeQueue × QpInitPc} (h : ExitPhase s)
    (hs : qpInitStep out s.q s.init = some r) : ExitPhase { s with q := r.1, init := r.2 } := by
  have hleave := qpInitStep_leaves hs
  cases h with
  | early hn hp hu he =>
    refine .early hn (hp.init (fun hi => ?_) hs) (fun hi => absurd hi hleave) he
    simp [FirstStart, hu hi]
  | late hn hp ht hstop hc hiff he =>
    obtain ⟨_, rfl⟩ := hp.init_wakes ht hs
    have hq : s.q.wake 0 = s.q := by rw [LifeQueue.wake, if_neg hc]
    simp only [hq]
    exact .late hn ⟨trivial, hp.other, hp.made, hp.fresh, hp.thread, hp.state⟩ (by simp) hstop hc
      hiff he

theorem ExitPhase.task {i : Nat} {q : LifeQueue} (h : ExitPhase s) (hm : TaskMove s.q i q) :
    ExitPhase { s with q := q } := by
  cases h with
  | early hn hp hu he =>
    refine .early hn (hp.task hm) (fun hi => ?_) he
    rcases hp with hv | hp
    · exact absurd (hv.tasks i) hm.present
    · exact absurd (status_vacant (hp.state.symm.trans (hu hi))) hp.made
  | @late pc hn hp ht hstop hc hiff he =>
    have hphase : LifePhase s.init q := LifePhase.task (.inr hp) hm
    have hi : i = 0 := hp.only hm.present
    subst hi
    obtain ⟨hent, hstop', hc'⟩ := hm.stopped hstop
    have hjoin : s.exit = .join 0 := by
      rcases he with he | ⟨he, _⟩
      · exact he
      · simp [hm.not_ended] at he
    rcases hphase with hv | hst
    · exact absurd (hv.tasks 0) (hm.status hp.state).2
    · exact .late hn hst ht hstop' hc' (hiff.trans hent.symm) (.inl hjoin)

/-- `kthread_stop` wakes a thread that was never woken; it does not make it enter. -/
theorem stop_entered (q : LifeQueue) (i : Nat) : ((q.stop i).tasks i).pc ≠ .created ∧
    ((q.tasks i).pc.entered ↔ ((q.stop i).tasks i).pc.entered) := by
  have hupd : (Function.update q.tasks i { q.tasks i with shouldStop := true } i).pc =
      (q.tasks i).pc := by simp
  by_cases hc : (q.tasks i).pc = .created
  · simp [LifeQueue.stop, LifeQueue.wake, hc, TaskPc.entered]
  · simp [LifeQueue.stop, LifeQueue.wake, hc]

theorem ExitPhase.exit {r : LifeQueue × QpExitPc} (h : ExitPhase s)
    (hs : qpExitStep s.q s.exit = some r) :
    ExitPhase { s with q := r.1, exit := r.2, stoppedAt := s.stopping } := by
  obtain ⟨q, pc⟩ := r
  cases h with
  | early hn hp hu he =>
    rcases he with he | he | he
    · rw [he] at hs
      cases Option.some.inj hs
      refine .early (by simpa [ExitState.stopping, he] using hn) hp hu ?_
      by_cases hz : s.q.wqState = .uninitialized ∨ s.q.wqState = .exited
      · exact .inr (.inr (if_pos hz))
      · exact .inr (.inl (if_neg hz))
    · simp only [qpExitStep, he] at hs
      split at hs
      next i hi =>
        cases Option.some.inj hs
        rcases hp with hv | hp
        · exact absurd hi (hv.thread i)
        · have hi0 : i = 0 := hp.named hi
          subst hi0
          obtain ⟨hc, hiff⟩ := stop_entered s.q 0
          have ht : s.init ≠ .testState := fun ht =>
            hp.made (status_vacant (hp.state.symm.trans (hu ht)))
          refine .late (by simp [ExitState.stopping, he, hi]) ?_ ht (stop_shouldStop s.q 0) hc hiff
            (.inl rfl)
          exact hp.woken hp.init (stop_pc s.q 0) (stop_frame s.q 0)
      next => simp at hs
    · simp [qpExitStep, he] at hs
  | late hn hp ht hstop hc hiff he =>
    have hstay : s.stopping = s.stoppedAt := by
      rcases he with he | ⟨_, he | he | he⟩ <;> simp [ExitState.stopping, he]
    rcases he with he | ⟨hend, he | he | he⟩
    · simp only [qpExitStep, he] at hs
      split at hs
      next hend =>
        cases Option.some.inj hs
        exact .late (hstay.trans hn) hp ht hstop hc hiff (.inr ⟨hend, .inl rfl⟩)
      next => simp at hs
    · rw [he] at hs
      cases Option.some.inj hs
      exact .late (hstay.trans hn) hp ht hstop hc hiff (.inr ⟨hend, .inr (.inl rfl)⟩)
    · rw [he] at hs
      cases Option.some.inj hs
      refine .late (hstay.trans hn) hp ht hstop hc hiff (.inr ⟨hend, .inr ?_⟩)
      by_cases hx : s.q.wqState = .exited
      · exact .inr (if_pos hx)
      · exact .inl (if_neg hx)
    · simp [qpExitStep, he] at hs

theorem reach_exitPhase {ok : ExitState → ExitAct → Prop}
    (h : Reach ExitInit (Acts (exitStep p type) ok) s) : ExitPhase s := by
  apply h.invariant
  · rintro s ⟨qpn, mtu, rfl⟩
    exact .early rfl (.inl ⟨fun _ => rfl, rfl, by simp [zeroLife], rfl⟩) (fun _ => rfl) (.inl rfl)
  · rintro s t _ hv ⟨a, _, hs⟩
    cases a with
    | init out =>
      obtain ⟨r, hr, rfl⟩ := Option.map_eq_some_iff.mp hs
      exact hv.init hr
    | task i env =>
      obtain ⟨q, hq, rfl⟩ := Option.map_eq_some_iff.mp hs
      exact hv.task (taskStep_move hq)
    | exit =>
      obtain ⟨r, hr, rfl⟩ := Option.map_eq_some_iff.mp hs
      exact hv.exit hr

theorem ended_gone_iff {pc : TaskPc} (h : pc.ended = true) : pc.status = .exited ↔ pc.entered := by
  cases pc <;> simp [TaskPc.ended, TaskPc.status, TaskPc.entered] at h ⊢

theorem ExitPhase.exited_iff (h : ExitPhase s) {pc : TaskPc} (hr : s.stopReturned)
    (hpc : s.stoppedAt = some pc) : s.q.wqState = .exited ↔ pc.entered := by
  cases h with
  | early hn _ _ _ => simp [hn] at hpc
  | late hn hp _ _ _ hiff he =>
    rw [hpc] at hn
    cases hn
    have hend : (s.q.tasks 0).pc.ended = true := by
      rcases he with he | ⟨hend, _⟩
      · rcases hr.2 with hx | hx | hx <;> simp [he] at hx
      · exact hend
    rw [hp.state, ended_gone_iff hend]
    exact hiff.symm

/-- `kthread_stop` returns with an exited queue, and the loop after it ends, exactly if the
thread had entered its function when it was told to stop. -/
theorem reach_stopCompletes (p : SciIf) (type : DisWqType) (s : ExitState) (pc : TaskPc)
    (h : Reach ExitInit (Acts (exitStep p type) anyAct) s) (hr : s.stopReturned)
    (hpc : s.stoppedAt = some pc) : StopCompletes p type s ↔ pc.entered := by
  have hx := (reach_exitPhase h).exited_iff hr hpc
  refine ⟨fun hc => hx.mp hc.exited, fun hent => ⟨hx.mpr hent, fun hl => ?_⟩⟩
  refine ⟨_, by simp only [exitStep, hl, qpExitStep]; rfl, ?_⟩
  simp [hx.mpr hent]

/-- Otherwise `dis_qp_exit` waits for a state that nobody will set. -/
theorem loop_forever (pc : TaskPc) (h : Reach ExitInit (Acts (exitStep p type) anyAct) s)
    (hl : s.exit = .loop) (hpc : s.stoppedAt = some pc) (hent : ¬ pc.entered)
    (hst : Relation.ReflTransGen (Acts (exitStep p type) anyAct) s t) : t.exit = .loop := by
  have key : Reach ExitInit (Acts (exitStep p type) anyAct) t ∧ t.exit = .loop ∧
      t.stoppedAt = some pc := by
    induction hst with
    | refl => exact ⟨h, hl, hpc⟩
    | @tail u v _ huv ih =>
      obtain ⟨hu, hul, hup⟩ := ih
      refine ⟨hu.next huv, ?_⟩
      obtain ⟨a, _, hs⟩ := huv
      cases a with
      | init out =>
        obtain ⟨r, _, rfl⟩ := Option.map_eq_some_iff.mp hs
        exact ⟨hul, hup⟩
      | task i env =>
        obtain ⟨q, _, rfl⟩ := Option.map_eq_some_iff.mp hs
        exact ⟨hul, hup⟩
      | exit =>
        obtain ⟨r, hr, rfl⟩ := Option.map_eq_some_iff.mp hs
        have hret : u.stopReturned := ⟨by simp [hup], .inr (.inl hul)⟩
        have hne : u.q.wqState ≠ .exited := fun hx =>
          hent (((reach_exitPhase hu).exited_iff hret hup).mp hx)
        simp only [hul, qpExitStep, if_neg hne] at hr
        cases Option.some.inj hr
        exact ⟨rfl, by simpa [ExitState.stopping, hul] using hup⟩
  exact key.2.1

end

def freshExit : ExitState := ⟨zeroLife, .testState, .testState, none⟩

theorem freshExit_init : ExitInit freshExit := ⟨⟨0, 0⟩, 0, rfl⟩

def startActs : List ExitAct := List.replicate 4 (.init .thread)

/-- The worker drains the ring and waits when it is told to stop. -/
def stopActs : List ExitAct :=
  startActs ++ List.replicate 5 (.task 0 fineEnv) ++ [.exit, .exit] ++
    List.replicate 4 (.task 0 fineEnv) ++ [.exit, .exit]

theorem reach_stopCompletes_wait :
    StopCompletes initiatorIf .rq (afterActs (exitStep initiatorIf .rq) freshExit stopActs) ↔
      TaskPc.wait.entered :=
  reach_stopCompletes initiatorIf .rq (afterActs (exitStep initiatorIf .rq) freshExit stopActs) .wait
    (reach_afterActs freshExit_init stopActs) ⟨by decide, by decide⟩ (by decide)

/-- The thread has been woken, but the stop request comes before it runs. -/
def skipActs : List ExitAct := startActs ++ [.exit, .exit, .task 0 fineEnv, .exit, .exit]

def skippedExit : ExitState := afterActs (exitStep initiatorIf .rq) freshExit skipActs

theorem stop_before_entry :
    Reach ExitInit (Acts (exitStep initiatorIf .rq) anyAct) skippedExit ∧
      skippedExit.stopReturned ∧ skippedExit.q.wqState = .initialized ∧
      ¬ StopCompletes initiatorIf .rq skippedExit ∧
      ∀ t, Relation.ReflTransGen (Acts (exitStep initiatorIf .rq) anyAct) skippedExit t →
        t.exit = .loop := by
  have hr : Reach ExitInit (Acts (exitStep initiatorIf .rq) anyAct) skippedExit :=
    reach_afterActs freshExit_init skipActs
  have hst : skippedExit.q.wqState = .initialized := by decide
  refine ⟨hr, ⟨by decide, by decide⟩, hst, fun hc => ?_, fun t ht => ?_⟩
  · have hx := hc.exited
    rw [hst] at hx
    simp at hx
  · exact loop_forever .woken hr (by decide) (by decide) not_false ht

end DisKverbs
