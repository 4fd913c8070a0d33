import DisKverbs.WakeUp

namespace DisKverbs

open CircBuf

/-- A posting context that has stored head and has not finished `dis_qp_notify`. -/
def NotifyPc.notifying : NotifyPc → Prop
  | .testState | .setFlag | .wake => True
  | _ => False

/-- A notifying context that has yet to set the flag. -/
def NotifyPc.unflagged : NotifyPc → Prop
  | .testState | .setFlag => True
  | _ => False

/-- The worker is somewhere in `wait_event_killable`. -/
def ThreadPc.waits : ThreadPc → Prop
  | .testFlag _ | .testStop _ | .prepare | .blocked => True
  | _ => False

/-- The worker has found the flag empty since it last went on the wait queue. -/
def ThreadPc.dozes : ThreadPc → Prop
  | .testStop false | .blocked => True
  | _ => False

/-- The worker runs, and the wake-up argument has nothing to remember about it. -/
def ThreadPc.busy : ThreadPc → Prop
  | .absent | .created | .gotHead _ | .testFlag _ | .testStop _ | .prepare | .blocked => False
  | _ => True

def ThreadPc.started : ThreadPc → Prop
  | .absent | .created => False
  | _ => True

section

variable {ι : Type*}

inductive NotifyMove [DecidableEq ι] (size : Nat) (i : ι) (s : WakeState ι) : WakeState ι → Prop
  | quiet {pc} : ¬ (s.posters i).notifying → ¬ pc.notifying →
      NotifyMove size i s (s.setPoster i pc)
  | store {head} : s.posters i = .store head →
      NotifyMove size i s { s.setPoster i .testState with head := circNext head size }
  | skip : s.posters i = .testState → s.wqState = .uninitialized →
      NotifyMove size i s (s.setPoster i .idle)
  | test : s.posters i = .testState → s.wqState ≠ .uninitialized →
      NotifyMove size i s (s.setPoster i .setFlag)
  | flag : s.posters i = .setFlag →
      NotifyMove size i s { s.setPoster i .wake with wqFlag := .post }
  | wake : s.posters i = .wake →
      NotifyMove size i s { s.setPoster i .idle with runnable := true }

theorem notifyStep_move [DecidableEq ι] (size : Nat) (i : ι) (accepts : Bool) (s : WakeState ι) :
    NotifyMove size i s (notifyStep size i accepts s) := by
  unfold notifyStep
  split
  next hp => exact .quiet (by simp [hp, NotifyPc.notifying]) (by simp [NotifyPc.notifying])
  next head hp =>
    have hq : ¬ (s.posters i).notifying := by simp [hp, NotifyPc.notifying]
    by_cases hs : circSpace head s.tail size < 1
    · rw [if_pos hs]
      exact .quiet hq (by simp [NotifyPc.notifying])
    · rw [if_neg hs]
      cases accepts
      · exact .quiet hq (by simp [NotifyPc.notifying])
      · exact .quiet hq (by simp [NotifyPc.notifying])
  next hp => exact .store hp
  next hp =>
    by_cases hu : s.wqState = .uninitialized
    · rw [if_pos hu]
      exact .skip hp hu
    · rw [if_neg hu]
      exact .test hp hu
  next hp => exact .flag hp
  next hp => exact .wake hp

theorem NotifyMove.frame [DecidableEq ι] {size : Nat} {i : ι} {s t : WakeState ι}
    (h : NotifyMove size i s t) : t.thread = s.thread ∧ t.shouldStop = s.shouldStop ∧
      t.wqState = s.wqState ∧ (s.runnable = true → t.runnable = true) := by
  cases h with
  | wake => exact ⟨rfl, rfl, rfl, fun _ => rfl⟩
  | _ => exact ⟨rfl, rfl, rfl, id⟩

theorem NotifyMove.init [DecidableEq ι] {size : Nat} {i : ι} {s t : WakeState ι}
    (h : NotifyMove size i s t) : t.init = s.init := by
  cases h <;> rfl

inductive InitMove (s : WakeState ι) : WakeState ι → Prop
  | test {pc} : s.init = .testState → pc = .setState ∨ pc = .done ∧ s.wqState = .exited →
      InitMove s { s with init := pc }
  | state : s.init = .setState → InitMove s { s with wqState := .initialized, init := .setFlag }
  | flag : s.init = .setFlag → InitMove s { s with wqFlag := .empty, init := .create }
  | created : s.init = .create → InitMove s { s with thread := .created, init := .wakeThread }
  | failed : s.init = .create → InitMove s { s with init := .undo }
  | undo : s.init = .undo → InitMove s { s with wqState := .uninitialized, init := .done }
  | wake : s.init = .wakeThread → InitMove s { s with thread := .setRunning, init := .done }

theorem initStep_move {ok : Bool} {s t : WakeState ι} (h : initStep ok s = some t) :
    InitMove s t := by
  unfold initStep at h
  split at h
  next hi =>
    cases Option.some.inj h
    by_cases he : s.wqState = .exited
    · exact .test hi (.inr ⟨if_pos he, he⟩)
    · exact .test hi (.inl (if_neg he))
  next hi => cases Option.some.inj h; exact .state hi
  next hi => cases Option.some.inj h; exact .flag hi
  next hi =>
    split at h
    next => cases Option.some.inj h; exact .created hi
    next => cases Option.some.inj h; exact .failed hi
  next hi => cases Option.some.inj h; exact .undo hi
  next hi => cases Option.some.inj h; exact .wake hi
  next => simp at h

/-- The accesses of the worker, and the signal that ends its wait. -/
inductive ThreadMove (size : Nat) (s : WakeState ι) : WakeState ι → Prop
  | run {pc} : s.thread.started → pc.busy → ThreadMove size s { s with thread := pc }
  | running : s.thread = .setRunning →
      ThreadMove size s { s with wqState := .running, thread := .connect }
  | clear : s.thread = .setEmpty →
      ThreadMove size s { s with wqFlag := .empty, thread := .drainTop }
  | look : s.thread = .loadHead → ThreadMove size s { s with thread := .gotHead s.head }
  | drained {head} : s.thread = .gotHead head → circCnt head s.tail size < 1 →
      ThreadMove size s { s with thread := .testFlag true }
  | advance {tail} : s.thread = .advance tail →
      ThreadMove size s { s with tail := circNext tail size, thread := .drainTop }
  | wait {pc} : s.thread.waits → pc.waits → (pc.dozes → s.wqFlag = .empty ∨ s.thread.dozes) →
      ThreadMove size s { s with thread := pc }
  | prepare : s.thread = .prepare →
      ThreadMove size s { s with runnable := false, thread := .testFlag false }
  | exited : s.thread = .setExited →
      ThreadMove size s { s with wqState := .exited, thread := .gone }

theorem ThreadMove.started {size : Nat} {s t : WakeState ι} (h : ThreadMove size s t) :
    t.thread.started := by
  cases h with
  | @run pc _ hb => cases pc <;> trivial
  | @wait pc _ hw => cases pc <;> trivial
  | _ => trivial

theorem threadStep_move {size : Nat} {ok : Bool} {s t : WakeState ι}
    (h : threadStep size ok s = some t) : ThreadMove size s t := by
  have run {pc : ThreadPc} (hs : s.thread.started) (hpc : pc.busy)
      (ht : some { s with thread := pc } = some t) : ThreadMove size s t := by
    cases Option.some.inj ht
    exact .run hs hpc
  unfold threadStep at h
  split at h
  next => simp at h
  next => simp at h
  next hw => cases Option.some.inj h; exact .running hw
  next hw =>
    have hs : s.thread.started := by rw [hw]; trivial
    split at h
    next => exact run hs (by trivial) h
    next => exact run hs (by cases ok <;> trivial) h
  next hw =>
    exact run (by rw [hw]; trivial) (by cases s.shouldStop <;> trivial) h
  next hw => cases Option.some.inj h; exact .clear hw
  next hw =>
    exact run (by rw [hw]; trivial) (by cases s.shouldStop <;> trivial) h
  next hw => cases Option.some.inj h; exact .look hw
  next hw =>
    split at h
    next hc => cases Option.some.inj h; exact .drained hw hc
    next => exact run (by rw [hw]; trivial) (by trivial) h
  next hw => exact run (by rw [hw]; trivial) (by trivial) h
  next hw => cases Option.some.inj h; exact .advance hw
  next first hw =>
    have hs : s.thread.waits := by rw [hw]; trivial
    by_cases hf : s.wqFlag = .empty
    · rw [if_pos hf] at h
      cases Option.some.inj h
      exact .wait hs trivial fun _ => .inl hf
    · rw [if_neg hf] at h
      exact run (by rw [hw]; trivial) (by trivial) h
  next first hw =>
    split at h
    next => exact run (by rw [hw]; trivial) (by trivial) h
    next =>
      cases Option.some.inj h
      cases first with
      | true => exact .wait (by rw [hw]; trivial) trivial False.elim
      | false => exact .wait (by rw [hw]; trivial) trivial fun _ => .inr (by rw [hw]; trivial)
  next hw => cases Option.some.inj h; exact .prepare hw
  next hw =>
    split at h
    next => cases Option.some.inj h; exact .wait (by rw [hw]; trivial) trivial False.elim
    next => simp at h
  next hw => exact run (by rw [hw]; trivial) (by trivial) h
  next hw => cases Option.some.inj h; exact .exited hw
  next => simp at h

theorem wakeStep_move [DecidableEq ι] {size : Nat} {s t : WakeState ι} {a : WakeAct ι}
    (h : wakeStep size s a = some t) :
    (∃ i, NotifyMove size i s t) ∨ InitMove s t ∨ ThreadMove size s t ∨
      t = { s with shouldStop := true, runnable := true } := by
  cases a with
  | poster i accepts =>
    cases Option.some.inj h
    exact .inl ⟨i, notifyStep_move size i accepts s⟩
  | init ok => exact .inr (.inl (initStep_move h))
  | thread ok => exact .inr (.inr (.inl (threadStep_move h)))
  | kill =>
    simp only [wakeStep] at h
    split at h
    next hw =>
      cases Option.some.inj h
      exact .inr (.inr (.inl (.run (by rw [hw]; trivial) trivial)))
    next => simp at h
  | stop => exact .inr (.inr (.inr (Option.some.inj h).symm))

end

end DisKverbs
