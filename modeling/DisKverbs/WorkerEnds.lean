import DisKverbs.NoLostWakeup
import DisKverbs.OwnSteps

namespace DisKverbs

open CircBuf OwnSteps StepSystem

section

variable {ι : Type*} [DecidableEq ι]

def WakeAct.byThread : WakeAct ι → Bool
  | .thread _ => true
  | _ => false

/-- The accesses of a worker that was told to stop, before the one that ends it. -/
def ThreadPc.stopCost : ThreadPc → Nat
  | .setExited | .absent | .created | .gone => 0
  | .disconnect | .connect => 1
  | .top | .setRunning | .drainTop => 2
  | .setEmpty | .testStop _ | .advance _ => 3
  | .testFlag _ | .consume _ => 4
  | .prepare | .gotHead _ => 5
  | .blocked | .loadHead => 6

/-- A worker that was started was told to stop and is not gone yet. -/
structure StopAt (size : Nat) (s : WakeState ι) (n : Nat) : Prop where
  reach : Reach WakeInit (Acts (wakeStep size) anyAct) s
  stop : s.shouldStop = true
  started : s.thread.started
  running : s.thread ≠ .gone
  cost : s.thread.stopCost ≤ n

def Gone (size : Nat) (s : WakeState ι) : Prop :=
  Reach WakeInit (Acts (wakeStep size) anyAct) s ∧ s.thread = .gone

section

variable {size : Nat} {s t : WakeState ι} {n : Nat}

omit [DecidableEq ι] in
theorem InitMove.frame (h : InitMove s t) : t.shouldStop = s.shouldStop ∧
    (t.thread = s.thread ∧ t.runnable = s.runnable ∨
      t.thread ≠ .blocked ∧ (s.init = .create ∨ s.init = .wakeThread)) := by
  cases h with
  | created hi => exact ⟨rfl, .inr ⟨by simp, .inl hi⟩⟩
  | wake hi => exact ⟨rfl, .inr ⟨by simp, .inr hi⟩⟩
  | _ => exact ⟨rfl, .inl ⟨rfl, rfl⟩⟩

omit [DecidableEq ι] in
/-- Told to stop, a worker goes straight to its end and does not go to sleep any more. -/
theorem threadStep_stopped {ok : Bool} (hs : s.shouldStop = true)
    (h : threadStep size ok s = some t) : t.shouldStop = true ∧ t.thread ≠ .blocked ∧
      (t.thread = .gone ∨ t.thread ≠ .gone ∧ t.thread.started ∧
        t.thread.stopCost < s.thread.stopCost) := by
  have goes {pc pc' : ThreadPc} (hp : s.thread = pc) (hst : t.shouldStop = s.shouldStop)
      (ht : t.thread = pc')
      (hpc : pc' ≠ .blocked ∧ pc' ≠ .gone ∧ pc'.started ∧ pc'.stopCost < pc.stopCost) :
      t.shouldStop = true ∧ t.thread ≠ .blocked ∧ (t.thread = .gone ∨ t.thread ≠ .gone ∧
        t.thread.started ∧ t.thread.stopCost < s.thread.stopCost) := by
    subst hp ht
    exact ⟨hst.trans hs, hpc.1, .inr hpc.2⟩
  unfold threadStep at h
  split at h
  next => simp at h
  next => simp at h
  next hp =>
    cases Option.some.inj h
    exact goes hp rfl rfl (by simp [ThreadPc.started, ThreadPc.stopCost])
  next hp =>
    rw [if_pos hs] at h
    cases Option.some.inj h
    exact goes hp rfl rfl (by simp [ThreadPc.started, ThreadPc.stopCost])
  next hp =>
    rw [if_pos hs] at h
    cases Option.some.inj h
    exact goes hp rfl rfl (by simp [ThreadPc.started, ThreadPc.stopCost])
  next hp =>
    cases Option.some.inj h
    exact goes hp rfl rfl (by simp [ThreadPc.started, ThreadPc.stopCost])
  next hp =>
    rw [if_pos hs] at h
    cases Option.some.inj h
    exact goes hp rfl rfl (by simp [ThreadPc.started, ThreadPc.stopCost])
  next hp =>
    cases Option.some.inj h
    exact goes hp rfl rfl (by simp [ThreadPc.started, ThreadPc.stopCost])
  next hp =>
    split at h
    next =>
      cases Option.some.inj h
      exact goes hp rfl rfl (by simp [ThreadPc.started, ThreadPc.stopCost])
    next =>
      cases Option.some.inj h
      exact goes hp rfl rfl (by simp [ThreadPc.started, ThreadPc.stopCost])
  next hp =>
    cases Option.some.inj h
    exact goes hp rfl rfl (by simp [ThreadPc.started, ThreadPc.stopCost])
  next hp =>
    cases Option.some.inj h
    exact goes hp rfl rfl (by simp [ThreadPc.started, ThreadPc.stopCost])
  next first hp =>
    split at h
    next =>
      cases Option.some.inj h
      exact goes hp rfl rfl (by simp [ThreadPc.started, ThreadPc.stopCost])
    next =>
      cases Option.some.inj h
      exact goes hp rfl rfl (by simp [ThreadPc.started, ThreadPc.stopCost])
  next first hp =>
    rw [if_pos hs] at h
    cases Option.some.inj h
    exact goes hp rfl rfl (by simp [ThreadPc.started, ThreadPc.stopCost])
  next hp =>
    cases Option.some.inj h
    exact goes hp rfl rfl (by simp [ThreadPc.started, ThreadPc.stopCost])
  next hp =>
    split at h
    next =>
      cases Option.some.inj h
      exact goes hp rfl rfl (by simp [ThreadPc.started, ThreadPc.stopCost])
    next => simp at h
  next hp =>
    cases Option.some.inj h
    exact goes hp rfl rfl (by simp [ThreadPc.started, ThreadPc.stopCost])
  next => cases Option.some.inj h; exact ⟨hs, by simp, .inl rfl⟩
  next => simp at h

/-- A worker that is told to stop while it sleeps is woken by that. -/
theorem reach_stopWakes (h : Reach WakeInit (Acts (wakeStep size) anyAct) s)
    (hs : s.shouldStop = true) (hb : s.thread = .blocked) : s.runnable = true := by
  revert hs hb
  apply h.invariant
  · intro s hi hs
    rw [hi] at hs
    cases hs
  · rintro s t _ hi ⟨a, _, hstep⟩ hs hb
    cases a with
    | poster i accepts =>
      cases Option.some.inj hstep
      obtain ⟨hthread, hstop, _, hrun⟩ := (notifyStep_move size i accepts s).frame
      exact hrun (hi (hstop.symm.trans hs) (hthread.symm.trans hb))
    | init ok =>
      obtain ⟨hstop, ⟨hthread, hrun⟩ | ⟨hne, _⟩⟩ := (initStep_move hstep).frame
      · exact hrun.trans (hi (hstop.symm.trans hs) (hthread.symm.trans hb))
      · exact absurd hb hne
    | thread ok =>
      have hstop : s.shouldStop = true := by cases threadStep_move hstep <;> exact hs
      exact absurd hb (threadStep_stopped hstop hstep).2.1
    | kill =>
      obtain ⟨_, ht⟩ := Option.ite_none_right_eq_some.mp hstep
      cases Option.some.inj ht
      cases hb
    | stop => cases Option.some.inj hstep; rfl

theorem StopAt.other (h : StopAt size s n) {a : WakeAct ι} (ha : a.byThread = false)
    (hs : wakeStep size s a = some t) : StopAt size t n := by
  have hr := h.reach.next ⟨a, trivial, hs⟩
  have same (hthread : t.thread = s.thread) (hstop : t.shouldStop = s.shouldStop) :
      StopAt size t n := by
    refine ⟨hr, hstop.trans h.stop, ?_, ?_, ?_⟩
    · rw [hthread]
      exact h.started
    · rw [hthread]
      exact h.running
    · rw [hthread]
      exact h.cost
  cases a with
  | poster i accepts =>
    cases Option.some.inj hs
    obtain ⟨hthread, hstop, _⟩ := (notifyStep_move size i accepts s).frame
    exact same hthread hstop
  | init ok =>
    have hdone := ((reach_wakeInv h.reach).running h.started).2
    obtain ⟨hstop, ⟨hthread, _⟩ | ⟨_, hinit⟩⟩ := (initStep_move hs).frame
    · exact same hthread hstop
    · rw [hdone] at hinit
      simp at hinit
  | thread ok => simp [WakeAct.byThread] at ha
  | kill =>
    -- a signal ends the sleep, and the worker is on its way out
    obtain ⟨hb, ht⟩ := Option.ite_none_right_eq_some.mp hs
    cases Option.some.inj ht
    have hcost := h.cost
    rw [hb] at hcost
    simp only [ThreadPc.stopCost] at hcost
    exact ⟨hr, h.stop, trivial, by simp, by simp only [ThreadPc.stopCost]; omega⟩
  | stop =>
    cases Option.some.inj hs
    exact ⟨hr, rfl, h.started, h.running, h.cost⟩

/-- A worker that was told to stop can always go on. -/
theorem StopAt.free (h : StopAt size s n) : ∃ t, wakeStep size s (.thread true) = some t := by
  have hstarted := h.started
  show ∃ t, threadStep size true s = some t
  cases hp : s.thread with
  | absent | created =>
    rw [hp] at hstarted
    exact hstarted.elim
  | gone => exact absurd hp h.running
  | blocked =>
    have hrun := reach_stopWakes h.reach h.stop hp
    exact ⟨_, by simp only [threadStep, hp, hrun, if_true]; rfl⟩
  | connect | gotHead | testStop =>
    simp only [threadStep, hp]
    split <;> exact ⟨_, rfl⟩
  | _ => exact ⟨_, by simp only [threadStep, hp]; rfl⟩

/-- Nothing brings a worker back that is gone. -/
theorem Gone.stays {a : WakeAct ι} (h : Gone size s) (hs : wakeStep size s a = some t) :
    a.byThread = false ∧ Gone size t := by
  obtain ⟨hr, hgone⟩ := h
  have hstarted : s.thread.started := by
    rw [hgone]
    trivial
  have hnext := hr.next ⟨a, trivial, hs⟩
  cases a with
  | poster i accepts =>
    cases Option.some.inj hs
    exact ⟨rfl, hnext, (notifyStep_move size i accepts s).frame.1.trans hgone⟩
  | init ok =>
    have hdone := ((reach_wakeInv hr).running hstarted).2
    obtain ⟨_, ⟨hthread, _⟩ | ⟨_, hinit⟩⟩ := (initStep_move hs).frame
    · exact ⟨rfl, hnext, hthread.trans hgone⟩
    · rw [hdone] at hinit
      simp at hinit
  | thread ok => simp [wakeStep, threadStep, hgone] at hs
  | kill =>
    obtain ⟨hb, _⟩ := Option.ite_none_right_eq_some.mp hs
    simp [hgone] at hb
  | stop =>
    cases Option.some.inj hs
    exact ⟨rfl, hnext, hgone⟩

theorem stop_bounded (size : Nat) :
    Bounded (wakeStep size) (WakeAct.byThread (ι := ι)) (StopAt size) (Gone size) := by
  refine ⟨fun {s t a n} h ha hs => ?_, fun {s t a n} h ha hs => h.other ha hs, fun {s n} h => ?_⟩
  · cases a with
    | thread ok =>
      have hr := h.reach.next ⟨.thread ok, trivial, hs⟩
      obtain ⟨hstop, _, hd | ⟨hrunning, hstarted, hlt⟩⟩ := threadStep_stopped h.stop hs
      · exact .inl ⟨hr, hd⟩
      · exact .inr ⟨_, lt_of_lt_of_le hlt h.cost, hr, hstop, hstarted, hrunning, le_rfl⟩
    | poster | init | kill | stop => simp [WakeAct.byThread] at ha
  · obtain ⟨t, ht⟩ := h.free
    exact ⟨.thread true, t, rfl, ht⟩

theorem stopCost_le (pc : ThreadPc) : pc.stopCost ≤ 6 := by
  cases pc <;> simp [ThreadPc.stopCost]

end

/-- A worker that is told to stop, running or asleep, has seven accesses left at most, whatever the
others do, and it can make the next one until it is gone: it does not sleep any more. -/
theorem reach_stopEnds (size : Nat) (s : WakeState ι)
    (h : Reach WakeInit (Acts (wakeStep size) anyAct) s) (hs : s.shouldStop = true)
    (hstarted : s.thread.started) (as : List (WakeAct ι)) (t : WakeState ι)
    (hrun : runActs (wakeStep size) s as = some t) :
    as.countP WakeAct.byThread ≤ 7 ∧
      (t.thread = .gone ∨ ∃ u, wakeStep size t (.thread true) = some u) := by
  have hat : StopAt size s 6 ∨ Gone size s := by
    by_cases hgone : s.thread = .gone
    · exact .inr ⟨h, hgone⟩
    · exact .inl ⟨h, hs, hstarted, hgone, stopCost_le s.thread⟩
  obtain ⟨hcount, ⟨m, _, ht⟩ | ht⟩ := (stop_bounded size).spent (fun _ hd => hd)
    (fun _ _ _ => Gone.stays) hat hrun
  · exact ⟨hcount, .inr ht.free⟩
  · exact ⟨hcount, .inl ht.2⟩

end

/-- The worker sleeps when it is told to stop. -/
def stoppedAsleep : WakeState Unit :=
  afterActs (wakeStep 4) freshQueue
    (List.replicate 5 (.init true) ++ List.replicate 12 (.thread true) ++ [.stop])

def awakeActs : List (WakeAct Unit) := List.replicate 7 (.thread true)

theorem reach_stopEnds_asleep : stoppedAsleep.thread = .blocked ∧
    (afterActs (wakeStep 4) stoppedAsleep awakeActs).thread = .gone ∧
      awakeActs.countP WakeAct.byThread ≤ 7 ∧
      ((afterActs (wakeStep 4) stoppedAsleep awakeActs).thread = .gone ∨
        ∃ u, wakeStep 4 (afterActs (wakeStep 4) stoppedAsleep awakeActs) (.thread true) = some u) :=
  ⟨by decide, by decide, reach_stopEnds 4 stoppedAsleep (reach_afterActs freshQueue_init _)
    (by decide) trivial awakeActs _ (runActs_afterActs (by decide))⟩

end DisKverbs
