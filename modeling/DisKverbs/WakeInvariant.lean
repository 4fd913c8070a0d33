import DisKverbs.WakeMoves

namespace DisKverbs

open CircBuf

section

variable {ι : Type*}

def WakeState.Pending (s : WakeState ι) : Prop := ∃ i, (s.posters i).unflagged

def WakeState.Waking (s : WakeState ι) : Prop := ∃ i, s.posters i = .wake

/-- While the worker looks at the ring or waits, an empty flag means that it has missed no
post, except those of contexts that have yet to set the flag. -/
structure WakeInv (size : Nat) (s : WakeState ι) : Prop where
  opened : s.init = .setFlag ∨ s.init = .create → s.wqState ≠ .uninitialized
  launched : s.thread ≠ .absent →
    s.wqState ≠ .uninitialized ∧ (s.init = .wakeThread ∨ s.init = .done)
  created : s.init = .wakeThread → s.thread = .created
  looked : ∀ (head : Nat), s.thread = .gotHead head → s.wqFlag = .empty →
    s.head = head ∨ s.Pending
  waits : s.thread.waits → s.wqFlag = .empty → circCnt s.head s.tail size < 1 ∨ s.Pending
  dozes : s.thread.dozes → s.runnable = false → s.wqFlag = .empty ∨ s.Waking

variable {size : Nat} {s t : WakeState ι}

theorem unflagged_notifying {pc : NotifyPc} (h : pc.unflagged) : pc.notifying := by
  cases pc <;> trivial

theorem dozes_waits {pc : ThreadPc} (h : pc.dozes) : pc.waits := by
  cases pc <;> trivial

theorem wakeInv_of_absent (ht : s.thread = .absent)
    (ho : s.init = .setFlag ∨ s.init = .create → s.wqState ≠ .uninitialized)
    (hi : s.init ≠ .wakeThread) : WakeInv size s := by
  have hw : ¬ s.thread.waits := by rw [ht]; exact not_false
  refine ⟨ho, fun h => absurd ht h, fun h => absurd h hi, ?_, fun h => absurd h hw, ?_⟩
  · intro head h
    rw [ht] at h
    simp at h
  · exact fun h => absurd (dozes_waits h) hw

theorem wakeInv_of_done (hi : s.init = .done) (hs : s.wqState ≠ .uninitialized)
    (looked : ∀ (head : Nat), s.thread = .gotHead head → s.wqFlag = .empty →
      s.head = head ∨ s.Pending)
    (waits : s.thread.waits → s.wqFlag = .empty → circCnt s.head s.tail size < 1 ∨ s.Pending)
    (dozes : s.thread.dozes → s.runnable = false → s.wqFlag = .empty ∨ s.Waking) :
    WakeInv size s :=
  ⟨fun _ => hs, fun _ => ⟨hs, .inr hi⟩, fun h => by rw [hi] at h; simp at h, looked, waits, dozes⟩

theorem wakeInv_of_busy (hi : s.init = .done) (hs : s.wqState ≠ .uninitialized)
    (hb : s.thread.busy) : WakeInv size s := by
  have hw : ¬ s.thread.waits := by
    intro h
    cases hp : s.thread <;> rw [hp] at hb h <;> first | exact hb.elim | exact h.elim
  refine wakeInv_of_done hi hs ?_ (fun h => absurd h hw) fun h => absurd (dozes_waits h) hw
  intro head h
  rw [h] at hb
  exact hb.elim

theorem WakeInv.absent (hv : WakeInv size s) (h : s.init ≠ .wakeThread) (h' : s.init ≠ .done) :
    s.thread = .absent := by
  by_contra ht
  rcases (hv.launched ht).2 with hi | hi
  · exact h hi
  · exact h' hi

theorem WakeInv.running (hv : WakeInv size s) (h : s.thread.started) :
    s.wqState ≠ .uninitialized ∧ s.init = .done := by
  have ha : s.thread ≠ .absent := by intro he; rw [he] at h; exact h
  obtain ⟨hs, hi | hi⟩ := hv.launched ha
  · rw [hv.created hi] at h
    exact h.elim
  · exact ⟨hs, hi⟩

theorem waits_started {pc : ThreadPc} (h : pc.waits) : pc.started := by
  cases pc <;> trivial

section

variable [DecidableEq ι]

/-- Other contexts keep what they were doing, so a moved one matters only to its own claim. -/
theorem exists_setPoster {P : NotifyPc → Prop} {i : ι} {pc : NotifyPc}
    (h : ∃ j, P (s.posters j)) (hi : ¬ P (s.posters i)) :
    ∃ j, P ((s.setPoster i pc).posters j) := by
  obtain ⟨j, hj⟩ := h
  have hne : j ≠ i := by intro he; exact hi (he ▸ hj)
  exact ⟨j, by simpa [WakeState.setPoster, hne] using hj⟩

theorem setPoster_self (s : WakeState ι) (i : ι) (pc : NotifyPc) :
    (s.setPoster i pc).posters i = pc := by simp [WakeState.setPoster]

theorem pending_setPoster {i : ι} {pc : NotifyPc} (h : pc.unflagged) :
    (s.setPoster i pc).Pending := ⟨i, by rw [setPoster_self]; exact h⟩

theorem Pending.setPoster {i : ι} {pc : NotifyPc} (h : s.Pending)
    (hi : ¬ (s.posters i).unflagged) : (s.setPoster i pc).Pending := exists_setPoster h hi

theorem Waking.setPoster {i : ι} {pc : NotifyPc} (h : s.Waking) (hi : s.posters i ≠ .wake) :
    (s.setPoster i pc).Waking := exists_setPoster (P := fun pc => pc = .wake) h hi

theorem NotifyMove.wakeInv {i : ι} (h : NotifyMove size i s t) (hv : WakeInv size s) :
    WakeInv size t := by
  obtain ⟨ho, hl, hc, hk, hw, hd⟩ := hv
  cases h with
  | @quiet pc hq hq' =>
    have hu : ¬ (s.posters i).unflagged := fun h => hq (unflagged_notifying h)
    have hn : s.posters i ≠ .wake := fun h => hq (by rw [h]; trivial)
    refine ⟨ho, hl, hc, ?_, ?_, ?_⟩
    · exact fun head ht hf => (hk head ht hf).imp_right fun hp => Pending.setPoster hp hu
    · exact fun ht hf => (hw ht hf).imp_right fun hp => Pending.setPoster hp hu
    · exact fun ht hr => (hd ht hr).imp_right fun hp => Waking.setPoster hp hn
  | @store head hp =>
    have hn : s.posters i ≠ .wake := by simp [hp]
    have hu : (s.setPoster i .testState).Pending := pending_setPoster trivial
    refine ⟨ho, hl, hc, ?_, ?_, ?_⟩
    · exact fun _ _ _ => .inr hu
    · exact fun _ _ => .inr hu
    · exact fun ht hr => (hd ht hr).imp_right fun hp => Waking.setPoster hp hn
  | skip hp hs =>
    have ha : s.thread = .absent := by
      by_contra ha
      exact (hl ha).1 hs
    have hi : s.init ≠ .wakeThread := by
      intro hi
      rw [hc hi] at ha
      simp at ha
    exact wakeInv_of_absent ha ho hi
  | test hp hs =>
    have hn : s.posters i ≠ .wake := by simp [hp]
    have hu : (s.setPoster i .setFlag).Pending := pending_setPoster trivial
    refine ⟨ho, hl, hc, ?_, ?_, ?_⟩
    · exact fun _ _ _ => .inr hu
    · exact fun _ _ => .inr hu
    · exact fun ht hr => (hd ht hr).imp_right fun hp => Waking.setPoster hp hn
  | flag hp =>
    refine ⟨ho, hl, hc, ?_, ?_, ?_⟩
    · intro head ht hf
      simp at hf
    · intro ht hf
      simp at hf
    · exact fun _ _ => .inr ⟨i, setPoster_self s i .wake⟩
  | wake hp =>
    have hu : ¬ (s.posters i).unflagged := by rw [hp]; exact not_false
    refine ⟨ho, hl, hc, ?_, ?_, ?_⟩
    · exact fun head ht hf => (hk head ht hf).imp_right fun hp => Pending.setPoster hp hu
    · exact fun ht hf => (hw ht hf).imp_right fun hp => Pending.setPoster hp hu
    · intro ht hr
      simp at hr

end

/-- `dis_qp_init` runs before the worker does, up to its last access. -/
theorem InitMove.wakeInv (h : InitMove s t) (hv : WakeInv size s) : WakeInv size t := by
  have absent {pc : InitPc} (hi : s.init = pc) (hw : pc ≠ .wakeThread) (hd : pc ≠ .done) :
      s.thread = .absent := hv.absent (by rw [hi]; exact hw) (by rw [hi]; exact hd)
  cases h with
  | @test pc hi hpc =>
    have ht := absent hi (by decide) (by decide)
    rcases hpc with rfl | ⟨rfl, hs⟩
    · exact wakeInv_of_absent ht (by simp) (by simp)
    · exact wakeInv_of_absent ht (by simp) (by simp)
  | state hi => exact wakeInv_of_absent (absent hi (by decide) (by decide)) (by simp) (by simp)
  | flag hi =>
    have hs := hv.opened (.inl hi)
    exact wakeInv_of_absent (absent hi (by decide) (by decide)) (fun _ => hs) (by simp)
  | created hi =>
    have hs := hv.opened (.inr hi)
    refine ⟨fun _ => hs, fun _ => ⟨hs, .inl rfl⟩, fun _ => rfl, ?_, False.elim, False.elim⟩
    intro head h
    simp at h
  | failed hi => exact wakeInv_of_absent (absent hi (by decide) (by decide)) (by simp) (by simp)
  | undo hi => exact wakeInv_of_absent (absent hi (by decide) (by decide)) (by simp) (by simp)
  | wake hi =>
    have ht : s.thread ≠ .absent := by simp [hv.created hi]
    exact wakeInv_of_busy rfl (hv.launched ht).1 trivial

/-- The worker clears the flag before it looks at the ring, and it looks before it waits. -/
theorem ThreadMove.wakeInv (h : ThreadMove size s t) (hv : WakeInv size s) : WakeInv size t := by
  have started {pc : ThreadPc} (hw : s.thread = pc) (hp : pc.started) :
      s.wqState ≠ .uninitialized ∧ s.init = .done := hv.running (by rw [hw]; exact hp)
  cases h with
  | run hs hb => exact wakeInv_of_busy (hv.running hs).2 (hv.running hs).1 hb
  | running hw => exact wakeInv_of_busy (started hw trivial).2 (by simp) trivial
  | clear hw =>
    obtain ⟨hs, hi⟩ := started hw trivial
    exact wakeInv_of_busy hi hs trivial
  | look hw =>
    obtain ⟨hs, hi⟩ := started hw trivial
    refine wakeInv_of_done hi hs ?_ False.elim False.elim
    intro head h _
    exact .inl (ThreadPc.gotHead.inj h)
  | @drained head hw hc =>
    obtain ⟨hs, hi⟩ := started hw trivial
    refine wakeInv_of_done hi hs (by simp) ?_ False.elim
    intro _ hf
    rcases hv.looked head hw hf with hh | hp
    · exact .inl (by rw [hh]; exact hc)
    · exact .inr hp
  | advance hw =>
    obtain ⟨hs, hi⟩ := started hw trivial
    exact wakeInv_of_busy hi hs trivial
  | @wait pc hw hpc hz =>
    obtain ⟨hs, hi⟩ := hv.running (waits_started hw)
    refine wakeInv_of_done hi hs ?_ (fun _ => hv.waits hw) ?_
    · intro head h
      have he : pc = .gotHead head := h
      rw [he] at hpc
      exact hpc.elim
    · intro hd hr
      rcases hz hd with hf | hd'
      · exact .inl hf
      · exact hv.dozes hd' hr
  | prepare hw =>
    obtain ⟨hs, hi⟩ := started hw trivial
    exact wakeInv_of_done hi hs (by simp) (fun _ => hv.waits (by rw [hw]; trivial)) False.elim
  | exited hw => exact wakeInv_of_busy (started hw trivial).2 (by simp) trivial

end

end DisKverbs
