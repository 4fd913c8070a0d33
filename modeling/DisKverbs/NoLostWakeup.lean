import DisKverbs.WakeInvariant

namespace DisKverbs

open CircBuf StepSystem

section

variable {ι : Type*} [DecidableEq ι] {size : Nat} {s : WakeState ι}
  {ok : WakeState ι → WakeAct ι → Prop}

theorem reach_wakeInv (h : Reach WakeInit (Acts (wakeStep size) ok) s) : WakeInv size s := by
  apply h.invariant
  · rintro s rfl
    exact wakeInv_of_absent rfl (by simp) (by simp)
  · rintro s t _ hv ⟨a, _, hs⟩
    rcases wakeStep_move hs with ⟨i, hm⟩ | hm | hm | rfl
    · exact hm.wakeInv hv
    · exact hm.wakeInv hv
    · exact hm.wakeInv hv
    · exact ⟨hv.opened, hv.launched, hv.created, hv.looked, hv.waits, fun _ hr => by simp at hr⟩

/-- Once every posting context has finished, a waiting worker that has something to do has
been woken and will see the flag. -/
theorem reach_woken (h : Reach WakeInit (Acts (wakeStep size) ok) s)
    (hb : s.thread = .blocked) (hc : ¬ circCnt s.head s.tail size < 1)
    (hn : ∀ i, ¬ (s.posters i).notifying) : s.wqFlag = .post ∧ s.runnable = true := by
  have hv := reach_wakeInv h
  have hf : s.wqFlag ≠ .empty := by
    intro hf
    rcases hv.waits (by rw [hb]; trivial) hf with he | ⟨i, hi⟩
    · exact hc he
    · exact hn i (unflagged_notifying hi)
  have hr : s.runnable ≠ false := by
    intro hr
    rcases hv.dozes (by rw [hb]; trivial) hr with he | ⟨i, hi⟩
    · exact hf he
    · exact hn i (by rw [hi]; trivial)
  refine ⟨?_, by simpa using hr⟩
  cases hp : s.wqFlag with
  | empty => exact absurd hp hf
  | post => rfl

/-- A worker that waits with an empty flag on a ring that is not empty has a posting context
behind it that has not finished `dis_qp_notify`. -/
theorem reach_noLostWakeup (h : Reach WakeInit (Acts (wakeStep size) ok) s)
    (hb : s.thread = .blocked) (hf : s.wqFlag = .empty)
    (hc : ¬ circCnt s.head s.tail size < 1) : ∃ i, (s.posters i).notifying := by
  by_contra hn
  obtain ⟨hp, _⟩ := reach_woken h hb hc (not_exists.mp hn)
  rw [hf] at hp
  cases hp

def freshQueue : WakeState Unit :=
  ⟨0, 0, .uninitialized, .empty, false, true, fun _ => .idle, .testState, .absent⟩

theorem freshQueue_init : WakeInit freshQueue := rfl

/-- A post before `dis_qp_init`, the initialisation, a worker that drains the ring and waits,
and a second post that has just stored head. -/
def earlyActs : List (WakeAct Unit) :=
  List.replicate 4 (.poster () true) ++ List.replicate 5 (.init true) ++
    List.replicate 17 (.thread true) ++ List.replicate 3 (.poster () true)

theorem reach_noLostWakeup_early :
    (afterActs (wakeStep 4) freshQueue earlyActs).thread = .blocked ∧
      ∃ i, ((afterActs (wakeStep 4) freshQueue earlyActs).posters i).notifying :=
  ⟨by decide, reach_noLostWakeup (reach_afterActs freshQueue_init earlyActs) (by decide)
    (by decide) (by decide)⟩

end

end DisKverbs
