import Mathlib.Logic.Function.Basic
import Mathlib.Logic.Relation

namespace StepSystem

variable {S S' A : Type*}

/-- The states that finitely many steps reach from an initial one. -/
def Reach (init : S → Prop) (step : S → S → Prop) (s : S) : Prop :=
  ∃ first, init first ∧ Relation.ReflTransGen step first s

theorem reach_start {init : S → Prop} {step : S → S → Prop} {s : S} (h : init s) :
    Reach init step s := ⟨s, h, .refl⟩

theorem Reach.next {init : S → Prop} {step : S → S → Prop} {s t : S}
    (h : Reach init step s) (hs : step s t) : Reach init step t := by
  obtain ⟨first, hf, hr⟩ := h
  exact ⟨first, hf, hr.tail hs⟩

theorem Reach.steps {init : S → Prop} {step : S → S → Prop} {s t : S}
    (h : Reach init step s) (hs : Relation.ReflTransGen step s t) : Reach init step t := by
  obtain ⟨first, hf, hr⟩ := h
  exact ⟨first, hf, hr.trans hs⟩

/-- An initial and preserved property holds of every reachable state; the
preservation proof may use that the state before the step is reachable. -/
theorem Reach.invariant {init : S → Prop} {step : S → S → Prop} {P : S → Prop} {s : S}
    (h : Reach init step s) (start : ∀ s, init s → P s)
    (next : ∀ s t, Reach init step s → P s → step s t → P t) : P s := by
  obtain ⟨first, hf, hr⟩ := h
  induction hr with
  | refl => exact start _ hf
  | @tail b c hb hs ih => exact next b c ⟨first, hf, hb⟩ ih hs

/-- A map that sends each step to a step or to a stutter sends reachable states
to reachable states. -/
theorem Reach.project {init : S → Prop} {step : S → S → Prop} {init' : S' → Prop}
    {step' : S' → S' → Prop} (f : S → S') {s : S} (h : Reach init step s)
    (start : ∀ s, init s → init' (f s))
    (next : ∀ s t, Reach init step s → Reach init' step' (f s) → step s t →
      f t = f s ∨ step' (f s) (f t)) :
    Reach init' step' (f s) := by
  apply h.invariant
  · exact fun s hs => reach_start (start s hs)
  · intro s t hr hp hs
    rcases next s t hr hp hs with he | he
    · exact he ▸ hp
    · exact hp.next he

/-- A relation that the steps of another system can follow relates every reachable state to a
reachable state of that system. -/
theorem Reach.simulate {init : S → Prop} {step : S → S → Prop} {init' : S' → Prop}
    {step' : S' → S' → Prop} (R : S → S' → Prop) {s : S} (h : Reach init step s)
    (start : ∀ s, init s → ∃ s', init' s' ∧ R s s')
    (next : ∀ s t s', step s t → R s s' → ∃ t', Relation.ReflTransGen step' s' t' ∧ R t t') :
    ∃ s', Reach init' step' s' ∧ R s s' := by
  apply h.invariant
  · intro s hi
    obtain ⟨s', hi', hr⟩ := start s hi
    exact ⟨s', reach_start hi', hr⟩
  · rintro s t _ ⟨s', hs', hr⟩ hs
    obtain ⟨t', hrun, hr'⟩ := next s t s' hs hr
    exact ⟨t', hs'.steps hrun, hr'⟩

/-- The step relation of an executable system, over the actions that `ok` admits. -/
def Acts (step : S → A → Option S) (ok : S → A → Prop) (s t : S) : Prop :=
  ∃ a, ok s a ∧ step s a = some t

def anyAct : S → A → Prop := fun _ _ => True

/-- Perform a list of actions; `none` when one of them is not enabled. -/
def runActs (step : S → A → Option S) : S → List A → Option S
  | s, [] => some s
  | s, a :: as =>
    match step s a with
    | some t => runActs step t as
    | none => none

theorem runActs_steps {step : S → A → Option S} {s t : S} {as : List A}
    (h : runActs step s as = some t) : Relation.ReflTransGen (Acts step anyAct) s t := by
  induction as generalizing s with
  | nil => cases Option.some.inj h; exact .refl
  | cons a as ih =>
    simp only [runActs] at h
    split at h
    next u hu => exact .head ⟨a, trivial, hu⟩ (ih h)
    next => simp at h

theorem runActs_cons {step : S → A → Option S} {s t : S} {a : A} {as : List A}
    (h : step s a = some t) : runActs step s (a :: as) = runActs step t as := by
  simp only [runActs, h]

theorem runActs_append {step : S → A → Option S} {s t : S} {as bs : List A}
    (h : runActs step s as = some t) : runActs step s (as ++ bs) = runActs step t bs := by
  induction as generalizing s with
  | nil => cases Option.some.inj h; rfl
  | cons a as ih =>
    simp only [List.cons_append, runActs] at h ⊢
    split at h
    next u hu => exact ih h
    next => simp at h

theorem reach_runActs {init : S → Prop} {step : S → A → Option S} {s t : S} {as : List A}
    (hi : init s) (h : runActs step s as = some t) : Reach init (Acts step anyAct) t :=
  ⟨s, hi, runActs_steps h⟩

/-- Where a list of actions leads; the start when one of them is not enabled. -/
def afterActs (step : S → A → Option S) (s : S) (as : List A) : S :=
  (runActs step s as).getD s

theorem reach_afterActs {init : S → Prop} {step : S → A → Option S} {s : S} (hi : init s)
    (as : List A) : Reach init (Acts step anyAct) (afterActs step s as) := by
  unfold afterActs
  cases h : runActs step s as with
  | none => exact reach_start hi
  | some t => exact reach_runActs hi h

/-- Perform a list of actions as long as a check admits them. -/
def runChecked (step : S → A → Option S) (check : S → A → Bool) : S → List A → Option S
  | s, [] => some s
  | s, a :: as =>
    match check s a, step s a with
    | true, some t => runChecked step check t as
    | _, _ => none

theorem reach_runChecked {init : S → Prop} {step : S → A → Option S} {check : S → A → Bool}
    {ok : S → A → Prop} (hc : ∀ s a, check s a = true → ok s a) {s t : S} {as : List A}
    (hs : Reach init (Acts step ok) s) (h : runChecked step check s as = some t) :
    Reach init (Acts step ok) t := by
  induction as generalizing s with
  | nil => cases Option.some.inj h; exact hs
  | cons a as ih =>
    simp only [runChecked] at h
    split at h
    next u hk hu => exact ih (hs.next ⟨a, hc s a hk, hu⟩) h
    next => simp at h

/-- Where a list of actions leads; the start when one of them is not admitted or enabled. -/
def afterChecked (step : S → A → Option S) (check : S → A → Bool) (s : S) (as : List A) : S :=
  (runChecked step check s as).getD s

theorem reach_afterChecked {init : S → Prop} {step : S → A → Option S} {check : S → A → Bool}
    {ok : S → A → Prop} (hc : ∀ s a, check s a = true → ok s a) {s : S}
    (hs : Reach init (Acts step ok) s) (as : List A) :
    Reach init (Acts step ok) (afterChecked step check s as) := by
  unfold afterChecked
  cases h : runChecked step check s as with
  | none => exact hs
  | some t => exact reach_runChecked hc hs h

variable {G : Type*}

/-- The system with a record of its run beside the state. -/
def recording (step : S → A → Option S) (note : S → A → G → G) (p : S × G) (a : A) :
    Option (S × G) := (step p.1 a).map fun t => (t, note p.1 a p.2)

theorem recording_some {step : S → A → Option S} {note : S → A → G → G} {p q : S × G} {a : A} :
    recording step note p a = some q ↔ step p.1 a = some q.1 ∧ note p.1 a p.2 = q.2 := by
  simp only [recording, Option.map_eq_some_iff]
  constructor
  · rintro ⟨t, ht, rfl⟩
    exact ⟨ht, rfl⟩
  · rintro ⟨ht, hn⟩
    exact ⟨q.1, ht, by rw [hn]⟩

/-- A record does not change what a system does. -/
theorem reach_recorded {init : S × G → Prop} {init' : S → Prop} {step : S → A → Option S}
    {note : S → A → G → G} {ok : S × G → A → Prop} {ok' : S → A → Prop} {p : S × G}
    (h : Reach init (Acts (recording step note) ok) p) (start : ∀ p, init p → init' p.1)
    (allow : ∀ p a, ok p a → ok' p.1 a) : Reach init' (Acts step ok') p.1 := by
  apply h.project Prod.fst start
  rintro p q _ _ ⟨a, hok, hs⟩
  exact .inr ⟨a, allow p a hok, (recording_some.mp hs).1⟩

section

variable {ι σ : Type*} [DecidableEq ι] (P : σ → Prop) {f : ι → σ} {i : ι} {x : σ}

/-- Who moves from one place outside a section to another changes nobody's being inside. -/
theorem update_outside (hi : ¬ P (f i)) (hx : ¬ P x) (j : ι) :
    P (Function.update f i x j) ↔ P (f j) := by
  by_cases hj : j = i
  · rw [hj, Function.update_self]
    exact iff_of_false hx hi
  · rw [Function.update_of_ne hj]

/-- Where only `i` may be inside, it still is the only one wherever it goes. -/
theorem only_update (h : ∀ j, P (f j) → j = i) {j : ι} (hj : P (Function.update f i x j)) :
    j = i := by
  by_contra hne
  rw [Function.update_of_ne hne] at hj
  exact hne (h j hj)

/-- When the only one inside leaves, the section is empty. -/
theorem none_update (h : ∀ j, P (f j) → j = i) (hx : ¬ P x) (j : ι) :
    ¬ P (Function.update f i x j) := by
  intro hj
  have he := only_update P h hj
  rw [he, Function.update_self] at hj
  exact hx hj

end

end StepSystem
