import Mathlib.Data.List.Basic

namespace TraceBracket

/-- What an event does to a resource. -/
inductive Mark
  | opens
  | uses
  | closes
  | skips
  deriving DecidableEq

/-- Where a trace is with respect to the time that the resource is open. -/
inductive Phase
  | before
  | inside
  | after
  deriving DecidableEq

/-- A resource is opened once, used while it is open, and closed once. -/
def Phase.next : Phase → Mark → Option Phase
  | .before, .opens => some .inside
  | .inside, .uses => some .inside
  | .inside, .closes => some .after
  | ph, .skips => some ph
  | _, _ => none

variable {E : Type*} (mark : E → Mark)

/-- The phase that a trace leads to, unless it breaks the order. -/
def phase : Phase → List E → Option Phase
  | ph, [] => some ph
  | ph, e :: es => (ph.next (mark e)).bind fun ph => phase ph es

def opened (es : List E) : Nat := es.countP fun e => mark e = .opens

def closed (es : List E) : Nat := es.countP fun e => mark e = .closes

/-- How often a trace of a phase has opened and closed the resource. -/
def Phase.counts : Phase → Nat × Nat
  | .before => (0, 0)
  | .inside => (1, 0)
  | .after => (1, 1)

variable {mark} {ph ph' : Phase} {es pre post : List E} {e : E}

theorem phase_append : phase mark ph (pre ++ post) =
    (phase mark ph pre).bind fun ph => phase mark ph post := by
  induction pre generalizing ph with
  | nil => rfl
  | cons e pre ih =>
    rw [List.cons_append, phase, phase]
    cases ph.next (mark e) with
    | none => rfl
    | some ph => exact ih

theorem phase_snoc (h : phase mark ph es = some ph') :
    phase mark ph (es ++ [e]) = ph'.next (mark e) := by
  rw [phase_append, h]
  show (ph'.next (mark e)).bind some = _
  cases ph'.next (mark e) <;> rfl

/-- A step of the phase counts the event. -/
theorem next_counts (h : ph.next (mark e) = some ph') :
    ph'.counts = (ph.counts.1 + opened mark [e], ph.counts.2 + closed mark [e]) := by
  cases ph <;> cases hm : mark e <;> simp [hm, Phase.next] at h <;> subst h <;>
    simp [opened, closed, Phase.counts, hm]

theorem phase_counts (h : phase mark ph es = some ph') :
    ph'.counts = (ph.counts.1 + opened mark es, ph.counts.2 + closed mark es) := by
  induction es generalizing ph with
  | nil =>
    cases Option.some.inj h
    rfl
  | cons e es ih =>
    obtain ⟨ph₁, hn, hrest⟩ := Option.bind_eq_some_iff.mp h
    have hcount := next_counts hn
    rw [ih hrest, hcount]
    simp only [opened, closed, List.countP_cons, List.countP_nil]
    ext <;> simp <;> omega

/-- Wherever it is used, the resource has been opened once and not been closed. -/
theorem used_inside (h : phase mark .before (pre ++ e :: post) = some ph) (he : mark e = .uses) :
    opened mark pre = 1 ∧ closed mark pre = 0 := by
  rw [phase_append] at h
  obtain ⟨ph₁, hpre, hrest⟩ := Option.bind_eq_some_iff.mp h
  obtain ⟨ph₂, hnext, _⟩ := Option.bind_eq_some_iff.mp hrest
  have hin : ph₁ = .inside := by
    cases ph₁ <;> simp [he, Phase.next] at hnext ⊢
  have hcount := phase_counts hpre
  rw [hin] at hcount
  simp only [Phase.counts, Nat.zero_add, Prod.mk.injEq] at hcount
  exact ⟨hcount.1.symm, hcount.2.symm⟩

/-- No trace opens the resource twice, or closes what it has not opened. -/
theorem phase_once (h : phase mark .before es = some ph) :
    opened mark es ≤ 1 ∧ closed mark es ≤ opened mark es := by
  have hcount := phase_counts h
  cases ph <;> simp only [Phase.counts, Nat.zero_add, Prod.mk.injEq] at hcount <;> omega

end TraceBracket
