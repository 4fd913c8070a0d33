import DisKverbs.StepSystem
import Mathlib.Data.List.Count

namespace OwnSteps

open StepSystem

variable {S A : Type*}

/-- `At s n` says that a call is under way in `s` and takes at most `n` more of its own steps before
the one that ends it, `Done s` that it has just ended. The steps of others leave it where it is, and
nobody else can block it. -/
structure Bounded (step : S → A → Option S) (own : A → Bool) (At : S → Nat → Prop)
    (Done : S → Prop) : Prop where
  mine : ∀ {s t a n}, At s n → own a = true → step s a = some t →
    Done t ∨ ∃ m, m < n ∧ At t m
  other : ∀ {s t a n}, At s n → own a = false → step s a = some t → At t n
  free : ∀ {s n}, At s n → ∃ a t, own a = true ∧ step s a = some t

variable {step : S → A → Option S} {own : A → Bool} {At : S → Nat → Prop} {Done : S → Prop}
  {s t : S} {n : Nat}

/-- What a run from `s` to `t` comes to for a call under way: it ends after at most `k` of its own
steps, or it has made fewer and can make the next one. -/
def EndsWithin (step : S → A → Option S) (own : A → Bool) (Done : S → Prop) (k : Nat) (s : S)
    (as : List A) (t : S) : Prop :=
  (∃ pre post u, as = pre ++ post ∧ runActs step s pre = some u ∧ Done u ∧ pre.countP own ≤ k) ∨
    as.countP own < k ∧ ∃ a u, own a = true ∧ step t a = some u

theorem Bounded.ends (h : Bounded step own At Done) {as : List A} (hs : At s n)
    (hrun : runActs step s as = some t) : EndsWithin step own Done (n + 1) s as t := by
  induction as generalizing s n with
  | nil =>
    cases Option.some.inj hrun
    exact .inr ⟨Nat.succ_pos n, h.free hs⟩
  | cons a as ih =>
    simp only [runActs] at hrun
    split at hrun
    next v hv =>
      cases ha : own a with
      | true =>
        have hone (bs : List A) : (a :: bs).countP own = bs.countP own + 1 :=
          List.countP_cons_of_pos ha
        rcases h.mine hs ha hv with hd | ⟨m, hm, hat⟩
        · refine .inl ⟨[a], as, v, rfl, ?_, hd, by simp [ha]⟩
          rw [runActs_cons hv]
          rfl
        · rcases ih hat hrun with ⟨pre, post, u, rfl, hpre, hd, hcount⟩ | ⟨hcount, hnext⟩
          · refine .inl ⟨a :: pre, post, u, rfl, (runActs_cons hv).trans hpre, hd, ?_⟩
            rw [hone]
            omega
          · refine .inr ⟨?_, hnext⟩
            rw [hone]
            omega
      | false =>
        have hnone (bs : List A) : (a :: bs).countP own = bs.countP own :=
          List.countP_cons_of_neg (by simp [ha])
        rcases ih (h.other hs ha hv) hrun with
          ⟨pre, post, u, rfl, hpre, hd, hcount⟩ | ⟨hcount, hnext⟩
        · refine .inl ⟨a :: pre, post, u, rfl, (runActs_cons hv).trans hpre, hd, ?_⟩
          rw [hnone]
          exact hcount
        · refine .inr ⟨?_, hnext⟩
          rw [hnone]
          exact hcount
    next => simp at hrun

/-- The call can end by its own steps alone. -/
theorem Bounded.alone (h : Bounded step own At Done) (hs : At s n) :
    ∃ as u, runActs step s as = some u ∧ Done u ∧ (∀ a ∈ as, own a = true) ∧
      as.length ≤ n + 1 := by
  induction n using Nat.strongRecOn generalizing s with
  | ind n ih =>
    obtain ⟨a, t, ha, hstep⟩ := h.free hs
    rcases h.mine hs ha hstep with hd | ⟨m, hm, hat⟩
    · refine ⟨[a], t, ?_, hd, by simp [ha], by simp⟩
      rw [runActs_cons hstep]
      rfl
    · obtain ⟨as, u, hrun, hd, hown, hlen⟩ := ih m hm hat
      refine ⟨a :: as, u, (runActs_cons hstep).trans hrun, hd, ?_, ?_⟩
      · intro b hb
        rcases List.mem_cons.mp hb with rfl | hb
        · exact ha
        · exact hown b hb
      · simp only [List.length_cons]
        omega

/-- Where the end of the call is for good, a run has no more own steps than the bound, and leads to
a state of the call or to one after it. -/
theorem Bounded.spent (h : Bounded step own At Done) {After : S → Prop}
    (hend : ∀ s, Done s → After s)
    (hafter : ∀ s t a, After s → step s a = some t → own a = false ∧ After t) {as : List A}
    (hs : At s n ∨ After s) (hrun : runActs step s as = some t) :
    as.countP own ≤ n + 1 ∧ ((∃ m, m ≤ n ∧ At t m) ∨ After t) := by
  -- after the end there is no own step left
  have hrest : ∀ as s, After s → runActs step s as = some t → as.countP own = 0 ∧ After t := by
    intro as
    induction as with
    | nil => intro s hs hrun; cases Option.some.inj hrun; exact ⟨rfl, hs⟩
    | cons a as ih =>
      intro s hs hrun
      simp only [runActs] at hrun
      split at hrun
      next v hv =>
        obtain ⟨ha, hv'⟩ := hafter s v a hs hv
        rw [List.countP_cons_of_neg (by simp [ha])]
        exact ih v hv' hrun
      next => simp at hrun
  rcases hs with hs | hs
  · induction as generalizing s n with
    | nil => cases Option.some.inj hrun; exact ⟨Nat.zero_le _, .inl ⟨n, Nat.le_refl n, hs⟩⟩
    | cons a as ih =>
      simp only [runActs] at hrun
      split at hrun
      next v hv =>
        cases ha : own a with
        | true =>
          rw [List.countP_cons_of_pos ha]
          rcases h.mine hs ha hv with hd | ⟨m, hm, hat⟩
          · obtain ⟨hcount, ht⟩ := hrest as v (hend v hd) hrun
            exact ⟨by omega, .inr ht⟩
          · obtain ⟨hcount, hout⟩ := ih hrun hat
            refine ⟨by omega, hout.imp_left ?_⟩
            rintro ⟨k, hk, ht⟩
            exact ⟨k, by omega, ht⟩
        | false =>
          rw [List.countP_cons_of_neg (by simp [ha])]
          exact ih hrun (h.other hs ha hv)
      next => simp at hrun
  · obtain ⟨hcount, ht⟩ := hrest as s hs hrun
    exact ⟨by omega, .inr ht⟩

/-- Actions of one kind alone lead from one state to another. -/
def LeadsTo (step : S → A → Option S) (own : A → Bool) (s t : S) : Prop :=
  ∃ as, runActs step s as = some t ∧ ∀ a ∈ as, own a = true

theorem leadsTo_refl (s : S) : LeadsTo step own s s := ⟨[], rfl, by simp⟩

theorem leadsTo_one {a : A} (ha : own a = true) (h : step s a = some t) : LeadsTo step own s t := by
  refine ⟨[a], ?_, by simp [ha]⟩
  rw [runActs_cons h]
  rfl

theorem LeadsTo.trans {u : S} (h : LeadsTo step own s t) (h' : LeadsTo step own t u) :
    LeadsTo step own s u := by
  obtain ⟨as, has, hown⟩ := h
  obtain ⟨bs, hbs, hown'⟩ := h'
  refine ⟨as ++ bs, (runActs_append has).trans hbs, fun a ha => ?_⟩
  rcases List.mem_append.mp ha with ha | ha
  · exact hown a ha
  · exact hown' a ha

theorem LeadsTo.wider {own' : A → Bool} (hown : ∀ a, own a = true → own' a = true)
    (h : LeadsTo step own s t) : LeadsTo step own' s t := by
  obtain ⟨as, has, hall⟩ := h
  exact ⟨as, has, fun a ha => hown a (hall a ha)⟩

theorem LeadsTo.keeps {P : S → Prop}
    (hstep : ∀ s t a, P s → own a = true → step s a = some t → P t) (h : LeadsTo step own s t)
    (hs : P s) : P t := by
  obtain ⟨as, has, hown⟩ := h
  induction as generalizing s with
  | nil =>
    cases Option.some.inj has
    exact hs
  | cons a as ih =>
    simp only [runActs] at has
    split at has
    next u hu =>
      exact ih (hstep s u a hs (hown a (by simp)) hu) has fun b hb => hown b (by simp [hb])
    next => simp at has

theorem LeadsTo.reachOk {init : S → Prop} {ok : S → A → Prop} (hok : ∀ s a, own a = true → ok s a)
    (h : LeadsTo step own s t) (hs : Reach init (Acts step ok) s) : Reach init (Acts step ok) t :=
  h.keeps (fun s _ a hs ha ht => hs.next ⟨a, hok s a ha, ht⟩) hs

theorem LeadsTo.reach {init : S → Prop} (h : LeadsTo step own s t)
    (hs : Reach init (Acts step anyAct) s) : Reach init (Acts step anyAct) t :=
  h.reachOk (fun _ _ _ => trivial) hs

/-- A system whose actions are carried out by those of another one leads where that one does. -/
theorem LeadsTo.lift {S' A' : Type*} {step' : S' → A' → Option S'} {own' : A' → Bool}
    (R : S → S' → Prop)
    (hstep : ∀ s t a u, R s u → own a = true → step s a = some t →
      ∃ v, LeadsTo step' own' u v ∧ R t v)
    {u : S'} (h : LeadsTo step own s t) (hu : R s u) : ∃ v, LeadsTo step' own' u v ∧ R t v := by
  obtain ⟨as, has, hown⟩ := h
  induction as generalizing s u with
  | nil =>
    cases Option.some.inj has
    exact ⟨u, leadsTo_refl u, hu⟩
  | cons a as ih =>
    simp only [runActs] at has
    split at has
    next w hw =>
      obtain ⟨x, hx, hr⟩ := hstep s w a u hu (hown a (by simp)) hw
      obtain ⟨v, hv, hr'⟩ := ih hr has fun b hb => hown b (by simp [hb])
      exact ⟨v, hx.trans hv, hr'⟩
    next => simp at has

/-- A list of actions that are all enabled leads somewhere. -/
theorem runActs_afterActs {as : List A} (h : (runActs step s as).isSome) :
    runActs step s as = some (afterActs step s as) := by
  obtain ⟨t, ht⟩ := Option.isSome_iff_exists.mp h
  rw [afterActs, ht]
  rfl

end OwnSteps
