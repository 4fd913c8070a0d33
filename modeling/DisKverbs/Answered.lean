import Mathlib.Data.List.Basic

namespace Answered

variable {α β : Type*}

/-- The requests that were answered well, in their order. -/
def answered (ok : β → Bool) : List α → List β → List α
  | x :: xs, b :: bs => if ok b then x :: answered ok xs bs else answered ok xs bs
  | _, _ => []

variable {ok : β → Bool} {xs ys : List α} {bs cs : List β} {x : α} {b : β}

@[simp] theorem answered_nil (ok : β → Bool) (xs : List α) : answered ok xs [] = [] := by
  cases xs <;> rfl

theorem answered_append (h : xs.length = bs.length) :
    answered ok (xs ++ ys) (bs ++ cs) = answered ok xs bs ++ answered ok ys cs := by
  induction xs generalizing bs with
  | nil =>
    have hb : bs = [] := List.length_eq_zero_iff.mp h.symm
    rw [hb]
    simp [answered]
  | cons x xs ih =>
    cases bs with
    | nil => simp at h
    | cons b bs =>
      have htail := @ih bs (by simpa using h)
      simp only [List.cons_append, answered, htail]
      split
      next => rfl
      next => rfl

/-- Requests that were not answered yet do not matter. -/
theorem answered_left (h : bs.length ≤ xs.length) :
    answered ok (xs ++ ys) bs = answered ok xs bs := by
  induction xs generalizing bs with
  | nil =>
    have hb : bs = [] := List.length_eq_zero_iff.mp (Nat.le_zero.mp h)
    rw [hb, answered_nil, answered_nil]
  | cons x xs ih =>
    cases bs with
    | nil => simp
    | cons b bs =>
      have htail := @ih bs (by simpa using h)
      simp only [List.cons_append, answered, htail]

/-- One more answer, to the first request that had none. -/
theorem answered_next (h : xs[bs.length]? = some x) :
    answered ok xs (bs ++ [b]) = answered ok xs bs ++ if ok b then [x] else [] := by
  obtain ⟨hlt, hx⟩ := List.getElem?_eq_some_iff.mp h
  have htake : (xs.take bs.length).length = bs.length := by
    rw [List.length_take]
    exact Nat.min_eq_left (Nat.le_of_lt hlt)
  have hsplit : xs = xs.take bs.length ++ x :: xs.drop (bs.length + 1) := by
    rw [← hx, ← List.drop_eq_getElem_cons hlt, List.take_append_drop]
  rw [hsplit, answered_append htake, answered_left (Nat.le_of_eq htake.symm)]
  congr 1
  simp only [answered, answered_nil]

/-- Where every answer is a good one, the requests that have one are left. -/
theorem answered_all (hall : ∀ b ∈ bs, ok b = true) (h : bs.length ≤ xs.length) :
    answered ok xs bs = xs.take bs.length := by
  induction xs generalizing bs with
  | nil => cases bs <;> simp [answered]
  | cons x xs ih =>
    cases bs with
    | nil => simp
    | cons b bs =>
      have htail := @ih bs (fun c hc => hall c (List.mem_cons_of_mem b hc)) (by simpa using h)
      simp only [answered, hall b List.mem_cons_self, if_true, htail, List.length_cons,
        List.take_succ_cons]

theorem answered_map {γ : Type*} (f : α → γ) :
    answered ok (xs.map f) bs = (answered ok xs bs).map f := by
  induction xs generalizing bs with
  | nil => simp [answered]
  | cons x xs ih =>
    cases bs with
    | nil => simp
    | cons b bs =>
      simp only [List.map_cons, answered, ih]
      split
      next => rfl
      next => rfl

theorem answered_zip {γ : Type*} (xs : List α) (ys : List γ) (bs : List β) :
    answered ok (xs.zip ys) bs = (answered ok xs bs).zip (answered ok ys bs) := by
  induction xs generalizing ys bs with
  | nil => simp [answered]
  | cons x xs ih =>
    cases bs with
    | nil => simp
    | cons b bs =>
      cases ys with
      | nil => simp [answered]
      | cons y ys =>
        simp only [List.zip_cons_cons, answered, ih]
        split
        next => rfl
        next => rfl

/-- What is answered well comes from the requests, each of them once and in their order. -/
theorem answered_sublist (ok : β → Bool) (xs : List α) (bs : List β) :
    (answered ok xs bs).Sublist xs := by
  induction xs generalizing bs with
  | nil => simp [answered]
  | cons x xs ih =>
    cases bs with
    | nil => simp
    | cons b bs =>
      simp only [answered]
      split
      next => exact (ih bs).cons_cons x
      next => exact (ih bs).cons x

theorem answered_length (h : bs.length ≤ xs.length) :
    (answered ok xs bs).length = bs.countP ok := by
  induction xs generalizing bs with
  | nil =>
    have hb : bs = [] := List.length_eq_zero_iff.mp (Nat.le_zero.mp h)
    rw [hb]
    rfl
  | cons x xs ih =>
    cases bs with
    | nil => simp
    | cons b bs =>
      have htail := @ih bs (by simpa using h)
      simp only [answered, List.countP_cons]
      split
      next => rw [List.length_cons, htail]
      next => rw [htail, Nat.add_zero]

end Answered
