import Mathlib.Data.List.Basic
import Mathlib.Logic.Function.Basic

namespace ByteMem

variable {α β : Type*} [DecidableEq α]

def writeBytes (mem : α → β) : List α → List β → α → β
  | x :: xs, b :: bs => writeBytes (Function.update mem x b) xs bs
  | _, _ => mem

theorem writeBytes_other {mem : α → β} {xs : List α} {bs : List β} {y : α} (h : y ∉ xs) :
    writeBytes mem xs bs y = mem y := by
  induction xs generalizing mem bs with
  | nil => cases bs <;> rfl
  | cons x xs ih =>
    cases bs with
    | nil => rfl
    | cons b bs =>
      obtain ⟨hne, hxs⟩ : y ≠ x ∧ y ∉ xs := by simpa using h
      rw [writeBytes, ih hxs, Function.update_of_ne hne]

theorem map_writeBytes_other {mem : α → β} {xs ys : List α} {bs : List β}
    (h : ∀ y ∈ ys, y ∉ xs) : ys.map (writeBytes mem xs bs) = ys.map mem :=
  List.map_congr_left fun y hy => writeBytes_other (h y hy)

/-- What was stored is read back, when no address occurs twice. -/
theorem map_writeBytes {mem : α → β} {xs : List α} {bs : List β} (hn : xs.Nodup)
    (hl : xs.length = bs.length) : xs.map (writeBytes mem xs bs) = bs := by
  induction xs generalizing mem bs with
  | nil =>
    cases bs with
    | nil => rfl
    | cons b bs => simp at hl
  | cons x xs ih =>
    cases bs with
    | nil => simp at hl
    | cons b bs =>
      obtain ⟨hx, hxs⟩ := List.nodup_cons.mp hn
      have htail : xs.map (writeBytes (Function.update mem x b) xs bs) = bs :=
        ih hxs (by simpa using hl)
      rw [List.map_cons, writeBytes, htail, writeBytes_other hx, Function.update_self]

/-- A place that is stored to no longer depends on what the memory held, any other still does. -/
theorem writeBytes_agree {mem mem' : α → β} {xs : List α} {bs : List β} {y : α}
    (hl : xs.length = bs.length) :
    writeBytes mem xs bs y = writeBytes mem' xs bs y ↔ y ∈ xs ∨ mem y = mem' y := by
  induction xs generalizing mem mem' bs with
  | nil => simp [writeBytes]
  | cons x xs ih =>
    cases bs with
    | nil => simp at hl
    | cons b bs =>
      rw [writeBytes, writeBytes, ih (by simpa using hl), List.mem_cons]
      by_cases he : y = x
      · simp [he]
      · simp [he]

theorem map_update_other {mem : α → β} {ys : List α} {x : α} {v : β} (h : x ∉ ys) :
    ys.map (Function.update mem x v) = ys.map mem := by
  apply List.map_congr_left
  intro y hy
  have hne : y ≠ x := by rintro rfl; exact h hy
  exact Function.update_of_ne hne _ _

end ByteMem
