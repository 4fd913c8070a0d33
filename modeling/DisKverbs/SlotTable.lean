import Mathlib.Data.List.Nodup
import Mathlib.Logic.Function.Basic

namespace SlotTable

variable {α κ : Type*}

/-- A table that is filled in order, and the next entry to fill. -/
structure Table (α : Type*) where
  list : Nat → Option α
  count : Nat

def Table.add (t : Table α) (a : α) : Table α :=
  ⟨Function.update t.list t.count (some a), t.count + 1⟩

/-- An object that was handed out: the entry it was stored to, its address, and its key. -/
structure Issue (α κ : Type*) where
  slot : Nat
  obj : α
  key : κ

/-- The table holds what was handed out, from entry `ini` on, and under its key; `first` is what
the table held before. -/
structure Filled (num : κ → Nat) (ini max : Nat) (first : Nat → Option α)
    (issues : List (Issue α κ)) (t : Table α) : Prop where
  count : t.count = ini + issues.length
  le_max : t.count ≤ max
  issued : ∀ j e, issues[j]? = some e →
    e.slot = ini + j ∧ num e.key = e.slot ∧ t.list e.slot = some e.obj
  rest : ∀ i, i < ini ∨ t.count ≤ i → t.list i = first i

/-- The objects in use have the key under which their address was handed out. -/
def Current (keyOf : α → κ) (live : List α) (issues : List (Issue α κ)) : Prop :=
  ∀ a ∈ live, ∃ e ∈ issues, e.obj = a ∧ e.key = keyOf a

/-- An entry is filled exactly when it lies below the counter, and then with the one object whose
key it is; no key is handed out twice. -/
structure Sound (num : κ → Nat) (ini max : Nat) (first : Nat → Option α)
    (issues : List (Issue α κ)) (keyOf : α → κ) (live : List α) (t : Table α) : Prop where
  bounds : ini ≤ t.count ∧ t.count ≤ max
  inRange : ∀ e ∈ issues, ini ≤ e.slot ∧ e.slot < max
  filled : ∀ i, (∃ e ∈ issues, e.slot = i) ↔ ini ≤ i ∧ i < t.count
  entry : ∀ e ∈ issues, t.list e.slot = some e.obj ∧ num e.key = e.slot ∧
    ∀ e' ∈ issues, num e'.key = e.slot → e' = e
  unfilled : ∀ i, i < ini ∨ t.count ≤ i → t.list i = first i
  current : Current keyOf live issues
  once : (issues.map Issue.key).Nodup

section

variable {num : κ → Nat} {ini max : Nat} {first : Nat → Option α} {issues : List (Issue α κ)}
  {t : Table α}

theorem filled_start (h : ini ≤ max) : Filled num ini max first [] ⟨first, ini⟩ :=
  ⟨rfl, h, by simp, fun _ _ => rfl⟩

theorem Filled.add (h : Filled num ini max first issues t) {a : α} {key : κ}
    (hlt : t.count < max) (hkey : num key = t.count) :
    Filled num ini max first (issues ++ [⟨t.count, a, key⟩]) (t.add a) := by
  have hcount := h.count
  refine ⟨?_, hlt, ?_, ?_⟩
  · rw [List.length_append, List.length_singleton, ← Nat.add_assoc, ← hcount]
    rfl
  · intro j e he
    rcases Nat.lt_or_ge j issues.length with hj | hj
    · rw [List.getElem?_append_left hj] at he
      obtain ⟨hslot, hnum, hlist⟩ := h.issued j e he
      refine ⟨hslot, hnum, ?_⟩
      have hne : e.slot ≠ t.count := by omega
      exact (Function.update_of_ne hne ..).trans hlist
    · rw [List.getElem?_append_right hj] at he
      rw [List.getElem?_singleton, Option.ite_none_right_eq_some] at he
      obtain ⟨hlast, hnew⟩ := he
      cases Option.some.inj hnew
      have hslot : t.count = ini + j := by omega
      exact ⟨hslot, hkey, Function.update_self ..⟩
  · intro i hi
    have hout : (i < ini ∨ t.count ≤ i) ∧ i ≠ t.count := by
      simp only [Table.add] at hi
      omega
    exact (Function.update_of_ne hout.2 ..).trans (h.rest i hout.1)

/-- Different issues have different keys, since the keys count the entries. -/
theorem Filled.keys_nodup (h : Filled num ini max first issues t) :
    (issues.map Issue.key).Nodup := by
  refine List.nodup_iff_getElem?_ne_getElem?.mpr fun i j hij hj he => ?_
  rw [List.length_map] at hj
  have hi : i < issues.length := by omega
  simp only [List.getElem?_map, List.getElem?_eq_getElem hi, List.getElem?_eq_getElem hj,
    Option.map_some, Option.some.injEq] at he
  obtain ⟨hsi, hni, _⟩ := h.issued i _ (List.getElem?_eq_getElem hi)
  obtain ⟨hsj, hnj, _⟩ := h.issued j _ (List.getElem?_eq_getElem hj)
  rw [he] at hni
  omega

theorem Filled.only (h : Filled num ini max first issues t) {e e' : Issue α κ} (he : e ∈ issues)
    (he' : e' ∈ issues) (hkey : num e'.key = e.slot) : e' = e := by
  obtain ⟨i, hi⟩ := List.mem_iff_getElem?.mp he
  obtain ⟨j, hj⟩ := List.mem_iff_getElem?.mp he'
  obtain ⟨hsi, _, _⟩ := h.issued i e hi
  obtain ⟨hsj, hnj, _⟩ := h.issued j e' hj
  have hij : j = i := by omega
  rw [hij, hi] at hj
  exact (Option.some.inj hj).symm

theorem Filled.slot_iff (h : Filled num ini max first issues t) {i : Nat} :
    (∃ e ∈ issues, e.slot = i) ↔ ini ≤ i ∧ i < t.count := by
  have hcount := h.count
  constructor
  · intro h'
    obtain ⟨e, he, rfl⟩ := h'
    obtain ⟨j, hj⟩ := List.mem_iff_getElem?.mp he
    obtain ⟨hlt, _⟩ := List.getElem?_eq_some_iff.mp hj
    have hslot := (h.issued j e hj).1
    omega
  · intro h'
    obtain ⟨hle, hlt⟩ := h'
    have hj : i - ini < issues.length := by omega
    have hslot := (h.issued (i - ini) _ (List.getElem?_eq_getElem hj)).1
    exact ⟨issues[i - ini], List.getElem_mem hj, by omega⟩

theorem Filled.sound (h : Filled num ini max first issues t) {keyOf : α → κ} {live : List α}
    (hc : Current keyOf live issues) : Sound num ini max first issues keyOf live t := by
  have hrange : ∀ e ∈ issues, ini ≤ e.slot ∧ e.slot < t.count := fun e he =>
    h.slot_iff.mp ⟨e, he, rfl⟩
  refine ⟨⟨?_, h.le_max⟩, fun e he => ?_, fun _ => h.slot_iff, fun e he => ?_, h.rest, hc,
    h.keys_nodup⟩
  · rw [h.count]
    exact Nat.le_add_right ini _
  · exact ⟨(hrange e he).1, Nat.lt_of_lt_of_le (hrange e he).2 h.le_max⟩
  · obtain ⟨j, hj⟩ := List.mem_iff_getElem?.mp he
    obtain ⟨_, hnum, hlist⟩ := h.issued j e hj
    exact ⟨hlist, hnum, fun e' he' hkey => h.only he he' hkey⟩

/-- The key of an object in use leads to it. -/
theorem Sound.lookup {keyOf : α → κ} {live : List α}
    (h : Sound num ini max first issues keyOf live t) {a : α} (ha : a ∈ live) :
    t.list (num (keyOf a)) = some a := by
  obtain ⟨e, he, rfl, hkey⟩ := h.current a ha
  obtain ⟨hlist, hnum, _⟩ := h.entry e he
  rw [← hkey, hnum]
  exact hlist

end

section

variable {keyOf keyOf' : α → κ} {live : List α} {issues : List (Issue α κ)}

theorem Current.subset {live' : List α} (h : Current keyOf live issues) (hs : live' ⊆ live) :
    Current keyOf live' issues := fun a ha => h a (hs ha)

/-- An object that was not in use gets its key; the others keep theirs. -/
theorem Current.add (h : Current keyOf live issues) (slot : Nat) {obj : α} {key : κ}
    (hnew : keyOf' obj = key) (hkeep : ∀ a ∈ live, keyOf' a = keyOf a) :
    Current keyOf' (obj :: live) (issues ++ [⟨slot, obj, key⟩]) := by
  intro a ha
  rcases List.mem_cons.mp ha with rfl | ha
  · exact ⟨⟨slot, a, key⟩, by simp, rfl, hnew.symm⟩
  · obtain ⟨e', he', hobj, hkey⟩ := h a ha
    exact ⟨e', List.mem_append_left _ he', hobj, hkey.trans (hkeep a ha).symm⟩

end

end SlotTable
