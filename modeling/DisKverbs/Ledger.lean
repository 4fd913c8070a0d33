import DisKverbs.Cleanup
import Mathlib.Data.Finset.Union

namespace Ledger

open Cleanup

variable {ρ ι lab α β : Type} [DecidableEq ρ] [DecidableEq ι]

/-- What is held after a log, unless the log acquires what is held or releases what is not. -/
def replay (held : Finset ρ) : List (Event ρ) → Option (Finset ρ)
  | [] => some held
  | .acquire r :: es => if r ∈ held then none else replay (insert r held) es
  | .release r :: es => if r ∈ held then replay (held.erase r) es else none

section

variable {held held' : Finset ρ} {es fs : List (Event ρ)} {rs : List ρ} {r : ρ}

theorem replay_append (held : Finset ρ) (es fs : List (Event ρ)) :
    replay held (es ++ fs) = (replay held es).bind (replay · fs) := by
  induction es generalizing held with
  | nil => rfl
  | cons e es ih =>
    cases e with
    | acquire r =>
      simp only [List.cons_append, replay]
      split
      next => rfl
      next => exact ih _
    | release r =>
      simp only [List.cons_append, replay]
      split
      next => exact ih _
      next => rfl

theorem replay_then {mid : Finset ρ} (h : replay held es = some mid)
    (ht : replay mid fs = some held') : replay held (es ++ fs) = some held' := by
  rw [replay_append, h]
  exact ht

theorem replay_acquire (hr : r ∉ held) : replay held [.acquire r] = some (insert r held) := by
  rw [replay, if_neg hr]
  rfl

theorem replay_release (hr : r ∈ held) : replay held [.release r] = some (held.erase r) := by
  rw [replay, if_pos hr]
  rfl

/-- Releasing what is held, one after the other. -/
theorem replay_releases (hn : rs.Nodup) (hh : ∀ r ∈ rs, r ∈ held) :
    replay held (rs.map .release) = some (held \ rs.toFinset) := by
  induction rs generalizing held with
  | nil => simp [replay]
  | cons r rs ih =>
    obtain ⟨hr, hrs⟩ := List.nodup_cons.mp hn
    have hrest : ∀ r' ∈ rs, r' ∈ held.erase r := by
      intro r' hr'
      refine Finset.mem_erase.mpr ⟨?_, hh r' (List.mem_cons_of_mem r hr')⟩
      rintro rfl
      exact hr hr'
    rw [List.map_cons, replay, if_pos (hh r List.mem_cons_self), ih hrs hrest]
    congr 1
    ext r'
    simp only [Finset.mem_sdiff, Finset.mem_erase, List.mem_toFinset, List.mem_cons]
    tauto

/-- A log that can be replayed acquires each resource as often as it releases it, but for what is
held at the end and was not at the start. -/
theorem replay_count (h : replay held es = some held') (r : ρ) :
    es.count (.acquire r) + (if r ∈ held then 1 else 0) =
      es.count (.release r) + if r ∈ held' then 1 else 0 := by
  induction es generalizing held with
  | nil =>
    cases Option.some.inj h
    rfl
  | cons e es ih =>
    cases e with
    | acquire r' =>
      simp only [replay] at h
      split at h
      next => simp at h
      next hr' =>
        have hrest := ih h
        by_cases he : r' = r
        · subst he
          simp [hr'] at hrest ⊢
          omega
        · have hne : r ≠ r' := fun heq => he heq.symm
          simpa [he, hne] using hrest
    | release r' =>
      simp only [replay] at h
      split at h
      next hr' =>
        have hrest := ih h
        by_cases he : r' = r
        · subst he
          simp [hr'] at hrest ⊢
          omega
        · have hne : r ≠ r' := fun heq => he heq.symm
          simpa [he, hne] using hrest
      next => simp at h

/-- When nothing is left, everything that was acquired was released. -/
theorem replay_closed (h : replay ∅ es = some ∅) (r : ρ) :
    es.count (.acquire r) = es.count (.release r) := by
  simpa using replay_count h r

end

section

variable {T : ρ → Prop}

/-- The body acquires only what satisfies `T`. -/
def Takes (T : ρ → Prop) : Body ρ lab α → Prop
  | .ret _ => True
  | .goto _ => True
  | .acquire r k => T r ∧ Takes T k

omit [DecidableEq ρ] in
theorem takes_acquire {r : ρ} {k : Unit → Body ρ lab α} (hr : T r) (hk : Takes T (k ())) :
    Takes T (acquire r >>= k) :=
  ⟨hr, hk⟩

omit [DecidableEq ρ] in
theorem takes_gotoIf {c : Prop} [Decidable c] {l : lab} {k : Unit → Body ρ lab α}
    (hk : Takes T (k ())) : Takes T (gotoIf c l >>= k) := by
  unfold gotoIf
  split
  next => trivial
  next => exact hk

variable [DecidableEq lab] {labels : List (lab × List ρ)} {P : α → List ρ → Prop}
  {J : lab → Prop} {p : Body ρ lab α} {others : Finset ρ}

/-- On top of what others hold, a body that undoes all at every jump holds at its end what `P` says,
or nothing. -/
theorem undoes_replay {held : List ρ} (h : p.Undoes labels P J held) (ht : Takes T p)
    (hn : held.Nodup) (hheld : ∀ r ∈ held, T r) (hothers : ∀ r, T r → r ∉ others) :
    (∃ a rs, P a rs ∧ (exec labels p).1 = some a ∧
      replay (others ∪ held.toFinset) (exec labels p).2 = some (others ∪ rs.toFinset)) ∨
      (exec labels p).1 = none ∧
        replay (others ∪ held.toFinset) (exec labels p).2 = some others := by
  induction p generalizing held with
  | ret a => exact .inl ⟨a, held, h, rfl, rfl⟩
  | goto l =>
    refine .inr ⟨rfl, ?_⟩
    have hin : ∀ r ∈ held, r ∈ others ∪ held.toFinset := by
      intro r hr
      exact Finset.mem_union_right _ (List.mem_toFinset.mpr hr)
    rw [exec, h.1, replay_releases hn hin]
    congr 1
    ext r
    simp only [Finset.mem_sdiff, Finset.mem_union, List.mem_toFinset]
    have hr : r ∈ held → r ∉ others := fun hr => hothers r (hheld r hr)
    tauto
  | acquire r k ih =>
    obtain ⟨hr, hk⟩ := h
    obtain ⟨htr, htk⟩ := ht
    have hnew : r ∉ others ∪ held.toFinset := by
      simp [hothers r htr, hr]
    have hall : ∀ r' ∈ r :: held, T r' := by
      intro r' hr'
      rcases List.mem_cons.mp hr' with rfl | hr'
      · exact htr
      · exact hheld r' hr'
    have hset : insert r (others ∪ held.toFinset) = others ∪ (r :: held).toFinset := by
      rw [List.toFinset_cons, Finset.union_insert]
    have hlog : replay (others ∪ held.toFinset) (exec labels (.acquire r k)).2 =
        replay (others ∪ (r :: held).toFinset) (exec labels k).2 := by
      rw [exec, replay, if_neg hnew, hset]
    rw [hlog]
    exact ih hk htk (List.nodup_cons.mpr ⟨hr, hn⟩) hall

end

section

/-! What each live object holds, when every resource has one owner. -/

variable {owner : ρ → ι} {res : ι → Finset ρ} {live : Finset ι} {i : ι}

omit [DecidableEq ι] in
theorem unowned (howner : ∀ i, ∀ r ∈ res i, owner r = i) (hi : i ∉ live) {r : ρ}
    (hr : owner r = i) : r ∉ live.biUnion res := by
  intro hmem
  obtain ⟨j, hj, hrj⟩ := Finset.mem_biUnion.mp hmem
  rw [← hr, howner j r hrj] at hi
  exact hi hj

theorem owned_erase (howner : ∀ i, ∀ r ∈ res i, owner r = i) :
    live.biUnion res \ res i = (live.erase i).biUnion res := by
  ext r
  simp only [Finset.mem_sdiff, Finset.mem_biUnion, Finset.mem_erase]
  constructor
  · rintro ⟨⟨j, hj, hrj⟩, hri⟩
    refine ⟨j, ⟨?_, hj⟩, hrj⟩
    rintro rfl
    exact hri hrj
  · rintro ⟨j, ⟨hne, hj⟩, hrj⟩
    refine ⟨⟨j, hj, hrj⟩, fun hri => hne ?_⟩
    rw [← howner j r hrj, howner i r hri]

/-- An object that goes releases all it holds. -/
theorem replay_disown (howner : ∀ i, ∀ r ∈ res i, owner r = i) (hi : i ∈ live) (rs : List ρ)
    (hn : rs.Nodup) (hrs : res i = rs.toFinset) :
    replay (live.biUnion res) (rs.map .release) = some ((live.erase i).biUnion res) := by
  have hheld : ∀ r ∈ rs, r ∈ live.biUnion res := by
    intro r hr
    refine Finset.mem_biUnion.mpr ⟨i, hi, ?_⟩
    rw [hrs]
    exact List.mem_toFinset.mpr hr
  rw [replay_releases hn hheld, ← hrs, owned_erase howner]

end

end Ledger
