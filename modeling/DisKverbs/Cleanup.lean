import Mathlib.Data.List.Nodup

namespace Cleanup

inductive Event (ρ : Type)
  | acquire (r : ρ)
  | release (r : ρ)
  deriving DecidableEq

/-- The body of a function that acquires resources one by one and may jump to a label of the
cleanup code behind it. -/
inductive Body (ρ lab α : Type)
  | ret (a : α)
  | goto (l : lab)
  | acquire (r : ρ) (k : Body ρ lab α)

variable {ρ lab α β : Type}

def Body.bind : Body ρ lab α → (α → Body ρ lab β) → Body ρ lab β
  | .ret a, f => f a
  | .goto l, _ => .goto l
  | .acquire r k, f => .acquire r (k.bind f)

instance : Monad (Body ρ lab) where
  pure := .ret
  bind := .bind

def goto (l : lab) : Body ρ lab α := .goto l

def acquire (r : ρ) : Body ρ lab Unit := .acquire r (.ret ())

def gotoIf (c : Prop) [Decidable c] (l : lab) : Body ρ lab Unit := if c then goto l else pure ()

/-- What is released from a label on, when control falls through all labels that follow it. -/
def fallThrough [DecidableEq lab] (labels : List (lab × List ρ)) (l : lab) : List ρ :=
  (labels.dropWhile fun c => c.1 ≠ l).flatMap Prod.snd

/-- The result, unless the body jumped, and the log of the function. -/
def exec [DecidableEq lab] (labels : List (lab × List ρ)) :
    Body ρ lab α → Option α × List (Event ρ)
  | .ret a => (some a, [])
  | .goto l => (none, (fallThrough labels l).map .release)
  | .acquire r k => ((exec labels k).1, .acquire r :: (exec labels k).2)

/-- Each resource that was acquired is released once, after that, and the latest one first. -/
structure ReleasedOnce [DecidableEq ρ] (log : List (Event ρ)) : Prop where
  once : ∀ r, .acquire r ∈ log → log.count (.acquire r) = 1 ∧ log.count (.release r) = 1
  after : ∀ pre post r, log = pre ++ .release r :: post → .acquire r ∈ pre
  latestFirst : ∃ rs : List ρ, log = rs.map .acquire ++ rs.reverse.map .release

/-- Nothing is released and nothing is acquired twice. -/
structure OnlyAcquired (rs : List ρ) (log : List (Event ρ)) : Prop where
  nodup : rs.Nodup
  log_eq : log = rs.map .acquire

/-- With `held` acquired so far, the latest first, the body ends as `P` says and jumps only as `J`
says, to a label behind which all that is held then is released. -/
def Body.Undoes [DecidableEq lab] (labels : List (lab × List ρ)) (P : α → List ρ → Prop)
    (J : lab → Prop) : Body ρ lab α → List ρ → Prop
  | .ret a, held => P a held
  | .goto l, held => fallThrough labels l = held ∧ J l
  | .acquire r k, held => r ∉ held ∧ k.Undoes labels P J (r :: held)

section

variable [DecidableEq lab] {labels : List (lab × List ρ)}

@[simp] theorem exec_pure (a : α) : exec labels (pure a : Body ρ lab α) = (some a, []) := rfl

@[simp] theorem exec_goto (l : lab) : exec labels (goto l : Body ρ lab α) =
    (none, (fallThrough labels l).map .release) := rfl

@[simp] theorem exec_goto_bind (l : lab) (f : α → Body ρ lab β) :
    exec labels (goto l >>= f) = (none, (fallThrough labels l).map .release) := rfl

@[simp] theorem exec_pure_bind (a : α) (f : α → Body ρ lab β) :
    exec labels (pure a >>= f) = exec labels (f a) := rfl

@[simp] theorem exec_acquire_bind (r : ρ) (k : Unit → Body ρ lab α) :
    exec labels (acquire r >>= k) =
      ((exec labels (k ())).1, .acquire r :: (exec labels (k ())).2) := rfl

@[simp] theorem exec_gotoIf_bind (c : Prop) [Decidable c] (l : lab) (k : Unit → Body ρ lab α) :
    exec labels (gotoIf c l >>= k) =
      if c then (none, (fallThrough labels l).map .release) else exec labels (k ()) := by
  unfold gotoIf
  split <;> rfl

end

section

variable [DecidableEq lab] {labels : List (lab × List ρ)} {P : α → List ρ → Prop}
  {J : lab → Prop} {p : Body ρ lab α} {held : List ρ}

theorem undoes_acquire {r : ρ} {k : Unit → Body ρ lab α} (hr : r ∉ held)
    (hk : (k ()).Undoes labels P J (r :: held)) : (acquire r >>= k).Undoes labels P J held :=
  ⟨hr, hk⟩

theorem undoes_gotoIf {c : Prop} [Decidable c] {l : lab} {k : Unit → Body ρ lab α}
    (hl : c → fallThrough labels l = held ∧ J l) (hk : ¬ c → (k ()).Undoes labels P J held) :
    (gotoIf c l >>= k).Undoes labels P J held := by
  unfold gotoIf
  split
  next hc => exact hl hc
  next hc => exact hk hc

/-- An execution acquires `rs` on top of what was held, and ends well or undoes all of it. -/
theorem Body.Undoes.exec (h : p.Undoes labels P J held) (hn : held.Nodup) :
    ∃ rs : List ρ, (rs.reverse ++ held).Nodup ∧
      ((∃ a, P a (rs.reverse ++ held) ∧ exec labels p = (some a, rs.map .acquire)) ∨
        (∃ l, J l) ∧
          exec labels p = (none, rs.map .acquire ++ (rs.reverse ++ held).map .release)) := by
  induction p generalizing held with
  | ret a => exact ⟨[], hn, .inl ⟨a, h, rfl⟩⟩
  | goto l =>
    obtain ⟨hl, hj⟩ := h
    refine ⟨[], hn, .inr ⟨⟨l, hj⟩, ?_⟩⟩
    rw [Cleanup.exec, hl]
    rfl
  | acquire r k ih =>
    obtain ⟨rs, hrs, hend⟩ := ih h.2 (List.nodup_cons.mpr ⟨h.1, hn⟩)
    refine ⟨r :: rs, by simpa using hrs, ?_⟩
    rcases hend with ⟨a, ha, he⟩ | ⟨hj, he⟩
    · refine .inl ⟨a, by simpa using ha, ?_⟩
      rw [Cleanup.exec, he]
      rfl
    · refine .inr ⟨hj, ?_⟩
      rw [Cleanup.exec, he]
      simp

end

section

variable [DecidableEq ρ] {rs : List ρ}

theorem count_map_event {mark : ρ → Event ρ} (hm : Function.Injective mark) (hn : rs.Nodup)
    {r : ρ} (hr : r ∈ rs) : (rs.map mark).count (mark r) = 1 :=
  List.count_eq_one_of_mem (hn.map hm) (List.mem_map_of_mem hr)

/-- Acquiring one after the other and releasing in reverse. -/
theorem releasedOnce_undone (hn : rs.Nodup) :
    ReleasedOnce (rs.map Event.acquire ++ rs.reverse.map Event.release) := by
  refine ⟨?_, ?_, rs, rfl⟩
  · intro r hr
    have hmem : r ∈ rs := by simpa using hr
    have hacq := count_map_event (fun _ _ => Event.acquire.inj) hn hmem
    have hrel := count_map_event (fun _ _ => Event.release.inj) (List.nodup_reverse.mpr hn)
      (List.mem_reverse.mpr hmem)
    rw [List.count_append, List.count_append, hacq, hrel]
    refine ⟨?_, ?_⟩
    · rw [List.count_eq_zero_of_not_mem (by simp)]
    · rw [List.count_eq_zero_of_not_mem (by simp)]
  · intro pre post r he
    have hmem : Event.release r ∈ rs.map Event.acquire ++ rs.reverse.map Event.release := by
      rw [he]
      simp
    have hr : r ∈ rs := by simpa using hmem
    -- the first release stands behind all acquisitions
    rcases List.append_eq_append_iff.mp he with ⟨mid, hpre, _⟩ | ⟨mid, hacq, hrest⟩
    · rw [hpre]
      simp [hr]
    · cases mid with
      | nil =>
        rw [List.append_nil] at hacq
        rw [← hacq]
        simp [hr]
      | cons e mid =>
        have hhead : Event.release r = e := (List.cons.inj hrest).1
        have hin : Event.release r ∈ rs.map Event.acquire := by
          rw [hacq, hhead]
          simp
        simp at hin

end

section

variable [DecidableEq ρ] [DecidableEq lab] {labels : List (lab × List ρ)}
  {P : α → List ρ → Prop} {J : lab → Prop} {p : Body ρ lab α}

/-- A function whose body undoes all it holds at every jump either keeps all it acquired, or
fails and has released it. -/
theorem undoes_cleans (h : p.Undoes labels P J []) :
    (∃ a rs, P a rs.reverse ∧ (exec labels p).1 = some a ∧
      OnlyAcquired rs (exec labels p).2) ∨
      (∃ l, J l) ∧ (exec labels p).1 = none ∧ ReleasedOnce (exec labels p).2 := by
  obtain ⟨rs, hn, hend⟩ := h.exec List.nodup_nil
  rw [List.append_nil] at hn hend
  have hnodup := List.nodup_reverse.mp hn
  rcases hend with ⟨a, ha, he⟩ | ⟨hj, he⟩
  · rw [he]
    exact .inl ⟨a, rs, ha, rfl, hnodup, rfl⟩
  · rw [he]
    exact .inr ⟨hj, rfl, releasedOnce_undone hnodup⟩

end

end Cleanup
