import DisKverbs.CellProg

namespace CellProg

variable {σ ω ρ α β : Type} [Cell σ ω]

/-- The stores of an execution in which the environment answers `x`, in order. -/
def Prog.stores (x : ρ) : Prog σ ω ρ α → σ → List ω
  | .ret _, _ => []
  | .load k, s => (k s).stores x s
  | .store w k, s => w :: k.stores x (Cell.put w s)
  | .ask k, s => (k x).stores x s

/-- Stores applied one after the other. -/
def putAll (s : σ) (ws : List ω) : σ := ws.foldl (fun s w => Cell.put w s) s

variable {x : ρ} {s : σ}

@[simp] theorem putAll_nil : putAll s ([] : List ω) = s := rfl

@[simp] theorem putAll_cons (w : ω) (ws : List ω) :
    putAll s (w :: ws) = putAll (Cell.put w s) ws := rfl

@[simp] theorem putAll_append (ws vs : List ω) :
    putAll s (ws ++ vs) = putAll (putAll s ws) vs := List.foldl_append

/-- An execution changes its cell by its stores only. -/
theorem run_putAll (x : ρ) (p : Prog σ ω ρ α) (s : σ) : (p.run x s).2 = putAll s (p.stores x s) := by
  induction p generalizing s with
  | ret a => rfl
  | load k ih => exact ih s s
  | store w k ih => exact ih (Cell.put w s)
  | ask k ih => exact ih x s

/-- With the answer fixed, an execution has one result and one final cell. -/
theorem run_unique {p : Prog σ ω ρ α} {s t : σ} {r : α} (h : Runs (· = x) p s r t) :
    p.run x s = (r, t) := by
  induction h with
  | ret => rfl
  | load _ ih => exact ih
  | store _ ih => exact ih
  | ask y hy _ ih =>
    subst hy
    exact ih

@[simp] theorem stores_pure (a : α) : (pure a : Prog σ ω ρ α).stores x s = [] := rfl

@[simp] theorem stores_load : (load : Prog σ ω ρ σ).stores x s = [] := rfl

@[simp] theorem stores_store (w : ω) : (store w : Prog σ ω ρ Unit).stores x s = [w] := rfl

@[simp] theorem stores_ask : (ask : Prog σ ω ρ ρ).stores x s = [] := rfl

@[simp] theorem run_pure (a : α) : (pure a : Prog σ ω ρ α).run x s = (a, s) := rfl

@[simp] theorem run_load : (load : Prog σ ω ρ σ).run x s = (s, s) := rfl

@[simp] theorem run_store (w : ω) :
    (store w : Prog σ ω ρ Unit).run x s = ((), Cell.put w s) := rfl

@[simp] theorem run_ask : (ask : Prog σ ω ρ ρ).run x s = (x, s) := rfl

theorem run_bind (p : Prog σ ω ρ α) (f : α → Prog σ ω ρ β) (s : σ) :
    (p >>= f).run x s = (f (p.run x s).1).run x (p.run x s).2 := by
  show (p.bind f).run x s = _
  induction p generalizing s with
  | ret a => rfl
  | load k ih => exact ih s s
  | store w k ih => exact ih (Cell.put w s)
  | ask k ih => exact ih x s

theorem stores_bind (p : Prog σ ω ρ α) (f : α → Prog σ ω ρ β) (s : σ) :
    (p >>= f).stores x s =
      p.stores x s ++ (f (p.run x s).1).stores x (p.run x s).2 := by
  show (p.bind f).stores x s = _
  induction p generalizing s with
  | ret a => rfl
  | load k ih => exact ih s s
  | store w k ih => exact congrArg (w :: ·) (ih (Cell.put w s))
  | ask k ih => exact ih x s

/-- The stores of a sequence, once the first part is known to run to a result. -/
theorem stores_bind_of {p : Prog σ ω ρ α} {f : α → Prog σ ω ρ β} {t : σ} {a : α}
    (h : Runs (· = x) p s a t) :
    (p >>= f).stores x s = p.stores x s ++ (f a).stores x t := by
  rw [stores_bind, run_unique h]

end CellProg
