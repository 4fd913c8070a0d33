import Mathlib.Init

namespace CellProg

/-- A cell of type `σ` and the elementary stores `ω` that change it. -/
class Cell (σ : outParam Type) (ω : Type) where
  put : ω → σ → σ

/-- A terminating program over one shared cell. Every `load`, `store` and `ask`
is one atomic step; `ask` takes an answer of the environment. -/
inductive Prog (σ ω ρ α : Type) where
  | ret (a : α)
  | load (k : σ → Prog σ ω ρ α)
  | store (w : ω) (k : Prog σ ω ρ α)
  | ask (k : ρ → Prog σ ω ρ α)

variable {σ ω ρ α β : Type}

def Prog.bind : Prog σ ω ρ α → (α → Prog σ ω ρ β) → Prog σ ω ρ β
  | .ret a, f => f a
  | .load k, f => .load fun s => (k s).bind f
  | .store w k, f => .store w (k.bind f)
  | .ask k, f => .ask fun x => (k x).bind f

instance : Monad (Prog σ ω ρ) where
  pure := .ret
  bind := .bind

def load : Prog σ ω ρ σ := .load .ret

def store (w : ω) : Prog σ ω ρ Unit := .store w (.ret ())

def ask : Prog σ ω ρ ρ := .ask .ret

def Prog.run [Cell σ ω] (x : ρ) : Prog σ ω ρ α → σ → α × σ
  | .ret a, s => (a, s)
  | .load k, s => (k s).run x s
  | .store w k, s => k.run x (Cell.put w s)
  | .ask k, s => (k x).run x s

/-- Execution with any answers out of `A`: the result and the final cell. -/
inductive Runs [Cell σ ω] (A : ρ → Prop) : Prog σ ω ρ α → σ → α → σ → Prop
  | ret {a s} : Runs A (.ret a) s a s
  | load {k s r t} : Runs A (k s) s r t → Runs A (.load k) s r t
  | store {w k s r t} : Runs A k (Cell.put w s) r t → Runs A (.store w k) s r t
  | ask {k s r t} (x : ρ) : A x → Runs A (k x) s r t → Runs A (.ask k) s r t

variable [Cell σ ω] {A : ρ → Prop}

theorem run_runs (x : ρ) (p : Prog σ ω ρ α) (s : σ) :
    Runs (· = x) p s (p.run x s).1 (p.run x s).2 := by
  induction p generalizing s with
  | ret a => exact .ret
  | load k ih => exact .load (ih s s)
  | store w k ih => exact .store (ih _)
  | ask k ih => exact .ask x rfl (ih x s)

@[simp] theorem runs_pure {a r : α} {s t : σ} :
    Runs A (pure a : Prog σ ω ρ α) s r t ↔ r = a ∧ t = s := by
  constructor
  · intro h; cases h; exact ⟨rfl, rfl⟩
  · rintro ⟨rfl, rfl⟩; exact .ret

@[simp] theorem runs_load {s r t : σ} : Runs A (load : Prog σ ω ρ σ) s r t ↔ r = s ∧ t = s := by
  constructor
  · rintro (_ | ⟨h⟩); cases h; exact ⟨rfl, rfl⟩
  · rintro ⟨rfl, rfl⟩; exact .load .ret

@[simp] theorem runs_store {w : ω} {s t : σ} {u : Unit} :
    Runs A (store w : Prog σ ω ρ Unit) s u t ↔ t = Cell.put w s := by
  constructor
  · rintro (_ | _ | ⟨h⟩); cases h; rfl
  · rintro rfl; exact .store .ret

@[simp] theorem runs_ask {x : ρ} {s t : σ} :
    Runs A (ask : Prog σ ω ρ ρ) s x t ↔ A x ∧ t = s := by
  constructor
  · rintro (_ | _ | _ | ⟨_, hx, h⟩); cases h; exact ⟨hx, rfl⟩
  · rintro ⟨hx, rfl⟩; exact .ask x hx .ret

theorem runs_bind_intro {p : Prog σ ω ρ α} {f : α → Prog σ ω ρ β} {s t u : σ} {a : α} {r : β}
    (hp : Runs A p s a t) (hf : Runs A (f a) t r u) : Runs A (p.bind f) s r u := by
  induction hp with
  | ret => exact hf
  | load _ ih => exact .load (ih hf)
  | store _ ih => exact .store (ih hf)
  | ask x hx _ ih => exact .ask x hx (ih hf)

theorem runs_bind_elim {p : Prog σ ω ρ α} {f : α → Prog σ ω ρ β} {s u : σ} {r : β}
    (h : Runs A (p.bind f) s r u) : ∃ a t, Runs A p s a t ∧ Runs A (f a) t r u := by
  induction p generalizing s with
  | ret a => exact ⟨a, s, .ret, h⟩
  | load k ih =>
    rcases h with _ | ⟨h⟩
    obtain ⟨a, t, hp, hf⟩ := ih s h
    exact ⟨a, t, .load hp, hf⟩
  | store w k ih =>
    rcases h with _ | _ | ⟨h⟩
    obtain ⟨a, t, hp, hf⟩ := ih h
    exact ⟨a, t, .store hp, hf⟩
  | ask k ih =>
    rcases h with _ | _ | _ | ⟨x, hx, h⟩
    obtain ⟨a, t, hp, hf⟩ := ih x h
    exact ⟨a, t, .ask x hx hp, hf⟩

@[simp] theorem runs_bind {p : Prog σ ω ρ α} {f : α → Prog σ ω ρ β} {s u : σ} {r : β} :
    Runs A (p >>= f) s r u ↔ ∃ a t, Runs A p s a t ∧ Runs A (f a) t r u :=
  ⟨runs_bind_elim, fun ⟨_, _, hp, hf⟩ => runs_bind_intro hp hf⟩

/-- What is left of a program: every way to finish it is a way to execute the
whole program from the cell it started on. -/
def Rest (A : ρ → Prop) (p₀ : Prog σ ω ρ α) (s₀ : σ) (p : Prog σ ω ρ α) (s : σ) : Prop :=
  ∀ r t, Runs A p s r t → Runs A p₀ s₀ r t

theorem rest_start (p : Prog σ ω ρ α) (s : σ) : Rest A p s p s := fun _ _ h => h

theorem Rest.load {p₀ : Prog σ ω ρ α} {s₀ s : σ} {k : σ → Prog σ ω ρ α}
    (h : Rest A p₀ s₀ (.load k) s) : Rest A p₀ s₀ (k s) s := fun r t hr => h r t (.load hr)

theorem Rest.store {p₀ : Prog σ ω ρ α} {s₀ s : σ} {w : ω} {k : Prog σ ω ρ α}
    (h : Rest A p₀ s₀ (.store w k) s) : Rest A p₀ s₀ k (Cell.put w s) :=
  fun r t hr => h r t (.store hr)

theorem Rest.ask {p₀ : Prog σ ω ρ α} {s₀ s : σ} {k : ρ → Prog σ ω ρ α} (x : ρ) (hx : A x)
    (h : Rest A p₀ s₀ (.ask k) s) : Rest A p₀ s₀ (k x) s := fun r t hr => h r t (.ask x hx hr)

theorem Rest.finish {p₀ : Prog σ ω ρ α} {s₀ s : σ} {a : α}
    (h : Rest A p₀ s₀ (.ret a) s) : Runs A p₀ s₀ a s := h a s .ret

end CellProg
