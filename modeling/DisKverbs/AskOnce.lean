import DisKverbs.CellProg

namespace CellProg

variable {σ ω ρ α β : Type} [Cell σ ω]

/-- The program asks for nothing from this cell on, and ends as `P` says. -/
def Prog.Yields (P : α → σ → Prop) : Prog σ ω ρ α → σ → Prop
  | .ret a, s => P a s
  | .load k, s => (k s).Yields P s
  | .store w k, s => k.Yields P (Cell.put w s)
  | .ask _, _ => False

/-- The program asks once at most, and its result is one that `P` admits for the answer. -/
def Prog.AsksOnce (P : ρ → α → Prop) : Prog σ ω ρ α → σ → Prop
  | .ret _, _ => True
  | .load k, s => (k s).AsksOnce P s
  | .store w k, s => k.AsksOnce P (Cell.put w s)
  | .ask k, s => ∀ x, (k x).Yields (fun a _ => P x a) s

/-- The program asks for nothing and no store of it breaks `I`. -/
def Prog.Quiet (I : σ → Prop) : Prog σ ω ρ α → Prop
  | .ret _ => True
  | .load k => ∀ s, (k s).Quiet I
  | .store w k => (∀ s, I s → I (Cell.put w s)) ∧ k.Quiet I
  | .ask _ => False

/-- No store of the program breaks `I`, as long as the answers are out of `A`. -/
def Prog.Keeps (A : ρ → Prop) (I : σ → Prop) : Prog σ ω ρ α → Prop
  | .ret _ => True
  | .load k => ∀ s, (k s).Keeps A I
  | .store w k => (∀ s, I s → I (Cell.put w s)) ∧ k.Keeps A I
  | .ask k => ∀ x, A x → (k x).Keeps A I

section

variable {p : Prog σ ω ρ α} {f : α → Prog σ ω ρ β} {s : σ}

theorem yields_bind {P : β → σ → Prop} {Q : α → σ → Prop} (hp : p.Yields Q s)
    (hf : ∀ a t, Q a t → (f a).Yields P t) : (p >>= f).Yields P s := by
  show (p.bind f).Yields P s
  induction p generalizing s with
  | ret a => exact hf a s hp
  | load k ih => exact ih s hp
  | store w k ih => exact ih hp
  | ask k ih => exact hp.elim

theorem Prog.Yields.mono {P Q : α → σ → Prop} (hp : p.Yields P s)
    (h : ∀ a t, P a t → Q a t) : p.Yields Q s := by
  induction p generalizing s with
  | ret a => exact h a s hp
  | load k ih => exact ih s hp
  | store w k ih => exact ih hp
  | ask k ih => exact hp.elim

theorem Prog.Yields.result {P : α → σ → Prop} (hp : p.Yields P s) : ∃ a t, P a t := by
  induction p generalizing s with
  | ret a => exact ⟨a, s, hp⟩
  | load k ih => exact ih s hp
  | store w k ih => exact ih hp
  | ask k ih => exact hp.elim

/-- What holds of every execution holds of the one of a program that asks for nothing. -/
theorem yields_runs {A : ρ → Prop} {P Q : α → σ → Prop} (hp : p.Yields Q s)
    (hr : ∀ a t, Runs A p s a t → P a t) : p.Yields P s := by
  induction p generalizing s with
  | ret a => exact hr a s .ret
  | load k ih => exact ih s hp fun a t h => hr a t (.load h)
  | store w k ih => exact ih hp fun a t h => hr a t (.store h)
  | ask k ih => exact hp.elim

theorem asksOnce_of_yields {P : ρ → α → Prop} {Q : α → σ → Prop} (hp : p.Yields Q s) :
    p.AsksOnce P s := by
  induction p generalizing s with
  | ret a => trivial
  | load k ih => exact ih s hp
  | store w k ih => exact ih hp
  | ask k ih => exact hp.elim

theorem asksOnce_bind_yields {P : ρ → β → Prop} {Q : α → σ → Prop} (hp : p.Yields Q s)
    (hf : ∀ a t, Q a t → (f a).AsksOnce P t) : (p >>= f).AsksOnce P s := by
  show (p.bind f).AsksOnce P s
  induction p generalizing s with
  | ret a => exact hf a s hp
  | load k ih => exact ih s hp
  | store w k ih => exact ih hp
  | ask k ih => exact hp.elim

theorem asksOnce_bind {P : ρ → β → Prop} {Q : ρ → α → Prop} (hp : p.AsksOnce Q s)
    (hf : ∀ a t, (f a).AsksOnce P t)
    (hq : ∀ x a t, Q x a → (f a).Yields (fun b _ => P x b) t) : (p >>= f).AsksOnce P s := by
  show (p.bind f).AsksOnce P s
  induction p generalizing s with
  | ret a => exact hf a s
  | load k ih => exact ih s hp
  | store w k ih => exact ih hp
  | ask k ih => exact fun x => yields_bind (hp x) fun a t => hq x a t

variable {A : ρ → Prop} {I : σ → Prop}

theorem quiet_bind (hp : p.Quiet I) (hf : ∀ a, (f a).Quiet I) : (p >>= f).Quiet I := by
  show (p.bind f).Quiet I
  induction p with
  | ret a => exact hf a
  | load k ih => exact fun s => ih s (hp s)
  | store w k ih => exact ⟨hp.1, ih hp.2⟩
  | ask k ih => exact hp.elim

theorem Prog.Quiet.yields (hp : p.Quiet I) (s : σ) : p.Yields (fun _ _ => True) s := by
  induction p generalizing s with
  | ret a => trivial
  | load k ih => exact ih s (hp s) s
  | store w k ih => exact ih hp.2 _
  | ask k ih => exact hp.elim

theorem keeps_bind (hp : p.Keeps A I) (hf : ∀ a, (f a).Keeps A I) : (p >>= f).Keeps A I := by
  show (p.bind f).Keeps A I
  induction p with
  | ret a => exact hf a
  | load k ih => exact fun s => ih s (hp s)
  | store w k ih => exact ⟨hp.1, ih hp.2⟩
  | ask k ih => exact fun x hx => ih x (hp x hx)

theorem Prog.Quiet.keeps (hp : p.Quiet I) : p.Keeps A I := by
  induction p with
  | ret a => trivial
  | load k ih => exact fun s => ih s (hp s)
  | store w k ih => exact ⟨hp.1, ih hp.2⟩
  | ask k ih => exact hp.elim

end

end CellProg
