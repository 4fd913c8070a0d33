import DisKverbs.CellProg

namespace CellProg

variable {σ ω ρ α β : Type} [Cell σ ω]

/-- From this cell on the program makes at most `n` accesses, whatever it is answered. -/
def Prog.Within : Prog σ ω ρ α → σ → Nat → Prop
  | .ret _, _, _ => True
  | .load _, _, 0 => False
  | .load k, s, n + 1 => (k s).Within s n
  | .store _ _, _, 0 => False
  | .store w k, s, n + 1 => k.Within (Cell.put w s) n
  | .ask _, _, 0 => False
  | .ask k, s, n + 1 => ∀ x, (k x).Within s n

/-- The program makes `n` accesses, all of them loads, whatever it finds. -/
def Prog.Loads : Prog σ ω ρ α → Nat → Prop
  | .load k, n + 1 => ∀ s, (k s).Loads n
  | .ret _, 0 => True
  | _, _ => False

/-- The program makes `n` accesses, all of them stores. -/
def Prog.Stores : Prog σ ω ρ α → Nat → Prop
  | .store _ k, n + 1 => k.Stores n
  | .ret _, 0 => True
  | _, _ => False

section

variable {p : Prog σ ω ρ α} {f : α → Prog σ ω ρ β} {s : σ} {m n : Nat}

theorem Prog.Within.mono (h : p.Within s m) (hle : m ≤ n) : p.Within s n := by
  induction p generalizing s m n with
  | ret a => trivial
  | load k ih =>
    obtain ⟨m, rfl⟩ : ∃ m', m = m' + 1 := by cases m; exact h.elim; exact ⟨_, rfl⟩
    obtain ⟨n, rfl⟩ : ∃ n', n = n' + 1 := ⟨n - 1, by omega⟩
    exact ih s (m := m) h (by omega)
  | store w k ih =>
    obtain ⟨m, rfl⟩ : ∃ m', m = m' + 1 := by cases m; exact h.elim; exact ⟨_, rfl⟩
    obtain ⟨n, rfl⟩ : ∃ n', n = n' + 1 := ⟨n - 1, by omega⟩
    exact ih (m := m) h (by omega)
  | ask k ih =>
    obtain ⟨m, rfl⟩ : ∃ m', m = m' + 1 := by cases m; exact h.elim; exact ⟨_, rfl⟩
    obtain ⟨n, rfl⟩ : ∃ n', n = n' + 1 := ⟨n - 1, by omega⟩
    exact fun x => ih x (m := m) (h x) (by omega)

/-- What follows starts from a result and a cell that the first part can end with. -/
theorem within_bind (hp : p.Within s m)
    (hf : ∀ a t, Runs (fun _ => True) p s a t → (f a).Within t n) : (p >>= f).Within s (m + n) := by
  show (p.bind f).Within s (m + n)
  induction p generalizing s m with
  | ret a => exact (hf a s .ret).mono (Nat.le_add_left n m)
  | load k ih =>
    cases m with
    | zero => exact hp.elim
    | succ m =>
      rw [Nat.succ_add]
      exact ih s hp fun a t hr => hf a t (.load hr)
  | store w k ih =>
    cases m with
    | zero => exact hp.elim
    | succ m =>
      rw [Nat.succ_add]
      exact ih hp fun a t hr => hf a t (.store hr)
  | ask k ih =>
    cases m with
    | zero => exact hp.elim
    | succ m =>
      rw [Nat.succ_add]
      exact fun x => ih x (hp x) fun a t hr => hf a t (.ask x trivial hr)

theorem within_pure (a : α) : (pure a : Prog σ ω ρ α).Within s 0 := trivial

theorem within_store (w : ω) : (store w : Prog σ ω ρ Unit).Within s 1 := trivial

/-- A store in front of a program. -/
theorem within_store_bind {w : ω} {k : Unit → Prog σ ω ρ α} (h : (k ()).Within (Cell.put w s) n) :
    (store w >>= k).Within s (n + 1) := h

theorem within_load_bind {k : σ → Prog σ ω ρ α} (h : (k s).Within s n) :
    (load >>= k).Within s (n + 1) := h

theorem within_ask_bind {k : ρ → Prog σ ω ρ α} (h : ∀ x, (k x).Within s n) :
    (ask >>= k).Within s (n + 1) := h

end

end CellProg
