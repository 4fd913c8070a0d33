import DisKverbs.StepSystem
import Mathlib.Data.List.Basic

namespace MessageFifo

open StepSystem

/-- A stream of messages from one sender to one receiver: what was offered, how much of it
was handed to the channel, and what came out. -/
structure Fifo (M : Type*) where
  offered : List M
  sent : Nat
  delivered : List M

variable {M : Type*}

/-- Messages are offered at any time, sent in the order of the offers and delivered in the
order of the sends. -/
inductive FifoStep (s : Fifo M) : Fifo M → Prop
  | offer (ms : List M) : FifoStep s { s with offered := s.offered ++ ms }
  | send : s.sent < s.offered.length → FifoStep s { s with sent := s.sent + 1 }
  | deliver {m : M} : s.delivered.length < s.sent → s.offered[s.delivered.length]? = some m →
      FifoStep s { s with delivered := s.delivered ++ [m] }

def FifoInit (s : Fifo M) : Prop := s = ⟨[], 0, []⟩

/-- Nothing is delivered twice, skipped, changed or delivered before it was sent. -/
structure FifoInv (s : Fifo M) : Prop where
  order : s.delivered = s.offered.take s.delivered.length
  causal : s.delivered.length ≤ s.sent
  offers : s.sent ≤ s.offered.length

theorem take_snoc {xs ys : List M} {m : M} (h : ys = xs.take ys.length)
    (hm : xs[ys.length]? = some m) : ys ++ [m] = xs.take (ys ++ [m]).length := by
  obtain ⟨hi, rfl⟩ := List.getElem?_eq_some_iff.mp hm
  rw [List.length_append, List.length_singleton, List.take_add_one, hm, ← h]
  rfl

theorem take_grow {xs ys : List M} (h : ys = xs.take ys.length) (hl : ys.length ≤ xs.length)
    (zs : List M) : ys = (xs ++ zs).take ys.length := by
  rw [List.take_append_of_le_length hl]
  exact h

theorem FifoInv.step {s t : Fifo M} (hv : FifoInv s) (h : FifoStep s t) : FifoInv t := by
  have hc := hv.causal
  have ho := hv.offers
  cases h with
  | offer ms =>
    refine ⟨take_grow hv.order (by omega) ms, hc, ?_⟩
    simp only [List.length_append]
    omega
  | send hlt => exact ⟨hv.order, by simp only; omega, hlt⟩
  | deliver hlt hm =>
    refine ⟨take_snoc hv.order hm, ?_, ho⟩
    simp only [List.length_append, List.length_singleton]
    omega

theorem reach_fifoInv {s : Fifo M} (h : Reach FifoInit FifoStep s) : FifoInv s := by
  apply h.invariant
  · rintro s rfl
    exact ⟨rfl, Nat.le_refl _, Nat.le_refl _⟩
  · exact fun s t _ hv hs => hv.step hs

end MessageFifo
