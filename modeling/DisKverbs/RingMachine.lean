import DisKverbs.CircBuf
import Mathlib.Logic.Function.Basic

namespace RingMachine

open CircBuf

inductive ProdPc
  | idle
  | gotHead (head : Nat)
  | filling (head : Nat)

inductive ConsPc
  | idle
  | gotHead (head : Nat)
  | holding (tail : Nat)

/-- A ring with one producer and one consumer. `pub` is the history of the
published entries, `taken` counts the released ones. -/
structure RingState (σ : Type*) where
  head : Nat
  tail : Nat
  slots : Nat → σ
  prod : ProdPc
  cons : ConsPc
  pub : List σ
  taken : Nat

variable {σ κ : Type*}

/-- One atomic access of either side. The consumer may change the entry it holds
as long as its `key` stays. -/
inductive RingStep (r : RingSize) (key : σ → κ) : RingState σ → RingState σ → Prop
  | loadHead {s} : s.prod = .idle → RingStep r key s { s with prod := .gotHead s.head }
  | full {s h} : s.prod = .gotHead h → circSpace h s.tail r.size < 1 →
      RingStep r key s { s with prod := .idle }
  | reserve {s h} : s.prod = .gotHead h → ¬ circSpace h s.tail r.size < 1 →
      RingStep r key s { s with prod := .filling h }
  | fill {s h} (v : σ) : s.prod = .filling h →
      RingStep r key s { s with slots := Function.update s.slots h v }
  | abandon {s h} : s.prod = .filling h → RingStep r key s { s with prod := .idle }
  | publish {s h} : s.prod = .filling h →
      RingStep r key s { s with
        head := circNext h r.size, prod := .idle, pub := s.pub ++ [s.slots h] }
  | peekHead {s} : s.cons = .idle → RingStep r key s { s with cons := .gotHead s.head }
  | empty {s h} : s.cons = .gotHead h → circCnt h s.tail r.size < 1 →
      RingStep r key s { s with cons := .idle }
  | acquire {s h} : s.cons = .gotHead h → ¬ circCnt h s.tail r.size < 1 →
      RingStep r key s { s with cons := .holding s.tail }
  | touch {s t} (v : σ) : s.cons = .holding t → key v = key (s.slots t) →
      RingStep r key s { s with slots := Function.update s.slots t v }
  | release {s t} : s.cons = .holding t →
      RingStep r key s { s with tail := circNext t r.size, cons := .idle, taken := s.taken + 1 }

def ConsPc.isHolding : ConsPc → Prop
  | .holding _ => True
  | _ => False

structure RingInv (r : RingSize) (key : σ → κ) (s : RingState σ) : Prop where
  taken_le : s.taken ≤ s.pub.length
  room : s.pub.length < s.taken + r.size
  head_eq : s.head = s.pub.length % r.size
  tail_eq : s.tail = s.taken % r.size
  keys : ∀ i v, s.taken ≤ i → s.pub[i]? = some v → key (s.slots (i % r.size)) = key v
  same : ∀ i v, s.taken ≤ i → (i = s.taken → ¬ s.cons.isHolding) → s.pub[i]? = some v →
    s.slots (i % r.size) = v
  prod_head : ∀ h, s.prod = .gotHead h → h = s.head
  prod_fill : ∀ h, s.prod = .filling h → h = s.head ∧ s.pub.length + 1 < s.taken + r.size
  cons_head : ∀ h, s.cons = .gotHead h →
    ∃ n, s.taken ≤ n ∧ n ≤ s.pub.length ∧ h = n % r.size
  cons_hold : ∀ t, s.cons = .holding t → t = s.tail ∧ s.taken < s.pub.length

def RingInit (s : RingState σ) : Prop :=
  s.head = 0 ∧ s.tail = 0 ∧ s.prod = .idle ∧ s.cons = .idle ∧ s.pub = [] ∧ s.taken = 0

theorem ringInit_inv {r : RingSize} {key : σ → κ} {s : RingState σ} (h : RingInit s) :
    RingInv r key s := by
  obtain ⟨hh, ht, hp, hc, hb, hn⟩ := h
  have := r.size_pos
  refine ⟨?_, ?_, ?_, ?_, ?_, ?_, ?_, ?_, ?_, ?_⟩ <;> simp_all

section

variable {r : RingSize} {key : σ → κ} {s : RingState σ}

theorem pub_lt {i : Nat} {v : σ} (hv : s.pub[i]? = some v) : i < s.pub.length :=
  (List.getElem?_eq_some_iff.mp hv).1

theorem RingInv.fill_slot_free (hi : RingInv r key s) {h i : Nat} (hp : s.prod = .filling h)
    (hle : s.taken ≤ i) (hlt : i < s.pub.length) : i % r.size ≠ h := by
  obtain ⟨he, hr⟩ := hi.prod_fill h hp
  rw [he, hi.head_eq]
  exact slot_ne r hlt (by omega)

theorem RingInv.fill (hi : RingInv r key s) {h : Nat} (v : σ) (hp : s.prod = .filling h) :
    RingInv r key { s with slots := Function.update s.slots h v } := by
  refine { hi with keys := ?_, same := ?_ }
  · intro i w hle hw
    have hne := hi.fill_slot_free hp hle (pub_lt hw)
    exact (congrArg key (Function.update_of_ne hne _ _)).trans (hi.keys i w hle hw)
  · intro i w hle hc hw
    have hne := hi.fill_slot_free hp hle (pub_lt hw)
    exact (Function.update_of_ne hne _ _).trans (hi.same i w hle hc hw)

theorem RingInv.publish (hi : RingInv r key s) {h : Nat} (hp : s.prod = .filling h) :
    RingInv r key { s with
      head := circNext h r.size, prod := .idle, pub := s.pub ++ [s.slots h] } := by
  obtain ⟨he, hr⟩ := hi.prod_fill h hp
  have hslot : h = s.pub.length % r.size := he.trans hi.head_eq
  have entry : ∀ i v, (s.pub ++ [s.slots h])[i]? = some v →
      s.pub[i]? = some v ∨ (i = s.pub.length ∧ v = s.slots (i % r.size)) := by
    intro i v hv
    rcases Nat.lt_trichotomy i s.pub.length with hlt | rfl | hgt
    · exact .inl (by simpa [List.getElem?_append_left hlt] using hv)
    · exact .inr ⟨rfl, by simpa [← hslot] using hv.symm⟩
    · simp [List.getElem?_append_right hgt.le, show i - s.pub.length ≠ 0 by omega] at hv
  refine { hi with taken_le := ?_, room := ?_, head_eq := ?_, keys := ?_, same := ?_,
                   prod_head := ?_, prod_fill := ?_, cons_head := ?_, cons_hold := ?_ }
  · simp; have := hi.taken_le; omega
  · simpa using hr
  · simp [hslot, circNext_mod]
  · intro i v hle hv
    rcases entry i v hv with hv | ⟨_, rfl⟩
    · exact hi.keys i v hle hv
    · rfl
  · intro i v hle hc hv
    rcases entry i v hv with hv | ⟨_, rfl⟩
    · exact hi.same i v hle hc hv
    · rfl
  · intro h hh; cases hh
  · intro h hh; cases hh
  · intro g hg
    obtain ⟨n, hn, hb, he⟩ := hi.cons_head g hg
    exact ⟨n, hn, by simp; omega, he⟩
  · intro t ht
    obtain ⟨he, hb⟩ := hi.cons_hold t ht
    exact ⟨he, by simp; omega⟩

theorem RingInv.touch (hi : RingInv r key s) {t : Nat} (v : σ) (hc : s.cons = .holding t)
    (hk : key v = key (s.slots t)) :
    RingInv r key { s with slots := Function.update s.slots t v } := by
  obtain ⟨ht, hlt⟩ := hi.cons_hold t hc
  have hslot : t = s.taken % r.size := ht.trans hi.tail_eq
  have other : ∀ i, s.taken ≤ i → i ≠ s.taken → i < s.pub.length → i % r.size ≠ t := by
    intro i hle hne hb
    rw [hslot]
    have := hi.room
    exact (slot_ne r (by omega) (by omega)).symm
  refine { hi with keys := ?_, same := ?_ }
  · intro i w hle hw
    by_cases he : i = s.taken
    · subst he
      simp only [← hslot, Function.update_self]
      rw [hk, hslot]
      exact hi.keys _ w hle hw
    · have hne := other i hle he (pub_lt hw)
      exact (congrArg key (Function.update_of_ne hne _ _)).trans (hi.keys i w hle hw)
  · intro i w hle hh hw
    have he : i ≠ s.taken := fun he => hh he (by simp [hc, ConsPc.isHolding])
    have hne := other i hle he (pub_lt hw)
    exact (Function.update_of_ne hne _ _).trans (hi.same i w hle (fun e => absurd e he) hw)

theorem RingInv.release (hi : RingInv r key s) {t : Nat} (hc : s.cons = .holding t) :
    RingInv r key { s with
      tail := circNext t r.size, cons := .idle, taken := s.taken + 1 } := by
  obtain ⟨ht, hlt⟩ := hi.cons_hold t hc
  refine { hi with taken_le := hlt, room := ?_, tail_eq := ?_, keys := ?_, same := ?_,
                   prod_fill := ?_, cons_head := ?_, cons_hold := ?_ }
  · have := hi.room; simp; omega
  · simp [ht.trans hi.tail_eq, circNext_mod]
  · exact fun i v hle hv => hi.keys i v (by simp at hle; omega) hv
  · intro i v hle _ hv
    simp at hle
    exact hi.same i v (by omega) (by omega) hv
  · intro h hp
    obtain ⟨he, hr⟩ := hi.prod_fill h hp
    exact ⟨he, by simp; omega⟩
  · intro h hh; cases hh
  · intro h hh; cases hh

end

end RingMachine
