import DisKverbs.RingMachine
import DisKverbs.StepSystem

namespace RingMachine

open CircBuf StepSystem

variable {σ κ : Type*} {r : RingSize} {key : σ → κ} {s : RingState σ}

theorem RingInv.step (hi : RingInv r key s) {t : RingState σ} (h : RingStep r key s t) :
    RingInv r key t := by
  cases h with
  | loadHead hp =>
    refine { hi with prod_head := ?_, prod_fill := ?_ }
    · intro h hh; cases hh; rfl
    · intro h hh; cases hh
  | full hp hs =>
    refine { hi with prod_head := ?_, prod_fill := ?_ }
    · intro h hh; cases hh
    · intro h hh; cases hh
  | @reserve g hp hs =>
    refine { hi with prod_head := ?_, prod_fill := ?_ }
    · intro h hh; cases hh
    · intro h hh
      cases hh
      have he := hi.prod_head g hp
      rw [he, hi.head_eq, hi.tail_eq, circSpace_mod r hi.taken_le hi.room] at hs
      exact ⟨he, by simp; omega⟩
  | fill v hp => exact hi.fill v hp
  | abandon hp =>
    refine { hi with prod_head := ?_, prod_fill := ?_ }
    · intro h hh; cases hh
    · intro h hh; cases hh
  | publish hp => exact hi.publish hp
  | peekHead hc =>
    refine { hi with same := ?_, cons_head := ?_, cons_hold := ?_ }
    · exact fun i v hle _ hv => hi.same i v hle (fun _ => by simp [hc, ConsPc.isHolding]) hv
    · intro h hh
      cases hh
      exact ⟨s.pub.length, hi.taken_le, le_rfl, hi.head_eq⟩
    · intro t ht; cases ht
  | empty hc hs =>
    refine { hi with same := ?_, cons_head := ?_, cons_hold := ?_ }
    · exact fun i v hle _ hv => hi.same i v hle (fun _ => by simp [hc, ConsPc.isHolding]) hv
    · intro h hh; cases hh
    · intro t ht; cases ht
  | @acquire g hc hs =>
    refine { hi with same := ?_, cons_head := ?_, cons_hold := ?_ }
    · exact fun i v hle _ hv => hi.same i v hle (fun _ => by simp [hc, ConsPc.isHolding]) hv
    · intro h hh; cases hh
    · intro t ht
      cases ht
      obtain ⟨n, hn, hb, he⟩ := hi.cons_head g hc
      rw [he, hi.tail_eq, circCnt_mod r hn (by have := hi.room; omega)] at hs
      exact ⟨rfl, by simp; omega⟩
  | touch v hc hk => exact hi.touch v hc hk
  | release hc => exact hi.release hc

/-- A full test answers yes only if all slots but one were occupied at the load of tail. -/
theorem RingInv.full_outstanding (hi : RingInv r key s) {h : Nat} (hp : s.prod = .gotHead h)
    (hs : circSpace h s.tail r.size < 1) : s.pub.length - s.taken = r.size - 1 := by
  rw [hi.prod_head h hp, hi.head_eq, hi.tail_eq, circSpace_mod r hi.taken_le hi.room] at hs
  have := hi.room
  have := hi.taken_le
  omega

/-- The occupied window is the unreleased history, in order, up to what the
consumer did to the entry it holds. -/
theorem RingInv.window_keys (hi : RingInv r key s) :
    (window s.slots s.head s.tail r.size).map key = (s.pub.drop s.taken).map key := by
  rw [hi.head_eq, hi.tail_eq, window_mod r s.slots hi.taken_le hi.room]
  apply List.ext_getElem (by simp)
  intro i h₁ h₂
  have hb : s.taken + i < s.pub.length := by simp at h₂; omega
  simpa using hi.keys (s.taken + i) _ (by omega) (List.getElem?_eq_getElem hb)

theorem RingInv.window_eq (hi : RingInv r key s) (hc : ¬ s.cons.isHolding) :
    window s.slots s.head s.tail r.size = s.pub.drop s.taken := by
  rw [hi.head_eq, hi.tail_eq, window_mod r s.slots hi.taken_le hi.room]
  apply List.ext_getElem (by simp)
  intro i h₁ h₂
  have hb : s.taken + i < s.pub.length := by simp at h₂; omega
  simpa using hi.same (s.taken + i) _ (by omega) (fun _ => hc) (List.getElem?_eq_getElem hb)

theorem reach_ringInv (h : Reach RingInit (RingStep r key) s) : RingInv r key s :=
  h.invariant (fun _ => ringInit_inv) (fun _ _ _ hi hs => hi.step hs)

end RingMachine
