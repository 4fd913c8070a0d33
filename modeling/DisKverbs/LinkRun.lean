import DisKverbs.LinkSpec
import DisKverbs.WqSpec

namespace DisKverbs

open ByteMem CellProg CircBuf StepSystem

/-- Every receive buffer is kept: none is ever used for a second receive. -/
def keepAll : Nat → Prop := fun _ => True

def LinkAct.quiet : LinkAct → Bool
  | .sq .stop | .rq .stop | .sendWrite _ _ | .recvWrite _ _ => false
  | _ => true

section

variable {cfg : LinkCfg} {s t : LinkState}

theorem wqStep_grows {cfg : WqCfg} {s t : WqState} {a : WqAct} (h : wqStep cfg s a = some t) :
    s.posted <+: t.posted := by
  obtain ⟨es, he⟩ := wqStep_posted h
  exact ⟨es, he.symm⟩

theorem linkStep_posted {a : LinkAct} (h : linkStep cfg s a = some t) :
    s.sq.posted <+: t.sq.posted ∧ s.rq.posted <+: t.rq.posted := by
  cases linkStep_move h with
  | sq hq => exact ⟨wqStep_grows hq, List.prefix_rfl⟩
  | rq _ hq => exact ⟨List.prefix_rfl, wqStep_grows hq⟩
  | receive _ _ _ hq => exact ⟨List.prefix_rfl, wqStep_grows hq⟩
  | sendWrite => exact ⟨List.prefix_rfl, List.prefix_rfl⟩
  | recvWrite => exact ⟨List.prefix_rfl, List.prefix_rfl⟩

theorem runActs_posted {as : List LinkAct} (h : runActs (linkStep cfg) s as = some t) :
    s.sq.posted <+: t.sq.posted ∧ s.rq.posted <+: t.rq.posted := by
  induction as generalizing s with
  | nil => cases Option.some.inj h; exact ⟨List.prefix_rfl, List.prefix_rfl⟩
  | cons a as ih =>
    simp only [runActs] at h
    split at h
    next u hu =>
      obtain ⟨hs, hr⟩ := linkStep_posted hu
      obtain ⟨hs', hr'⟩ := ih h
      exact ⟨hs.trans hs', hr.trans hr'⟩
    next => simp at h

theorem prefix_getElem? {α : Type} {xs ys : List α} (h : xs <+: ys) {i : Nat} {x : α}
    (hx : xs[i]? = some x) : ys[i]? = some x := by
  obtain ⟨zs, rfl⟩ := h
  rw [List.getElem?_append_left (List.getElem?_eq_some_iff.mp hx).1]
  exact hx

/-- When all buffers are kept, what is sound at the end of a run was so all along. -/
theorem LinkSound.earlier (h : LinkSound keepAll t) (hs : s.sq.posted <+: t.sq.posted)
    (hr : s.rq.posted <+: t.rq.posted) : LinkSound keepAll s := by
  refine ⟨?_, ?_, ?_, ?_⟩
  · exact fun i p hp => h.sends i p (prefix_getElem? hs hp)
  · exact fun i p hp => h.recvs i p (prefix_getElem? hr hp)
  · exact fun i p hp _ => h.nodup i p (prefix_getElem? hr hp) (.inr trivial)
  · intro i j p q hne hp hq _ _
    exact h.apart i j p q hne (prefix_getElem? hr hp) (prefix_getElem? hr hq) (.inr trivial)
      (.inr trivial)

theorem quiet_allows {a : LinkAct} (h : a.quiet = true) : s.Allows keepAll a := by
  cases a with
  | sq a => cases a <;> trivial
  | rq a => cases a <;> trivial
  | sendWrite addr v => simp [LinkAct.quiet] at h
  | recvWrite addr v => simp [LinkAct.quiet] at h

/-- A run of queue accesses keeps to the assumptions if its last state does. -/
theorem reach_quietRun {as : List LinkAct}
    (hs : Reach LinkInit (Acts (linkStep cfg) (LinkOk keepAll cfg)) s)
    (hq : ∀ a ∈ as, a.quiet = true) (h : runActs (linkStep cfg) s as = some t)
    (ht : LinkSound keepAll t) : Reach LinkInit (Acts (linkStep cfg) (LinkOk keepAll cfg)) t := by
  induction as generalizing s with
  | nil => cases Option.some.inj h; exact hs
  | cons a as ih =>
    simp only [runActs] at h
    split at h
    next u hu =>
      obtain ⟨hsp, hrp⟩ := runActs_posted h
      have hsound : ∀ v, linkStep cfg s a = some v → LinkSound keepAll v := by
        intro v hv
        cases Option.some.inj (hu.symm.trans hv)
        exact ht.earlier hsp hrp
      have hok : LinkOk keepAll cfg s a := ⟨quiet_allows (hq a (by simp)), hsound⟩
      exact ih (hs.next ⟨a, hok, hu⟩) (fun b hb => hq b (by simp [hb])) h
    next => simp at h

theorem reach_afterQuiet {as : List LinkAct}
    (hs : Reach LinkInit (Acts (linkStep cfg) (LinkOk keepAll cfg)) s)
    (hq : ∀ a ∈ as, a.quiet = true) (ht : LinkSound keepAll (afterActs (linkStep cfg) s as)) :
    Reach LinkInit (Acts (linkStep cfg) (LinkOk keepAll cfg)) (afterActs (linkStep cfg) s as) := by
  unfold afterActs at ht ⊢
  cases h : runActs (linkStep cfg) s as with
  | none => exact hs
  | some t =>
    rw [h] at ht
    exact reach_quietRun hs hq h ht

theorem linkSound_single {req : PostReq} (hf : req.Fits) (hn : req.bytes.Nodup)
    (hs : s.sq.posted.map (·.req) = [req]) (hr : s.rq.posted.map (·.req) = [req]) :
    LinkSound keepAll s := by
  have single {posted : List Posted} (h : posted.map (·.req) = [req]) {i : Nat} {p : Posted}
      (hp : posted[i]? = some p) : i = 0 ∧ p.req = req := by
    have hi : ([req] : List PostReq)[i]? = some p.req := by
      rw [← h, List.getElem?_map, hp]
      rfl
    obtain ⟨hlt, he⟩ := List.getElem?_eq_some_iff.mp hi
    have h0 : i = 0 := by simpa using hlt
    subst h0
    exact ⟨rfl, he.symm⟩
  refine ⟨?_, ?_, ?_, ?_⟩
  · exact fun i p hp => (single hs hp).2 ▸ hf
  · exact fun i p hp => (single hr hp).2 ▸ hf
  · exact fun i p hp _ => (single hr hp).2 ▸ hn
  · intro i j p q hne hp hq
    exact absurd ((single hr hp).1.trans (single hr hq).1.symm) hne

end

def twoSlotRq : WqCfg := ⟨sciLib64, twoSlots, .rq, 1, 2⟩

def twoSlotLink : LinkCfg := ⟨twoSlotSq, twoSlotRq, rfl, rfl⟩

/-- The requester's memory holds at each address its lowest byte. -/
def freshLink : LinkState := ⟨freshWq, freshWq, fun x => x.toUInt8, fun _ => 0, [], [], [], []⟩

theorem freshLink_init : LinkInit freshLink := ⟨rfl, rfl, rfl, rfl, rfl, rfl⟩

def crossingReq : PostReq := ⟨twoPageTable, crossingWr⟩

theorem crossingReq_fits : crossingReq.Fits := ⟨rfl, by decide, crossing_names⟩

/-- A receive whose first attempt fails, the send for it, and the transfer. -/
def linkActs : List LinkAct :=
  .rq (.start crossingReq) :: List.replicate 21 (.rq (.poster none)) ++
    List.replicate 9 (.rq (.worker none)) ++
    .sq (.start crossingReq) :: List.replicate 21 (.sq (.poster none)) ++
    List.replicate 8 (.sq (.worker (some 0))) ++ List.replicate 6 (.rq (.worker (some 0)))

theorem link_delivers_crossing :
    (afterActs (linkStep twoSlotLink) freshLink linkActs).delivered.length = 1 ∧
      Delivers keepAll (afterActs (linkStep twoSlotLink) freshLink linkActs) := by
  refine ⟨by decide, link_delivers keepAll twoSlotLink _ ?_⟩
  refine reach_afterQuiet (reach_start freshLink_init) (by decide) ?_
  exact linkSound_single crossingReq_fits (by decide) rfl rfl

end DisKverbs
