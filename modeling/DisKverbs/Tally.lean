import DisKverbs.ByteCount
import DisKverbs.CompletionStage
import DisKverbs.AcceptedWqe
import Mathlib.Data.List.Forall2

namespace DisKverbs

open CellProg CircBuf RingMachine StepSystem

/-- The WQE that an entry of the completion queue is for, and the bytes moved for it. -/
structure Owner where
  index : Nat
  moved : Nat
  deriving DecidableEq

/-- `owners` has one item for each entry of the completion queue, `none` for the entries
of other producers. -/
structure Tally where
  moved : Nat
  owners : List (Option Owner)

variable {ι : Type} {me : ι}

/-- Whom an entry belongs to, and which accepted WQE it reports. -/
def Owns (me : ι) (posted : List Posted) (e : Inserted ι) : Option Owner → Prop
  | none => e.producer ≠ me
  | some o => e.producer = me ∧ Reports posted o.index e.call

/-- A success is reported with the posted length, and as many bytes were moved. -/
def Delivered (posted : List Posted) (e : Inserted ι) : Option Owner → Prop
  | none => True
  | some o => e.call.status = .success → ∃ p, posted[o.index]? = some p ∧
      e.call.wqe.byteLen = p.wqe.byteLen ∧ o.moved = p.wqe.byteLen.toNat

theorem Owns.append {posted : List Posted} {e : Inserted ι} {o : Option Owner}
    (h : Owns me posted e o) (es : List Posted) : Owns me (posted ++ es) e o := by
  cases o with
  | none => exact h
  | some o => exact ⟨h.1, h.2.append es⟩

theorem Delivered.append {posted : List Posted} {e : Inserted ι} {o : Option Owner}
    (h : Delivered posted e o) (es : List Posted) : Delivered (posted ++ es) e o := by
  cases o with
  | none => trivial
  | some o =>
    intro hs
    obtain ⟨p, hp, hlen⟩ := h hs
    have hlt := (List.getElem?_eq_some_iff.mp hp).1
    exact ⟨p, by rw [List.getElem?_append_left hlt]; exact hp, hlen⟩

variable [DecidableEq ι]

def tally (me : ι) (s : PairState ι) (a : PairAct ι) (g : Tally) : Tally :=
  match a with
  | .wq a => { g with moved := movedBytes s.wq a g.moved }
  | .cq (.producer _) =>
    match s.cq.holder with
    | some (i, _, .fill _ (.ret ())) =>
      { g with
        owners := g.owners ++ [if i = me then some (.mk s.wq.retired.length g.moved) else none] }
    | _ => g
  | _ => g

abbrev TallyState (ι : Type) := PairState ι × Tally

def tallyStep (cfg : WqCfg) (r : RingSize) (me : ι) :
    TallyState ι → PairAct ι → Option (TallyState ι) := recording (pairStep cfg r me) (tally me)

def TallyInit (p : TallyState ι) : Prop := PairInit p.1 ∧ p.2 = Tally.mk 0 []

/-- The transport never delivers more than a receive asked for. -/
def TransportOk (p : TallyState ι) : PairAct ι → Prop
  | .wq a => WithinRequest p.1.wq a
  | _ => True

/-- A poll returned `wc` for the worker's WQE `i`, after the transport moved `n` bytes. -/
def Completed (p : TallyState ι) (i n : Nat) (wc : IbWc) : Prop :=
  ∃ j : Nat, (p.1.cq.polls.flatMap PollResult.wcs)[j]? = some wc ∧
    p.2.owners[j]? = some (some ⟨i, n⟩)

section

variable {cfg : WqCfg} {r : RingSize} {s t : PairState ι} {p q : TallyState ι}
  {ok : TallyState ι → PairAct ι → Prop}

/-- A worker inside its completion function stands at the slot it reports. -/
def Calling (cfg : WqCfg) (me : ι) (s : PairState ι) : Prop :=
  ∀ call, s.cq.view me = .running call → ∃ tail status,
    s.wq.worker = .complete tail status ∧ call = ⟨cfg.type, s.wq.slots tail, status⟩

theorem Calling.wq (hc : Calling cfg me s) (hr : RingInv cfg.ring DisWqe.eraseLen s.wq.ring)
    {a : WqAct} {wq : WqState} (hs : wqStep cfg s.wq a = some wq)
    (hn : ∀ out, a = .worker out → ∀ tail status, s.wq.worker ≠ .complete tail status) :
    Calling cfg me { s with wq := wq } := by
  intro call hv
  obtain ⟨tail, status, hw, rfl⟩ := hc call hv
  have hheld : s.wq.worker.holds = some tail := by rw [hw]; rfl
  cases a with
  | worker out => exact absurd hw (hn out rfl tail status)
  | start req =>
    obtain ⟨_, rfl⟩ := wqStep_start hs
    exact ⟨tail, status, hw, rfl⟩
  | poster buf =>
    have hslot := (posterStep_move hs).held_slot hr hheld
    obtain ⟨hworker, _⟩ := wqStep_other (by simp) hs
    exact ⟨tail, status, hworker.trans hw, by rw [hslot]⟩
  | stop => cases Option.some.inj hs; exact ⟨tail, status, hw, rfl⟩

theorem Calling.cq (hc : Calling cfg me s) {a : CqAct ι} {cq : CqState ι}
    (ha : ∀ call, a ≠ .call me call) (hv : ViewMove r me s.cq a cq) :
    Calling cfg me { s with cq := cq } := by
  intro call hrun
  cases hv with
  | other hview _ => exact hc call (hview.symm.trans hrun)
  | call => exact absurd rfl (ha _)
  | full _ _ hret _ => simp [hret] at hrun
  | insert _ hret _ => simp [hret] at hrun
  | unlock _ hquiet _ => simp [hquiet] at hrun

theorem reach_calling {ok : PairState ι → PairAct ι → Prop}
    (h : Reach PairInit (Acts (pairStep cfg r me) ok) s) : Calling cfg me s := by
  apply h.invariant
  · rintro s ⟨_, hcq, _⟩ call hv
    rw [hcq] at hv
    cases hv
  · rintro s t hs hc ⟨a, _, hstep⟩
    have hr := reach_wqRing (reach_pairWq hs)
    have hf := reach_lockFree (reach_pairCq hs)
    cases pairStep_move hstep with
    | wq hq hn => exact hc.wq hr hq hn
    | back _ _ hv _ =>
      intro call hrun
      have hquiet : CallView.quiet = .running call := hv.symm.trans hrun
      cases hquiet
    | @call tail status cq hw _ hq =>
      intro call hrun
      have hview := (cqStep_move hq).call_view.2.1
      cases hview.symm.trans hrun
      exact ⟨tail, status, hw, rfl⟩
    | cq ha hq => exact hc.cq ha ((cqStep_move hq).view hf)

theorem reach_tallyPair (h : Reach TallyInit (Acts (tallyStep cfg r me) ok) p) :
    Reach PairInit (Acts (pairStep cfg r me) anyAct) p.1 :=
  reach_recorded h (fun _ hi => hi.1) fun _ _ _ => trivial

theorem reach_tallyCount
    (h : Reach TallyInit (Acts (tallyStep cfg r me) TransportOk) p) :
    Reach CountInit (Acts (countStep cfg) fun p a => WithinRequest p.1 a) (p.1.wq, p.2.moved) := by
  apply h.project fun p => (p.1.wq, p.2.moved)
  · rintro ⟨s, g⟩ ⟨hi, rfl⟩
    exact ⟨hi.1, rfl⟩
  · rintro ⟨s, g⟩ ⟨t, g'⟩ _ _ ⟨a, hok, hs⟩
    obtain ⟨hs, rfl⟩ := recording_some.mp hs
    have hm := pairStep_move hs
    cases hm with
    | @wq a wq hq _ => exact .inr ⟨a, hok, recording_some.mpr ⟨hq, rfl⟩⟩
    | @back out wq tail status _ _ _ hq =>
      exact .inr ⟨.worker out, hok, recording_some.mpr ⟨hq, rfl⟩⟩
    | call => exact .inl rfl
    | cq =>
      refine .inl ?_
      simp only [tally]
      split
      next => contradiction
      next => split <;> rfl
      next => rfl

/-- A step inserts no entry, or one whose owner it records. -/
inductive TallyMove (me : ι) (p q : TallyState ι) : Prop
  | keep : q.1.cq.inserted = p.1.cq.inserted → q.2.owners = p.2.owners →
      (∃ es, q.1.wq.posted = p.1.wq.posted ++ es) → TallyMove me p q
  | insert {i call cqe} : (i = me → p.1.cq.view me = .running call) →
      q.1.cq.inserted = p.1.cq.inserted ++ [⟨i, call, cqe⟩] →
      q.2.owners =
        p.2.owners ++ [if i = me then some (.mk p.1.wq.retired.length p.2.moved) else none] →
      q.1.wq = p.1.wq → TallyMove me p q

theorem tally_fill {g : Tally} {i : ι} {call : CqeCall} {head : Nat}
    (hh : s.cq.holder = some (i, call, .fill head (.ret ()))) :
    (tally me s (.cq (.producer i)) g).owners =
      g.owners ++ [if i = me then some (.mk s.wq.retired.length g.moved) else none] := by
  simp only [tally, hh]

theorem tally_holder {g : Tally} {i : ι} {call : CqeCall} {pc : HolderPc}
    (hh : s.cq.holder = some (i, call, pc)) (hpc : ∀ head, pc ≠ .fill head (.ret ())) :
    (tally me s (.cq (.producer i)) g).owners = g.owners := by
  simp only [tally]
  split
  next he =>
    cases hh.symm.trans he
    exact absurd rfl (hpc _)
  next => rfl

theorem tallyStep_move (hc : Calling cfg me p.1) {a : PairAct ι}
    (h : tallyStep cfg r me p a = some q) : TallyMove me p q := by
  obtain ⟨s, g⟩ := p
  obtain ⟨t, g'⟩ := q
  obtain ⟨hs, rfl⟩ := recording_some.mp h
  have none : ∃ es, s.wq.posted = s.wq.posted ++ es := ⟨[], (List.append_nil _).symm⟩
  cases pairStep_move hs with
  | wq hq _ => exact .keep rfl rfl (wqStep_posted hq)
  | @back out wq _ _ _ _ _ hq => exact .keep rfl rfl (wqStep_posted (a := .worker out) hq)
  | call _ _ hq => cases cqStep_move hq; exact .keep rfl rfl none
  | cq _ hq =>
    cases cqStep_move hq with
    | @lock i call hh _ =>
      have hfree : s.cq.holder = Option.none := hh
      exact .keep rfl (by simp only [tally, hfree]) none
    | loadHead hh => exact .keep rfl (tally_holder hh (by simp)) none
    | full hh _ => exact .keep rfl (tally_holder hh (by simp)) none
    | reserve hh _ => exact .keep rfl (tally_holder hh (by simp)) none
    | load hh => exact .keep rfl (tally_holder hh (by simp)) none
    | store hh => exact .keep rfl (tally_holder hh (by simp)) none
    | ask hh => exact .keep rfl (tally_holder hh (by simp)) none
    | unlock hh => exact .keep rfl (tally_holder hh (by simp)) none
    | @insert i call head hh =>
      refine .insert ?_ rfl (tally_fill hh) rfl
      rintro rfl
      exact view_holder hh
    | _ => exact .keep rfl rfl none

/-- What is true of each entry and its owner stays so if it is true of the entry that the
worker inserts for the WQE in its hands. -/
theorem TallyMove.forall₂ {R : List Posted → Inserted ι → Option Owner → Prop}
    (hm : TallyMove me p q) (hc : Calling cfg me p.1)
    (happend : ∀ posted es e o, R posted e o → R (posted ++ es) e o)
    (hother : ∀ posted e, e.producer ≠ me → R posted e none)
    (hnew : ∀ tail status cqe, p.1.wq.worker = .complete tail status →
      R p.1.wq.posted ⟨me, ⟨cfg.type, p.1.wq.slots tail, status⟩, cqe⟩
        (some ⟨p.1.wq.retired.length, p.2.moved⟩))
    (hi : List.Forall₂ (R p.1.wq.posted) p.1.cq.inserted p.2.owners) :
    List.Forall₂ (R q.1.wq.posted) q.1.cq.inserted q.2.owners := by
  cases hm with
  | keep he ho hes =>
    obtain ⟨es, hes⟩ := hes
    rw [he, ho, hes]
    exact hi.imp fun e o h => happend _ es e o h
  | @insert i call cqe hrun he ho hwq =>
    rw [he, ho, hwq]
    refine List.rel_append hi (.cons ?_ .nil)
    by_cases hme : i = me
    · subst i
      obtain ⟨tail, status, hw, rfl⟩ := hc call (hrun rfl)
      rw [if_pos rfl]
      exact hnew tail status cqe hw
    · rw [if_neg hme]
      exact hother _ _ hme

theorem TallyMove.posted (hm : TallyMove me p q) :
    ∃ es, q.1.wq.posted = p.1.wq.posted ++ es := by
  cases hm with
  | keep _ _ hes => exact hes
  | insert _ _ _ hwq => exact ⟨[], by rw [hwq, List.append_nil]⟩

/-- A relation between entries and owners that posts keep holds in every run, when it holds of each
entry at its insertion. -/
theorem reach_forall₂ {R : List Posted → Inserted ι → Option Owner → Prop}
    (h : Reach TallyInit (Acts (tallyStep cfg r me) ok) p)
    (happend : ∀ posted es e o, R posted e o → R (posted ++ es) e o)
    (hother : ∀ posted e, e.producer ≠ me → R posted e none)
    (hnew : ∀ p, Reach TallyInit (Acts (tallyStep cfg r me) ok) p → ∀ tail status cqe,
      p.1.wq.worker = .complete tail status →
        R p.1.wq.posted ⟨me, ⟨cfg.type, p.1.wq.slots tail, status⟩, cqe⟩
          (some ⟨p.1.wq.retired.length, p.2.moved⟩)) :
    List.Forall₂ (R p.1.wq.posted) p.1.cq.inserted p.2.owners := by
  apply h.invariant
  · rintro ⟨s, g⟩ ⟨⟨_, hcq, _⟩, rfl⟩
    rw [hcq]
    exact .nil
  · rintro p q hp hi ⟨a, _, hs⟩
    have hc := reach_calling (reach_tallyPair hp)
    exact (tallyStep_move hc hs).forall₂ hc happend hother (hnew p hp) hi

theorem reach_owns (h : Reach TallyInit (Acts (tallyStep cfg r me) ok) p) :
    List.Forall₂ (Owns me p.1.wq.posted) p.1.cq.inserted p.2.owners := by
  refine reach_forall₂ (R := Owns me) h (fun _ es _ _ h => h.append es) (fun _ _ hne => hne) ?_
  intro p hp tail status cqe hw
  have hr := reach_wqRing (reach_pairWq (reach_tallyPair hp))
  have hheld : p.1.wq.worker.holds = some tail := by rw [hw]; rfl
  exact ⟨rfl, held_reports hr hheld cfg.type status⟩

theorem reach_delivered (h : Reach TallyInit (Acts (tallyStep cfg r me) TransportOk) p) :
    List.Forall₂ (Delivered p.1.wq.posted) p.1.cq.inserted p.2.owners := by
  refine reach_forall₂ (R := Delivered) h (fun _ es _ _ h => h.append es) (fun _ _ _ => trivial) ?_
  intro p hp tail status cqe hw hsucc
  have hr := reach_wqRing (reach_pairWq (reach_tallyPair hp))
  have hheld : p.1.wq.worker.holds = some tail := by rw [hw]; rfl
  obtain ⟨e, hpost, _⟩ := held_posted hr hheld
  have hlen := heldLen_posted hpost
  have hcount := reach_countInv (reach_tallyCount hp)
  simp only [CountInv, hw] at hcount
  obtain ⟨hslot, hmoved⟩ := hcount hsucc
  exact ⟨e, hpost, by rw [← hlen]; exact hslot, by rw [← hlen]; exact hmoved⟩

theorem forall₂_at {α β : Type} {R : α → β → Prop} {xs : List α} {ys : List β}
    (h : List.Forall₂ R xs ys) {j : Nat} {x : α} {y : β} (hx : xs[j]? = some x)
    (hy : ys[j]? = some y) : R x y := by
  obtain ⟨hlt, rfl⟩ := List.getElem?_eq_some_iff.mp hx
  obtain ⟨hlt', rfl⟩ := List.getElem?_eq_some_iff.mp hy
  exact h.get hlt hlt'

section

variable {i n : Nat} {wc : IbWc} (hc : Completed p i n wc)

include hc

/-- What a poll returned for a WQE is the completion of an entry that the WQE owns. -/
theorem Completed.entry (h : Reach TallyInit (Acts (tallyStep cfg r me) ok) p) :
    ∃ (j : Nat) (x : Inserted ι), p.1.cq.inserted[j]? = some x ∧
      p.2.owners[j]? = some (some ⟨i, n⟩) ∧ wc = (x.call.wqe.cqe x.call.status).wc := by
  obtain ⟨j, hwc, ho⟩ := hc
  obtain ⟨x, hx, hwc⟩ := returned_entry (reach_pairCq (reach_tallyPair h)) hwc
  exact ⟨j, x, hx, ho, hwc⟩

theorem Completed.wrId (h : Reach TallyInit (Acts (tallyStep cfg r me) ok) p) {e : Posted}
    (he : p.1.wq.posted[i]? = some e) : wc.wrId = e.req.wr.wrId.toUInt32.toUInt64 := by
  obtain ⟨j, x, hx, ho, rfl⟩ := hc.entry h
  obtain ⟨_, e', he', hk⟩ := forall₂_at (reach_owns h) hx ho
  cases he.symm.trans he'
  have hid : x.call.wqe.eraseLen.wrId = e.wqe.eraseLen.wrId := congrArg DisWqe.wrId hk
  have hruns := (reach_wqInv (reach_pairWq (reach_tallyPair h))).entries e (List.mem_of_getElem? he)
  show x.call.wqe.eraseLen.wrId.toUInt64 = _
  rw [hid, ← (postOneBody_names hruns).1]
  rfl

theorem Completed.bytes (h : Reach TallyInit (Acts (tallyStep cfg r me) TransportOk) p)
    {e : Posted} (he : p.1.wq.posted[i]? = some e) (hs : wc.status = .success) :
    n = e.req.wr.length % 2 ^ 32 ∧ wc.byteLen.toNat = n % 2 ^ 16 := by
  obtain ⟨j, x, hx, ho, rfl⟩ := hc.entry h
  obtain ⟨e', he', hlen, hmoved⟩ := forall₂_at (reach_delivered h) hx ho hs
  cases he.symm.trans he'
  have hruns := (reach_wqInv (reach_pairWq (reach_tallyPair h))).entries e (List.mem_of_getElem? he)
  have hbytes := postOneBody_byteLen hruns
  refine ⟨hmoved.trans hbytes, ?_⟩
  show x.call.wqe.byteLen.toUInt16.toUInt32.toNat = n % 2 ^ 16
  have hm : n = e.wqe.byteLen.toNat := hmoved
  rw [hlen, hm]
  simp

end

end

end DisKverbs
