import DisKverbs.LinkMoves
import DisKverbs.MessageFifo

namespace DisKverbs

open ByteMem CellProg MessageFifo RingMachine StepSystem

/-- The requester's side: what was handed over are the oldest accepted sends, and the
others still hold what they held when they were accepted. -/
structure SendInv (s : LinkState) : Prop where
  offers : s.offered.length = s.sq.posted.length
  count : s.handed.length = s.sq.transfers
  order : s.handed = s.offered.take s.handed.length
  unsent : ∀ (i : Nat) (p : Posted), s.sq.posted[i]? = some p → s.handed.length ≤ i →
    s.offered[i]? = some (p.req.bytes.map s.sendMem)

/-- The slot in a worker's hands carries the message of the oldest WQE. -/
theorem held_message {cfg : WqCfg} {s : WqState} (hv : WholeInv s) (hi : WqInv cfg s)
    (hf : ∀ (i : Nat) (p : Posted), s.posted[i]? = some p → p.req.Fits) {tail : Nat}
    (hw : s.worker.holds = some tail) :
    ∃ p, s.posted[s.retired.length]? = some p ∧ (s.slots tail).msgBytes = p.req.bytes ∧
      (s.slots tail).byteLen.toNat = p.req.bytes.length := by
  obtain ⟨p, hp, he⟩ := Option.map_eq_some_iff.mp (hv.slot tail hw)
  have hr := hi.entries p (List.mem_of_getElem? hp)
  have hfit := hf _ p hp
  refine ⟨p, hp, ?_, ?_⟩
  · rw [← he]
    exact posted_message hfit hr
  · rw [← he]
    exact posted_byteLen hfit hr

section

variable {keep : Nat → Prop} {cfg : LinkCfg} {s t : LinkState}

theorem sent_none {a : WqAct} (h : s.sq.moving a = none) : s.sent a = [] := by
  rw [LinkState.sent, h]

theorem accepted_eq {sq : WqState} {es : List Posted} (h : sq.posted = s.sq.posted ++ es) :
    s.accepted sq = es.map fun p => p.req.bytes.map s.sendMem := by
  rw [LinkState.accepted, h, List.drop_left]

theorem transfers_le {cfg : WqCfg} {s : WqState} (hr : RingInv cfg.ring DisWqe.eraseLen s.ring) :
    s.transfers ≤ s.posted.length := by
  refine count_le hr ?_ ?_
  · cases s.worker <;> simp [WorkerPc.transferred]
  · intro hw
    cases hp : s.worker <;> first | rfl | simp [hp, WorkerPc.holds, WorkerPc.consumes] at hw

theorem SendInv.post (hi : SendInv s) (channel : List (List UInt8)) (hle : s.sq.transfers ≤ s.sq.posted.length) {sq : WqState}
    {es : List Posted} (hp : sq.posted = s.sq.posted ++ es) (ht : sq.transfers = s.sq.transfers) :
    SendInv { s with
      sq := sq
      channel := channel
      offered := s.offered ++ es.map fun p => p.req.bytes.map s.sendMem } := by
  have hlen : s.handed.length ≤ s.offered.length := by
    have := hi.count
    have := hi.offers
    omega
  refine ⟨?_, hi.count.trans ht.symm, take_grow hi.order hlen _, ?_⟩
  · simp only [hp, List.length_append, List.length_map, hi.offers]
  · intro i p hpi hh
    simp only [hp] at hpi
    rcases Nat.lt_or_ge i s.sq.posted.length with hlt | hge
    · rw [List.getElem?_append_left hlt] at hpi
      rw [List.getElem?_append_left (by have := hi.offers; omega)]
      exact hi.unsent i p hpi hh
    · rw [List.getElem?_append_right hge] at hpi
      rw [List.getElem?_append_right (by have := hi.offers; omega), hi.offers,
        List.getElem?_map, hpi]
      rfl

/-- The message of a successful send call is the oldest offer that was not sent yet. -/
theorem SendInv.transfer (hi : SendInv s) (channel : List (List UInt8)) {sq : WqState} {p : Posted}
    (hp : s.sq.posted[s.handed.length]? = some p) (hs : sq.posted = s.sq.posted)
    (ht : sq.transfers = s.sq.transfers + 1) :
    s.offered[s.handed.length]? = some (p.req.bytes.map s.sendMem) ∧
      SendInv { s with
        sq := sq
        channel := channel
        handed := s.handed ++ [p.req.bytes.map s.sendMem] } := by
  have hm := hi.unsent _ p hp (Nat.le_refl _)
  refine ⟨hm, hi.offers.trans (by rw [hs]), ?_, take_snoc hi.order hm, ?_⟩
  · simp only [List.length_append, List.length_singleton, hi.count, ht]
  · intro i q hq hh
    simp only [List.length_append, List.length_singleton] at hh
    exact hi.unsent i q (by rw [← hs]; exact hq) (by omega)

/-- A step of the requester offers its new posts and hands over at most its oldest offer. -/
inductive SendMove (s t : LinkState) : Prop
  | post (ms : List (List UInt8)) : t.offered = s.offered ++ ms → t.handed = s.handed →
      t.channel = s.channel → SendMove s t
  | send (m : List UInt8) : t.offered = s.offered → t.handed = s.handed ++ [m] →
      t.channel = s.channel ++ [m] → s.offered[s.handed.length]? = some m → SendMove s t

theorem SendInv.sq (hi : SendInv s) (hr : RingInv cfg.sq.ring DisWqe.eraseLen s.sq.ring)
    (hv : WholeInv s.sq) (hq : WqInv cfg.sq s.sq) (hf : LinkSound keep s) {a : WqAct} {sq : WqState}
    (h : wqStep cfg.sq s.sq a = some sq) {u : LinkState}
    (hu : u = { s with
      sq := sq
      channel := s.channel ++ s.sent a
      offered := s.offered ++ s.accepted sq
      handed := s.handed ++ s.sent a }) : SendInv u ∧ SendMove s u := by
  have hle := transfers_le hr
  have stay (es : List Posted) (hm : s.sq.moving a = none) (hp : sq.posted = s.sq.posted ++ es)
      (ht : sq.transfers = s.sq.transfers) : SendInv u ∧ SendMove s u := by
    rw [sent_none hm, accepted_eq hp, List.append_nil, List.append_nil] at hu
    rw [hu]
    exact ⟨hi.post s.channel hle hp ht, .post _ rfl rfl rfl⟩
  cases wqStep_progress hv h with
  | post es hm _ hp ht _ => exact stay es hm hp ht
  | report tail hm _ _ _ hp ht _ => exact stay [] hm (by rw [hp, List.append_nil]) ht
  | transfer tail hm _ hw hret hp ht _ =>
    obtain ⟨p, hpo, hb, _⟩ := held_message hv hq hf.sends hw
    have hpo' : s.sq.posted[s.handed.length]? = some p := by rw [hi.count, hret]; exact hpo
    have hsent : s.sent a = [p.req.bytes.map s.sendMem] := by simp only [LinkState.sent, hm, hb]
    have hacc : s.accepted sq = [] := accepted_eq (by rw [hp, List.append_nil])
    obtain ⟨hmsg, hnext⟩ := hi.transfer (s.channel ++ [p.req.bytes.map s.sendMem]) hpo' hp ht
    rw [hsent, hacc, List.append_nil] at hu
    rw [hu]
    exact ⟨hnext, .send _ rfl rfl rfl hmsg⟩

theorem SendInv.write (hi : SendInv s) {addr : UInt64} {v : UInt8}
    (ha : s.Allows keep (.sendWrite addr v)) :
    SendInv { s with sendMem := Function.update s.sendMem addr v } := by
  refine ⟨hi.offers, hi.count, hi.order, fun i p hp hh => ?_⟩
  rw [map_update_other (ha i p hp hh)]
  exact hi.unsent i p hp hh

end

end DisKverbs
