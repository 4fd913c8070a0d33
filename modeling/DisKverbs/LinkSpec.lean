import DisKverbs.LinkReceive

namespace DisKverbs

open ByteMem CellProg MessageFifo RingMachine StepSystem

def LinkState.fifo (s : LinkState) : Fifo (List UInt8) :=
  ⟨s.offered, s.handed.length, s.delivered.map (·.bytes)⟩

/-- What a link guarantees in a state: receive `i` completes with the bytes of accepted
send `i`, in the buffer of receive request `i`, after that send was handed over. -/
structure Delivers (keep : Nat → Prop) (s : LinkState) : Prop where
  offers : s.offered.length = s.sq.posted.length
  handed : s.handed = s.offered.take s.handed.length
  delivered : s.delivered.map (·.bytes) = s.offered.take s.delivered.length
  causal : s.delivered.length ≤ s.rq.transfers ∧ s.rq.transfers ≤ s.handed.length
  reported : s.delivered.length = s.rq.reports ∧ ∀ status ∈ s.rq.retired, status = .success
  buffers : ∀ (i : Nat) (d : Delivery), s.delivered[i]? = some d →
    ∃ p, s.rq.posted[i]? = some p ∧ d.addrs = p.req.bytes ∧
      (keep i → p.req.bytes.map s.recvMem = d.bytes)

section

variable {keep : Nat → Prop} {cfg : LinkCfg} {s t : LinkState}

theorem SendMove.fifo (h : SendMove s t) (hd : t.delivered = s.delivered) :
    FifoStep s.fifo t.fifo := by
  cases h with
  | post ms ho hh _ =>
    simp only [LinkState.fifo, ho, hh, hd]
    exact FifoStep.offer (s := s.fifo) ms
  | send m ho hh _ hm =>
    have hlt : s.handed.length < s.offered.length := (List.getElem?_eq_some_iff.mp hm).1
    simp only [LinkState.fifo, ho, hh, hd, List.length_append, List.length_singleton]
    exact FifoStep.send (s := s.fifo) hlt

theorem RecvMove.fifo (h : RecvMove s t) (hi : SendInv s) (ho : t.offered = s.offered)
    (hh : t.handed = s.handed) : t.fifo = s.fifo ∨ FifoStep s.fifo t.fifo := by
  cases h with
  | quiet hd => exact .inl (by simp only [LinkState.fifo, ho, hh, hd])
  | deliver d hd hm =>
    have hlt : s.delivered.length < s.handed.length := (List.getElem?_eq_some_iff.mp hm).1
    have hoff : s.offered[s.delivered.length]? = some d.bytes := by
      rw [hi.order, List.getElem?_take_of_lt hlt] at hm
      exact hm
    right
    simp only [LinkState.fifo, ho, hh, hd, List.map_append, List.map_singleton]
    exact FifoStep.deliver (s := s.fifo) (by simpa [LinkState.fifo] using hlt)
      (by simpa [LinkState.fifo] using hoff)

/-- One step of a link keeps both sides and is a step of the stream or none. -/
theorem link_step (h : Reach LinkInit (Acts (linkStep cfg) (LinkOk keep cfg)) s)
    (hs : SendInv s) (hr : RecvInv keep s) {a : LinkAct} (ha : s.Allows keep a)
    (hst : linkStep cfg s a = some t) :
    SendInv t ∧ RecvInv keep t ∧ (t.fifo = s.fifo ∨ FifoStep s.fifo t.fifo) := by
  have hf := reach_linkSound h
  have hsq := reach_linkSq h
  have hrq := reach_linkRq h
  cases linkStep_move hst with
  | sq hq =>
    obtain ⟨hs', hm⟩ := hs.sq (reach_wqRing hsq) (reach_wholeInv hsq) (reach_wqInv hsq) hf hq rfl
    exact ⟨hs', hr.sq hm rfl rfl rfl, .inr (hm.fifo rfl)⟩
  | rq hmv hq =>
    obtain ⟨hr', hm⟩ :=
      hr.rq (reach_wqRing hrq) (reach_wholeInv hrq) (reach_wqInv hrq) hf hmv hq rfl
    exact ⟨⟨hs.offers, hs.count, hs.order, hs.unsent⟩, hr', hm.fifo hs rfl rfl⟩
  | receive hmv hc hl hq =>
    refine ⟨⟨hs.offers, hs.count, hs.order, hs.unsent⟩, ?_, .inl rfl⟩
    exact hr.receive (reach_wholeInv hrq) (reach_wqInv hrq) hf hmv hc hl hq
  | sendWrite =>
    exact ⟨hs.write ha, ⟨hr.channel, hr.taken, hr.count, hr.arrived, hr.buffers⟩, .inl rfl⟩
  | recvWrite => exact ⟨⟨hs.offers, hs.count, hs.order, hs.unsent⟩, hr.write ha, .inl rfl⟩

theorem reach_linkInv (h : Reach LinkInit (Acts (linkStep cfg) (LinkOk keep cfg)) s) :
    SendInv s ∧ RecvInv keep s := by
  apply h.invariant
  · rintro s ⟨hs, hr, hc, ho, hh, hd⟩
    rw [WqInit] at hs hr
    refine ⟨⟨?_, ?_, ?_, ?_⟩, ⟨?_, ?_, ?_, ?_, ?_⟩⟩ <;>
      simp [hs, hr, hc, ho, hh, hd, WqState.transfers, WqState.reports, WorkerPc.transferred,
        WorkerPc.reported]
  · rintro s t hrs ⟨hs, hr⟩ ⟨a, ⟨ha, _⟩, hst⟩
    obtain ⟨hs', hr', _⟩ := link_step hrs hs hr ha hst
    exact ⟨hs', hr'⟩

/-- A link refines a stream of messages. -/
theorem reach_linkFifo (h : Reach LinkInit (Acts (linkStep cfg) (LinkOk keep cfg)) s) :
    Reach FifoInit FifoStep s.fifo := by
  apply h.project LinkState.fifo
  · rintro s ⟨_, _, _, ho, hh, hd⟩
    simp [FifoInit, LinkState.fifo, ho, hh, hd]
  · rintro s t hrs _ ⟨a, ⟨ha, _⟩, hst⟩
    obtain ⟨hs, hr⟩ := reach_linkInv hrs
    exact (link_step hrs hs hr ha hst).2.2

/-- Every receive that completes holds the bytes of the send of its turn, whatever the
order of the steps and however often a transport call fails. -/
theorem link_delivers (keep : Nat → Prop) (cfg : LinkCfg) (s : LinkState)
    (h : Reach LinkInit (Acts (linkStep cfg) (LinkOk keep cfg)) s) : Delivers keep s := by
  obtain ⟨hs, hr⟩ := reach_linkInv h
  have hfifo := reach_fifoInv (reach_linkFifo h)
  have hwhole := reach_wholeInv (reach_linkRq h)
  refine ⟨hs.offers, hs.order, ?_, ⟨hr.delivered_le, hr.taken⟩, ⟨hr.count, hwhole.done⟩, ?_⟩
  · simpa [LinkState.fifo] using hfifo.order
  · intro i d hd
    have hlt : i < s.delivered.length := delivered_lt hd
    obtain ⟨hm, p, hp, he⟩ := hr.buffers i d hd
    refine ⟨p, hp, he, fun hk => ?_⟩
    have ha := hr.arrived i p (by have := hr.delivered_le; omega) (.inr hk) hp
    exact Option.some.inj (ha.symm.trans hm)

end

end DisKverbs
