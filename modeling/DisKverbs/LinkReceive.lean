import DisKverbs.LinkSend

namespace DisKverbs

open ByteMem CellProg MessageFifo RingMachine StepSystem

/-- The responder's side: a receive buffer in use holds the message that arrived in it, and
every completed receive brought the message of its turn. -/
structure RecvInv (keep : Nat → Prop) (s : LinkState) : Prop where
  channel : s.channel = s.handed.drop s.rq.transfers
  taken : s.rq.transfers ≤ s.handed.length
  count : s.delivered.length = s.rq.reports
  arrived : ∀ (i : Nat) (p : Posted), i < s.rq.transfers → s.inUse keep i →
    s.rq.posted[i]? = some p → s.handed[i]? = some (p.req.bytes.map s.recvMem)
  buffers : ∀ (i : Nat) (d : Delivery), s.delivered[i]? = some d →
    s.handed[i]? = some d.bytes ∧ ∃ p, s.rq.posted[i]? = some p ∧ d.addrs = p.req.bytes

inductive RecvMove (s t : LinkState) : Prop
  | quiet : t.delivered = s.delivered → RecvMove s t
  | deliver (d : Delivery) : t.delivered = s.delivered ++ [d] →
      s.handed[s.delivered.length]? = some d.bytes → RecvMove s t

section

variable {keep : Nat → Prop} {cfg : LinkCfg} {s t : LinkState}

theorem RecvInv.delivered_le (hi : RecvInv keep s) : s.delivered.length ≤ s.rq.transfers := by
  have := hi.count
  have := reports_le s.rq
  omega

theorem delivered_lt {i : Nat} {d : Delivery} (h : s.delivered[i]? = some d) :
    i < s.delivered.length := (List.getElem?_eq_some_iff.mp h).1

/-- The requester adds to what is under way, behind what the responder has still to take. -/
theorem RecvInv.sq (hi : RecvInv keep s) (hm : SendMove s t) (hr : t.rq = s.rq)
    (hmem : t.recvMem = s.recvMem) (hd : t.delivered = s.delivered) : RecvInv keep t := by
  obtain ⟨hc, ht, hn, ha, hb⟩ := hi
  have hdt := reports_le s.rq
  cases hm with
  | post ms ho hh hch =>
    refine ⟨by rw [hch, hh, hr, hc], by rw [hh, hr]; exact ht, by rw [hd, hr]; exact hn, ?_, ?_⟩
    · intro i p hlt hu hp
      rw [LinkState.inUse, hd] at hu
      rw [hr] at hlt hp
      rw [hh, hmem]
      exact ha i p hlt hu hp
    · intro i d hi
      rw [hd] at hi
      rw [hh, hr]
      exact hb i d hi
  | send m ho hh hch _ =>
    refine ⟨?_, ?_, by rw [hd, hr]; exact hn, ?_, ?_⟩
    · rw [hch, hh, hr, hc, List.drop_append_of_le_length ht]
    · rw [hh, hr, List.length_append]
      omega
    · intro i p hlt hu hp
      rw [LinkState.inUse, hd] at hu
      rw [hr] at hlt hp
      rw [hh, hmem, List.getElem?_append_left (by omega)]
      exact ha i p hlt hu hp
    · intro i d hi
      rw [hd] at hi
      have hlt := delivered_lt hi
      rw [hh, hr, List.getElem?_append_left (by omega)]
      exact hb i d hi

theorem RecvInv.post (hi : RecvInv keep s) (hle : s.rq.transfers ≤ s.rq.posted.length)
    {rq : WqState} {es : List Posted} (hp : rq.posted = s.rq.posted ++ es)
    (ht : rq.transfers = s.rq.transfers) (hr : rq.reports = s.rq.reports) :
    RecvInv keep { s with rq := rq } := by
  have hdl := hi.delivered_le
  refine ⟨?_, ?_, hi.count.trans hr.symm, ?_, ?_⟩
  · simp only [ht]
    exact hi.channel
  · simp only [ht]
    exact hi.taken
  · intro i p hlt hu hpi
    simp only [ht] at hlt
    simp only [hp] at hpi
    rw [List.getElem?_append_left (by omega)] at hpi
    exact hi.arrived i p hlt hu hpi
  · intro i d hd
    have hlt : i < s.delivered.length := delivered_lt hd
    obtain ⟨hm, p, hpi, he⟩ := hi.buffers i d hd
    refine ⟨hm, p, ?_, he⟩
    simp only [hp]
    rw [List.getElem?_append_left (by omega)]
    exact hpi

/-- A receive completes with the message in its buffer, which is the next one. -/
theorem RecvInv.report (hi : RecvInv keep s) {rq : WqState} {p : Posted}
    (hpi : s.rq.posted[s.delivered.length]? = some p) (hp : rq.posted = s.rq.posted)
    (ht : rq.transfers = s.rq.transfers) (hr : rq.reports = s.rq.reports + 1) :
    s.handed[s.delivered.length]? = some (p.req.bytes.map s.recvMem) ∧
      RecvInv keep { s with
        rq := rq
        delivered := s.delivered ++ [⟨p.req.bytes, p.req.bytes.map s.recvMem⟩] } := by
  have hlt : s.delivered.length < s.rq.transfers := by
    have := hi.count
    have := reports_le rq
    omega
  have hnext := hi.arrived _ p hlt (.inl (Nat.le_refl _)) hpi
  refine ⟨hnext, ?_, ?_, ?_, ?_, ?_⟩
  · simp only [ht]
    exact hi.channel
  · simp only [ht]
    exact hi.taken
  · simp only [List.length_append, List.length_singleton, hi.count, hr]
  · intro i q hli hu hq
    have hu' : s.inUse keep i := by
      rcases hu with hu | hk
      · simp only [List.length_append, List.length_singleton] at hu
        exact .inl (by omega)
      · exact .inr hk
    exact hi.arrived i q (by rw [← ht]; exact hli) hu' (by rw [← hp]; exact hq)
  · intro i d hd
    simp only at hd
    rcases Nat.lt_or_ge i s.delivered.length with hl | hg
    · rw [List.getElem?_append_left hl] at hd
      obtain ⟨hm, q, hq, he⟩ := hi.buffers i d hd
      exact ⟨hm, q, by rw [← hq, ← hp], he⟩
    · have hie : i = s.delivered.length := by
        have hb := (List.getElem?_eq_some_iff.mp hd).1
        simp only [List.length_append, List.length_singleton] at hb
        omega
      subst hie
      rw [List.getElem?_concat_length] at hd
      cases Option.some.inj hd
      exact ⟨hnext, p, by rw [← hpi, ← hp], rfl⟩

/-- A message arrives in the buffer of its receive and in no other buffer in use. -/
theorem RecvInv.transfer (hi : RecvInv keep s) (hf : LinkSound keep s) {rq : WqState} {p : Posted}
    {m : List UInt8} {rest : List (List UInt8)} (hc : s.channel = m :: rest)
    (hpi : s.rq.posted[s.rq.transfers]? = some p) (hl : m.length = p.req.bytes.length)
    (hp : rq.posted = s.rq.posted) (ht : rq.transfers = s.rq.transfers + 1)
    (hr : rq.reports = s.rq.reports) :
    RecvInv keep { s with
      rq := rq
      channel := rest
      recvMem := writeBytes s.recvMem p.req.bytes m } := by
  have hcons : s.handed.drop s.rq.transfers = m :: rest := by rw [← hi.channel, hc]
  have hlt : s.rq.transfers < s.handed.length := by
    by_contra hn
    rw [List.drop_eq_nil_of_le (by omega)] at hcons
    simp at hcons
  rw [List.drop_eq_getElem_cons hlt] at hcons
  obtain ⟨hm, hrest⟩ := List.cons.inj hcons
  have huse : s.inUse keep s.rq.transfers := .inl hi.delivered_le
  refine ⟨?_, ?_, hi.count.trans hr.symm, ?_, ?_⟩
  · simp only [ht, hrest]
  · simp only [ht]
    omega
  · intro i q hli hu hq
    simp only [ht] at hli
    simp only [hp] at hq
    by_cases he : i = s.rq.transfers
    · subst he
      have hqp : q = p := Option.some.inj (hq.symm.trans hpi)
      rw [hqp]
      simp only
      rw [map_writeBytes (hf.nodup _ p hpi huse) hl.symm, List.getElem?_eq_getElem hlt, hm]
    · simp only
      rw [map_writeBytes_other (hf.apart i _ q p he hq hpi hu huse)]
      exact hi.arrived i q (by omega) hu hq
  · intro i d hd
    obtain ⟨hmsg, q, hq, he⟩ := hi.buffers i d hd
    exact ⟨hmsg, q, by rw [← hq, ← hp], he⟩

theorem RecvInv.rq (hi : RecvInv keep s) (hr : RingInv cfg.rq.ring DisWqe.eraseLen s.rq.ring)
    (hv : WholeInv s.rq) (hq : WqInv cfg.rq s.rq) (hf : LinkSound keep s) {a : WqAct} {rq : WqState}
    (hm : s.rq.moving a = none) (h : wqStep cfg.rq s.rq a = some rq) {u : LinkState}
    (hu : u = { s with rq := rq, delivered := s.delivered ++ s.completed a }) :
    RecvInv keep u ∧ RecvMove s u := by
  have hle := transfers_le hr
  cases wqStep_progress hv h with
  | post es _ hc hp ht hrep =>
    rw [LinkState.completed, hc, List.append_nil] at hu
    rw [hu]
    exact ⟨hi.post hle hp ht hrep, .quiet rfl⟩
  | transfer tail hm' => rw [hm] at hm'; simp at hm'
  | report tail _ hc hw hret hp ht hrep =>
    obtain ⟨p, hpo, hb, _⟩ := held_message hv hq hf.recvs hw
    have hpi : s.rq.posted[s.delivered.length]? = some p := by rw [hi.count, hret]; exact hpo
    obtain ⟨hmsg, hnext⟩ := hi.report hpi hp ht hrep
    simp only [LinkState.completed, hc, hb] at hu
    rw [hu]
    exact ⟨hnext, .deliver _ rfl hmsg⟩

theorem moving_worker {s : WqState} {a : WqAct} {tail : Nat} (h : s.moving a = some tail)
    (n : UInt32) : s.moving (.worker (some n)) = some tail := by
  cases a with
  | worker out =>
    cases out with
    | none => simp [WqState.moving] at h
    | some k => exact h
  | _ => simp [WqState.moving] at h

theorem RecvInv.receive (hi : RecvInv keep s) (hv : WholeInv s.rq) (hq : WqInv cfg.rq s.rq)
    (hf : LinkSound keep s) {a : WqAct} {tail : Nat} {m : List UInt8} {rest : List (List UInt8)}
    {rq : WqState} (hm : s.rq.moving a = some tail) (hc : s.channel = m :: rest)
    (hl : m.length = (s.rq.slots tail).byteLen.toNat)
    (h : wqStep cfg.rq s.rq (.worker (some (s.rq.slots tail).byteLen)) = some rq) :
    RecvInv keep { s with
      rq := rq
      channel := rest
      recvMem := writeBytes s.recvMem (s.rq.slots tail).msgBytes m } := by
  have hm' := moving_worker hm (s.rq.slots tail).byteLen
  cases wqStep_progress hv h with
  | post _ hn => rw [hn] at hm'; simp at hm'
  | report _ hn => rw [hn] at hm'; simp at hm'
  | transfer j hj _ hw hret hp ht hrep =>
    have he : j = tail := Option.some.inj (hj.symm.trans hm')
    subst he
    obtain ⟨p, hpo, hb, hlen⟩ := held_message hv hq hf.recvs hw
    rw [hb]
    exact hi.transfer hf hc (by rw [hret]; exact hpo) (hl.trans hlen) hp ht hrep

theorem RecvInv.write (hi : RecvInv keep s) {addr : UInt64} {v : UInt8}
    (ha : s.Allows keep (.recvWrite addr v)) :
    RecvInv keep { s with recvMem := Function.update s.recvMem addr v } := by
  refine ⟨hi.channel, hi.taken, hi.count, fun i p hlt hu hp => ?_, hi.buffers⟩
  rw [map_update_other (ha i p hp hu)]
  exact hi.arrived i p hlt hu hp

end

end DisKverbs
