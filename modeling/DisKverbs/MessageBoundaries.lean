import DisKverbs.Stream
import DisKverbs.ReturnedFields

namespace DisKverbs

open CellProg CircBuf RingMachine StepSystem

variable {ι : Type} [DecidableEq ι]

/-- A queue of receives with its completion queue and the messages it is sent. -/
abbrev TransferState (ι : Type) := PairState ι × (Tally × Stream)

def transferNote (me : ι) (msgs : List Nat) (s : PairState ι) (a : PairAct ι)
    (g : Tally × Stream) : Tally × Stream :=
  (tally me s a g.1,
    match a with
    | .wq a => streamNote msgs s.wq a g.2
    | _ => g.2)

def transferStep (cfg : WqCfg) (r : RingSize) (me : ι) (msgs : List Nat) :
    TransferState ι → PairAct ι → Option (TransferState ι) :=
  recording (pairStep cfg r me) (transferNote me msgs)

def TransferInit (p : TransferState ι) : Prop :=
  PairInit p.1 ∧ p.2 = (Tally.mk 0 [], Stream.mk 0 0 0 [] [])

/-- Each successful receive delivers bytes of one message, in order, and reports how many. -/
def DeliversInTurn (msgs : List Nat) (p : TransferState ι) : PairAct ι → Prop
  | .wq a => InTurn msgs (p.1.wq, p.2.2) a
  | _ => True

/-- The worker will not call for more bytes of its message. -/
def WorkerPc.Leaves (slots : Nat → DisWqe) : WorkerPc → Prop
  | .recvGot tail _ left => left - (slots tail).byteLen = 0
  | .recvWhole _ _ | .complete _ _ | .free _ _ | .retire _ _ => True
  | _ => False

/-- Only bytes of message `i` are delivered to receive `i`, all of them when it succeeds; it does not
go on once the message arrived, and is reported with its length. -/
structure Boundaries (msgs : List Nat) (p : TransferState ι) : Prop where
  only : ∀ (i : Nat) (bytes : List MsgByte), (p.2.2.contents ++ [p.2.2.got])[i]? = some bytes →
    ∃ n, bytes = msgPrefix i n
  whole : ∀ (i : Nat) (bytes : List MsgByte), p.2.2.contents[i]? = some bytes →
    p.1.wq.retired[i]? = some .success → ∃ len, msgs[i]? = some len ∧ bytes = msgPrefix i len
  leaves : p.1.wq.retired.length < p.2.2.cur → p.1.wq.worker.Leaves p.1.wq.slots
  reported : ∀ (i n : Nat) (wc : IbWc), Completed (p.1, p.2.1) i n wc → wc.status = .success →
    ∃ len, msgs[i]? = some len ∧ wc.byteLen.toNat = len

section

variable {cfg : WqCfg} {r : RingSize} {me : ι} {msgs : List Nat}

theorem reach_streamCount {p : StreamState}
    (h : Reach StreamInit (Acts (streamStep cfg msgs) (InTurn msgs)) p) :
    Reach CountInit (Acts (countStep cfg) fun p a => WithinRequest p.1 a) (p.1, p.2.moved) := by
  apply h.project fun p => (p.1, p.2.moved)
  · rintro ⟨s, g⟩ ⟨hi, rfl⟩
    exact ⟨hi, rfl⟩
  · rintro ⟨s, g⟩ ⟨t, g'⟩ _ _ ⟨a, hok, hs⟩
    obtain ⟨hs, rfl⟩ := recording_some.mp hs
    exact .inr ⟨a, InTurn.within hok, recording_some.mpr ⟨hs, (streamNote_moved a).symm⟩⟩

theorem reach_streamWq {p : StreamState}
    (h : Reach StreamInit (Acts (streamStep cfg msgs) (InTurn msgs)) p) :
    Reach WqInit (Acts (wqStep cfg) anyAct) p.1 :=
  reach_recorded h (fun _ hi => hi.1) fun _ _ _ => trivial

theorem reach_gotInv (hrq : cfg.type = .rq) {p : StreamState}
    (h : Reach StreamInit (Acts (streamStep cfg msgs) (InTurn msgs)) p) : GotInv p := by
  apply h.invariant
  · rintro ⟨s, g⟩ ⟨rfl, rfl⟩
    exact ⟨trivial, rfl, rfl, by simp⟩
  · rintro ⟨s, g⟩ ⟨t, g'⟩ hp hi ⟨a, _, hs⟩
    obtain ⟨hs, rfl⟩ := recording_some.mp hs
    exact hi.step hrq (reach_wqRing (reach_streamWq hp)) (reach_countInv (reach_streamCount hp)) hs

theorem Matched.before {posted es : List Posted} (h : Matched msgs (posted ++ es)) :
    Matched msgs posted := by
  intro i len e hm he
  have hlt := (List.getElem?_eq_some_iff.mp he).1
  exact h i len e hm (by rw [List.getElem?_append_left hlt]; exact he)

theorem Matched.heldLen {s : WqState} (h : Matched msgs s.posted) (hi : WqInv cfg s)
    (hr : RingInv cfg.ring DisWqe.eraseLen s.ring) {len : Nat} (hw : s.worker.holds ≠ none)
    (hm : msgs[s.retired.length]? = some len) : s.heldLen.toNat = len := by
  obtain ⟨tail, hw⟩ := Option.ne_none_iff_exists'.mp hw
  obtain ⟨e, he, _⟩ := held_posted hr hw
  obtain ⟨hlen, hlt⟩ := h _ len e hm he
  have hbytes := postOneBody_byteLen (hi.entries e (List.mem_of_getElem? he))
  rw [heldLen_posted he, hbytes, hlen]
  omega

theorem reach_streamInv (hrq : cfg.type = .rq) {p : StreamState}
    (h : Reach StreamInit (Acts (streamStep cfg msgs) (InTurn msgs)) p) :
    Matched msgs p.1.posted → StreamInv msgs p := by
  apply h.invariant
  · rintro ⟨s, g⟩ ⟨rfl, rfl⟩ _
    exact ⟨⟨rfl, .inl ⟨rfl, rfl, rfl⟩⟩, by simp⟩
  · rintro ⟨s, g⟩ ⟨t, g'⟩ hp hi ⟨a, hok, hs⟩ hm
    obtain ⟨hs, rfl⟩ := recording_some.mp hs
    obtain ⟨es, hposted⟩ := wqStep_posted hs
    have hbefore : Matched msgs s.posted := by
      simp only at hposted hm
      rw [hposted] at hm
      exact hm.before
    have hwq := reach_streamWq hp
    have hheld : ∀ len, s.worker.holds ≠ none → msgs[s.retired.length]? = some len →
        s.heldLen.toNat = len := by
      intro len hw hlen
      exact hbefore.heldLen (reach_wqInv hwq) (reach_wqRing hwq) hw hlen
    exact (hi hbefore).step hrq (reach_gotInv hrq hp) (reach_countInv (reach_streamCount hp)) hheld
      hok hs

variable {p : TransferState ι}

theorem reach_transferTally
    (h : Reach TransferInit (Acts (transferStep cfg r me msgs) (DeliversInTurn msgs)) p) :
    Reach TallyInit (Acts (tallyStep cfg r me) TransportOk) (p.1, p.2.1) := by
  apply h.project fun p => (p.1, p.2.1)
  · rintro ⟨s, g⟩ ⟨hi, rfl⟩
    exact ⟨hi, rfl⟩
  · rintro ⟨s, g⟩ ⟨t, g'⟩ _ _ ⟨a, hok, hs⟩
    obtain ⟨hs, rfl⟩ := recording_some.mp hs
    refine .inr ⟨a, ?_, recording_some.mpr ⟨hs, rfl⟩⟩
    cases a with
    | wq a => exact InTurn.within hok
    | _ => trivial

theorem reach_transferStream
    (h : Reach TransferInit (Acts (transferStep cfg r me msgs) (DeliversInTurn msgs)) p) :
    Reach StreamInit (Acts (streamStep cfg msgs) (InTurn msgs)) (p.1.wq, p.2.2) := by
  apply h.project fun p => (p.1.wq, p.2.2)
  · rintro ⟨s, g⟩ ⟨hi, rfl⟩
    exact ⟨hi.1, rfl⟩
  · rintro ⟨s, g⟩ ⟨t, g'⟩ _ _ ⟨a, hok, hs⟩
    obtain ⟨hs, rfl⟩ := recording_some.mp hs
    cases pairStep_move hs with
    | @wq a wq hq _ => exact .inr ⟨a, hok, recording_some.mpr ⟨hq, rfl⟩⟩
    | @back out wq tail status _ _ _ hq =>
      exact .inr ⟨.worker out, hok, recording_some.mpr ⟨hq, rfl⟩⟩
    | _ => exact .inl rfl

/-- A success reports a message that was sent. -/
def Sent (msgs : List Nat) (e : Inserted ι) : Option Owner → Prop
  | none => True
  | some o => e.call.status = .success → ∃ len, msgs[o.index]? = some len

theorem reach_sent (hrq : cfg.type = .rq)
    (h : Reach TransferInit (Acts (transferStep cfg r me msgs) (DeliversInTurn msgs)) p) :
    Matched msgs p.1.wq.posted → List.Forall₂ (Sent msgs) p.1.cq.inserted p.2.1.owners := by
  apply h.invariant
  · rintro ⟨s, g⟩ ⟨⟨_, hcq, _⟩, rfl⟩ _
    rw [hcq]
    exact .nil
  · rintro ⟨s, g⟩ ⟨t, g'⟩ hp hi ⟨a, _, hs⟩ hm
    obtain ⟨hs, rfl⟩ := recording_some.mp hs
    have htally := reach_transferTally hp
    have hpair := reach_tallyPair htally
    have hc := reach_calling hpair
    have hstep : tallyStep cfg r me (s, g.1) a = some (t, tally me s a g.1) :=
      recording_some.mpr ⟨hs, rfl⟩
    have hmove := tallyStep_move hc hstep
    obtain ⟨es, hes⟩ := hmove.posted
    have hbefore : Matched msgs s.wq.posted := by
      simp only at hes hm
      rw [hes] at hm
      exact hm.before
    refine hmove.forall₂ (R := fun _ => Sent msgs) hc (fun _ _ _ _ h => h)
      (fun _ _ _ => trivial) ?_ (hi hbefore)
    intro tail status cqe hw hsucc
    have hstreams := (reach_streamInv hrq (reach_transferStream hp) hbefore).worker
    simp only at hw
    simp only [hw, WorkerPc.Streams] at hstreams
    rcases hstreams with ⟨_, harr⟩ | ⟨hst, _⟩
    · obtain ⟨len, hlen, _⟩ := harr.got
      exact ⟨len, hlen⟩
    · cases hst.symm.trans hsucc

theorem streams_got {s : WqState} {g : Stream}
    (h : s.worker.Streams msgs s.retired.length g s.shouldStop) :
    ∃ n, g.got = msgPrefix s.retired.length n := by
  have start : g.At s.retired.length 0 → ∃ n, g.got = msgPrefix s.retired.length n :=
    fun hat => ⟨0, hat.got⟩
  have arrived : g.Arrived msgs s.retired.length → ∃ n, g.got = msgPrefix s.retired.length n := by
    intro harr
    obtain ⟨len, _, hgot⟩ := harr.got
    exact ⟨len, hgot⟩
  cases hw : s.worker with
  | idle | check | gotHead _ | recvTotal _ | recvLeft _ _ => rw [hw] at h; exact start h
  | top | exited => rw [hw] at h; exact ⟨0, h.1⟩
  | sendTop _ | sendCall _ => rw [hw] at h; exact h.elim
  | recvTop _ _ _ | recvCall _ _ _ | recvAgain _ _ _ =>
    rw [hw] at h
    obtain ⟨n, hat⟩ := h
    exact ⟨n, hat.got⟩
  | recvGot _ _ _ =>
    rw [hw] at h
    rcases h with ⟨n, _, hat, _⟩ | harr
    · exact ⟨n, hat.got⟩
    · exact arrived harr
  | recvWhole _ _ => rw [hw] at h; exact arrived h
  | complete _ _ | free _ _ | retire _ _ =>
    rw [hw] at h
    rcases h with ⟨_, harr⟩ | ⟨_, _, n, hat⟩
    · exact arrived harr
    · exact ⟨n, hat.got⟩

/-- Once its message has arrived, the worker does not call for more. -/
theorem streams_leaves {s : WqState} {g : Stream}
    (h : s.worker.Streams msgs s.retired.length g s.shouldStop)
    (hmoved : g.got.length = g.moved) (hcount : CountInv (s, g.moved))
    (hheld : ∀ len, s.worker.holds ≠ none → msgs[s.retired.length]? = some len →
      s.heldLen.toNat = len) (hcur : s.retired.length < g.cur) : s.worker.Leaves s.slots := by
  have early {n : Nat} (hat : g.At s.retired.length n) : False := by
    have := hat.cur
    omega
  cases hw : s.worker with
  | idle | check | gotHead _ | recvTotal _ | recvLeft _ _ => rw [hw] at h; exact (early h).elim
  | top =>
    rw [hw] at h
    rcases h.2 with hat | ⟨_, hle⟩
    · exact (early hat).elim
    · omega
  | exited => rw [hw] at h; exact absurd h.2 (by omega)
  | sendTop _ | sendCall _ => rw [hw] at h; exact h.elim
  | recvTop _ _ _ | recvCall _ _ _ | recvAgain _ _ _ =>
    rw [hw] at h
    obtain ⟨n, hat⟩ := h
    exact (early hat).elim
  | recvGot tail total left =>
    rw [hw] at h
    rcases h with ⟨n, _, hat, _⟩ | harr
    · exact (early hat).elim
    · obtain ⟨len, hlen, hgot⟩ := harr.got
      have hposted := hheld len (by simp [hw, WorkerPc.holds, WorkerPc.consumes]) hlen
      exact (recvGot_counts hw hgot hmoved hcount hposted).mpr rfl
  | _ => trivial

/-- Message boundaries hold in every run in which each message is as long as the receive of
its turn; and a receive that ended with its message alone was as long as it. -/
theorem message_boundaries (cfg : WqCfg) (hrq : cfg.type = .rq) (r : RingSize) (me : ι)
    (msgs : List Nat) (p : TransferState ι)
    (h : Reach TransferInit (Acts (transferStep cfg r me msgs) (DeliversInTurn msgs)) p) :
    (Matched msgs p.1.wq.posted → Boundaries msgs p) ∧
      ∀ (i len : Nat) (e : Posted), p.1.wq.retired[i]? = some .success →
        p.1.wq.posted[i]? = some e → p.2.2.contents[i]? = some (msgPrefix i len) →
        e.req.wr.length % 2 ^ 32 = len := by
  have hstream := reach_transferStream h
  have hgot := reach_gotInv hrq hstream
  have hwq := reach_streamWq hstream
  have hcount := reach_countInv (reach_streamCount hstream)
  refine ⟨fun hm => ?_, ?_⟩
  · have hi := reach_streamInv hrq hstream hm
    have hcontents : p.2.2.contents.length = p.1.wq.retired.length := hgot.contents
    refine ⟨?_, ?_, ?_, ?_⟩
    · intro i bytes hb
      by_cases hlt : i < p.2.2.contents.length
      · rw [List.getElem?_append_left hlt] at hb
        obtain ⟨n, hbytes, _⟩ := hi.received i bytes hb
        exact ⟨n, hbytes⟩
      · rw [List.getElem?_append_right (by omega), List.getElem?_singleton] at hb
        split at hb
        next hz =>
          have heq : i = p.1.wq.retired.length := by omega
          obtain ⟨n, hn⟩ := streams_got hi.worker
          exact ⟨n, by rw [← Option.some.inj hb, heq]; exact hn⟩
        next => simp at hb
    · intro i bytes hb hs
      obtain ⟨n, hbytes, hn⟩ := hi.received i bytes hb
      exact ⟨n, hn hs, hbytes⟩
    · intro hcur
      refine streams_leaves hi.worker hgot.moved hcount ?_ hcur
      intro len hw hlen
      exact Matched.heldLen hm (reach_wqInv hwq) (reach_wqRing hwq) hw hlen
    · intro i n wc hc hs
      have htally := reach_transferTally h
      obtain ⟨j, x, hx, ho, rfl⟩ := hc.entry htally
      obtain ⟨len, hlen⟩ := forall₂_at (reach_sent hrq h hm) hx ho hs
      obtain ⟨e, he, _⟩ := forall₂_at (reach_delivered htally) hx ho hs
      obtain ⟨hwr, hlt⟩ := hm i len e hlen he
      obtain ⟨hn, hbytes⟩ := hc.bytes htally he hs
      exact ⟨len, hlen, by omega⟩
  · intro i len e hs he hb
    have hruns := (reach_wqInv hwq).entries e (List.mem_of_getElem? he)
    have hfilled := hgot.filled i _ e hb hs he
    rw [← postOneBody_byteLen hruns, ← hfilled, msgPrefix_length]

end

def freshTransfer : TransferState Nat := (freshPair, (⟨0, []⟩, ⟨0, 0, 0, [], []⟩))

theorem freshTransfer_init : TransferInit freshTransfer := ⟨freshPair_init, rfl⟩

/-- `DeliversInTurn`, as a test of the state before the step. -/
def deliversInTurn (msgs : List Nat) (p : TransferState Nat) : PairAct Nat → Bool
  | .wq (.worker (some n)) =>
    match p.1.wq.worker, msgs[p.2.2.cur]? with
    | .recvCall tail _ _, some len =>
      decide (n.toNat ≤ (p.1.wq.slots tail).byteLen.toNat ∧ p.2.2.off + n.toNat ≤ len)
    | .recvCall _ _ _, none => false
    | _, _ => true
  | _ => true

theorem deliversInTurn_sound (msgs : List Nat) (p : TransferState Nat) (a : PairAct Nat)
    (h : deliversInTurn msgs p a = true) : DeliversInTurn msgs p a := by
  cases a with
  | wq a =>
    cases a with
    | worker out =>
      cases out with
      | none => trivial
      | some n =>
        intro tail total left hw
        simp only at hw
        cases hm : msgs[p.2.2.cur]? with
        | none => simp [deliversInTurn, hw, hm] at h
        | some len =>
          simp only [deliversInTurn, hw, hm, decide_eq_true_eq] at h
          exact ⟨h.1, len, rfl, h.2⟩
    | _ => trivial
  | _ => trivial

/-- A receive of four bytes that two deliveries of two bytes complete. -/
def fourByteRun (msgs : List Nat) : TransferState Nat :=
  afterChecked (transferStep twoSlotRq twoSlots 0 msgs) (deliversInTurn msgs) freshTransfer
    (receiveHalvesActs 2)

theorem fourByteRun_reach (msgs : List Nat) : Reach TransferInit
    (Acts (transferStep twoSlotRq twoSlots 0 msgs) (DeliversInTurn msgs)) (fourByteRun msgs) :=
  reach_afterChecked (deliversInTurn_sound msgs) (reach_start freshTransfer_init) _

theorem message_boundaries_whole : (fourByteRun [4]).1.wq.retired = [.success] ∧
    Boundaries [4] (fourByteRun [4]) := by
  have hlens : (fourByteRun [4]).1.wq.posted.map (·.req.wr.length) = [4] := by decide
  have hmatched : Matched [4] (fourByteRun [4]).1.wq.posted := by
    intro i len e hm he
    have hlen := congrArg (·[i]?) hlens
    simp only [List.getElem?_map, he, Option.map_some, hm, Option.some.injEq] at hlen
    have hmem : len ∈ [4] := List.mem_of_getElem? hm
    exact ⟨hlen, by rw [List.mem_singleton.mp hmem]; decide⟩
  exact ⟨by decide, (message_boundaries twoSlotRq rfl twoSlots 0 [4] (fourByteRun [4])
    (fourByteRun_reach [4])).1 hmatched⟩

/-- Two messages of two bytes end up in one buffer of four bytes, although every buffer is as
long as its message. -/
theorem message_absorbed : (∀ e ∈ (fourByteRun [2, 2]).1.wq.posted, 2 ≤ e.req.wr.length) ∧
    (fourByteRun [2, 2]).1.wq.retired = [.success] ∧
    (fourByteRun [2, 2]).2.2.contents = [[⟨0, 0⟩, ⟨0, 1⟩, ⟨1, 0⟩, ⟨1, 1⟩]] ∧
    Reach TransferInit (Acts (transferStep twoSlotRq twoSlots 0 [2, 2]) (DeliversInTurn [2, 2]))
      (fourByteRun [2, 2]) ∧ ¬ Boundaries [2, 2] (fourByteRun [2, 2]) := by
  have hlens : (fourByteRun [2, 2]).1.wq.posted.map (·.req.wr.length) = [4] := by decide
  have hcontents : (fourByteRun [2, 2]).2.2.contents =
      [[⟨0, 0⟩, ⟨0, 1⟩, ⟨1, 0⟩, ⟨1, 1⟩]] := by decide
  refine ⟨fun e he => ?_, by decide, hcontents, fourByteRun_reach [2, 2], fun hb => ?_⟩
  · have hmem : e.req.wr.length ∈ [4] := hlens ▸ List.mem_map_of_mem he
    rw [List.mem_singleton.mp hmem]
    decide
  · obtain ⟨n, hn⟩ := hb.only 0 [⟨0, 0⟩, ⟨0, 1⟩, ⟨1, 0⟩, ⟨1, 1⟩] (by rw [hcontents]; rfl)
    have hlen : 4 = n := by simpa using congrArg List.length hn
    rw [← hlen] at hn
    exact absurd hn (by decide)

end DisKverbs
