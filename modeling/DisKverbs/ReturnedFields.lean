import DisKverbs.Tally
import DisKverbs.CompletedOnce
import DisKverbs.LinkRun
import DisKverbs.SciIf

namespace DisKverbs

open CellProg CircBuf RingMachine StepSystem

theorem narrow_wrId (x : UInt64) : x.toUInt32.toUInt64 = x ↔ x.toNat < 2 ^ 32 := by
  rw [← UInt64.toNat_inj, UInt32.toNat_toUInt64, UInt64.toNat_toUInt32]
  have := x.toUInt32.toNat_lt
  omega

theorem narrow_wrIds (x y : UInt64) :
    x.toUInt32.toUInt64 = y.toUInt32.toUInt64 ↔ x.toNat % 2 ^ 32 = y.toNat % 2 ^ 32 := by
  rw [← UInt64.toNat_inj, UInt32.toNat_toUInt64, UInt32.toNat_toUInt64, UInt64.toNat_toUInt32,
    UInt64.toNat_toUInt32]

/-- A completion carries the `wr_id` of its WR exactly when that fits into 32 bits, and two
distinct ones are told apart exactly when they differ in their low 32 bits. -/
theorem completed_wrId_iff {ι ι' : Type} [DecidableEq ι] [DecidableEq ι'] (cfg cfg' : WqCfg)
    (r r' : RingSize) (me : ι) (me' : ι') (p : TallyState ι) (p' : TallyState ι')
    (h : Reach TallyInit (Acts (tallyStep cfg r me) anyAct) p)
    (h' : Reach TallyInit (Acts (tallyStep cfg' r' me') anyAct) p') (i i' n n' : Nat)
    (e e' : Posted) (wc wc' : IbWc) (he : p.1.wq.posted[i]? = some e)
    (he' : p'.1.wq.posted[i']? = some e') (hc : Completed p i n wc) (hc' : Completed p' i' n' wc') :
    (wc.wrId = e.req.wr.wrId ↔ e.req.wr.wrId.toNat < 2 ^ 32) ∧
      ((e.req.wr.wrId ≠ e'.req.wr.wrId → wc.wrId ≠ wc'.wrId) ↔
        (e.req.wr.wrId ≠ e'.req.wr.wrId →
          e.req.wr.wrId.toNat % 2 ^ 32 ≠ e'.req.wr.wrId.toNat % 2 ^ 32)) := by
  rw [hc.wrId h he, hc'.wrId h' he']
  exact ⟨narrow_wrId _, imp_congr_right fun _ => not_congr (narrow_wrIds _ _)⟩

def freshTally : TallyState Nat := (freshPair, ⟨0, []⟩)

theorem freshTally_init : TallyInit freshTally := ⟨freshPair_init, rfl⟩

/-- Post a WR with no SGE under an identifier, send it, complete it and poll for it. -/
def sendIdActs (wrId : UInt64) : List (PairAct Nat) :=
  (postActs { emptyWr with wrId := wrId } 11).map .wq ++ List.replicate 5 (.wq (.worker (some 0))) ++
    [.call] ++ List.replicate 10 (.cq (.producer 0)) ++
    List.replicate 3 (.wq (.worker (some 0))) ++ pollPairActs ++ [.cq .poller]

def idRun : TallyState Nat :=
  afterActs (tallyStep twoSlotSq twoSlots 0) freshTally
    (sendIdActs 0 ++ sendIdActs 0x100000000)

theorem idRun_reach : Reach TallyInit (Acts (tallyStep twoSlotSq twoSlots 0) anyAct) idRun :=
  reach_afterActs freshTally_init _

theorem idRun_posted : ∃ e e' : Posted, idRun.1.wq.posted[0]? = some e ∧
    idRun.1.wq.posted[1]? = some e' ∧ e.req.wr.wrId = 0 ∧ e'.req.wr.wrId = 0x100000000 := by
  have hfst : (idRun.1.wq.posted[0]?).map (·.req.wr.wrId) = some 0 := by decide
  have hsnd : (idRun.1.wq.posted[1]?).map (·.req.wr.wrId) = some 0x100000000 := by decide
  obtain ⟨e, he, hid⟩ := Option.map_eq_some_iff.mp hfst
  obtain ⟨e', he', hid'⟩ := Option.map_eq_some_iff.mp hsnd
  exact ⟨e, e', he, he', hid, hid'⟩

/-- The completion of either send. -/
def idWc : IbWc := ⟨0, .success, .send, 0, 1⟩

theorem idRun_completed : Completed idRun 0 0 idWc ∧ Completed idRun 1 0 idWc :=
  ⟨⟨0, by decide, by decide⟩, ⟨1, by decide, by decide⟩⟩

theorem completed_wrId_idRun : ∃ e e' : Posted, e.req.wr.wrId = 0 ∧
    e'.req.wr.wrId = 0x100000000 ∧
      (idWc.wrId = e.req.wr.wrId ↔ e.req.wr.wrId.toNat < 2 ^ 32) ∧
      ((e.req.wr.wrId ≠ e'.req.wr.wrId → idWc.wrId ≠ idWc.wrId) ↔
        (e.req.wr.wrId ≠ e'.req.wr.wrId →
          e.req.wr.wrId.toNat % 2 ^ 32 ≠ e'.req.wr.wrId.toNat % 2 ^ 32)) := by
  obtain ⟨e, e', he, he', hid, hid'⟩ := idRun_posted
  exact ⟨e, e', hid, hid', completed_wrId_iff twoSlotSq twoSlotSq twoSlots twoSlots 0 0 idRun idRun
    idRun_reach idRun_reach 0 1 0 0 e e' idWc idWc he he' idRun_completed.1 idRun_completed.2⟩

/-- The identifier 2^32 comes back as 0, and so does the identifier 0. -/
theorem wrId_truncated : Reach TallyInit (Acts (tallyStep twoSlotSq twoSlots 0) anyAct) idRun ∧
    ∃ (e e' : Posted) (wc wc' : IbWc), idRun.1.wq.posted[0]? = some e ∧
      idRun.1.wq.posted[1]? = some e' ∧ Completed idRun 0 0 wc ∧ Completed idRun 1 0 wc' ∧
      wc'.wrId ≠ e'.req.wr.wrId ∧ e.req.wr.wrId ≠ e'.req.wr.wrId ∧ wc.wrId = wc'.wrId := by
  obtain ⟨e, e', he, he', hid, hid'⟩ := idRun_posted
  refine ⟨idRun_reach, e, e', idWc, idWc, he, he', idRun_completed.1, idRun_completed.2, ?_, ?_, rfl⟩
  · rw [hid']
    decide
  · rw [hid, hid']
    decide

/-- For a success, `byte_len` is the number of bytes moved exactly when the WR describes fewer
than 2^16 of them. -/
theorem completed_byteLen_iff {ι : Type} [DecidableEq ι] (cfg : WqCfg) (r : RingSize) (me : ι)
    (p : TallyState ι) (h : Reach TallyInit (Acts (tallyStep cfg r me) TransportOk) p) (i n : Nat)
    (e : Posted) (wc : IbWc) (he : p.1.wq.posted[i]? = some e) (hc : Completed p i n wc)
    (hs : wc.status = .success) (hmax : e.req.wr.length ≤ disMsgSizeMax) :
    wc.byteLen.toNat = n ↔ e.req.wr.length < 2 ^ 16 := by
  have hm : disMsgSizeMax = 2 ^ 22 := rfl
  obtain ⟨hn, hlen⟩ := hc.bytes h he hs
  rw [hlen]
  omega

def dmaKernel : Option Nat × DisPd × Kernel :=
  disGetDmaMr true (disAllocPd ⟨fun _ => none, fun _ => none, 0, 0⟩) ⟨0, fun _ => default, []⟩

/-- The table of a PD with one DMA MR. -/
def dmaTable : MrTable := ⟨dmaKernel.2.1.mrList, dmaKernel.2.2.mr⟩

/-- Post a buffer for two halves, receive them one by one, complete it and poll for it. -/
def receiveHalvesActs (half : UInt32) : List (PairAct Nat) :=
  .wq (.start ⟨dmaTable, ⟨7, [⟨0x10000, half + half, 0⟩], 1, by simp⟩⟩) ::
    (List.replicate 18 (.wq (.poster none)) ++ List.replicate 13 (.wq (.worker (some half))) ++
      [.call] ++ List.replicate 10 (.cq (.producer 0)) ++
      List.replicate 3 (.wq (.worker (some 0))) ++ pollPairActs ++ [.cq .poller])

/-- `TransportOk`, as a test of the state before the step. -/
def transportOk (p : TallyState Nat) : PairAct Nat → Bool
  | .wq (.worker (some n)) =>
    match p.1.wq.worker with
    | .recvCall tail _ _ => decide (n.toNat ≤ (p.1.wq.slots tail).byteLen.toNat)
    | _ => true
  | _ => true

theorem transportOk_sound (p : TallyState Nat) (a : PairAct Nat) (h : transportOk p a = true) :
    TransportOk p a := by
  cases a with
  | wq a =>
    cases a with
    | worker out =>
      cases out with
      | none => trivial
      | some n =>
        intro tail total left hw
        simpa [transportOk, hw] using h
    | _ => trivial
  | _ => trivial

def halvesRun (half : UInt32) : TallyState Nat :=
  afterChecked (tallyStep twoSlotRq twoSlots 0) transportOk freshTally (receiveHalvesActs half)

theorem halvesRun_reach (half : UInt32) :
    Reach TallyInit (Acts (tallyStep twoSlotRq twoSlots 0) TransportOk) (halvesRun half) :=
  reach_afterChecked transportOk_sound (reach_start freshTally_init) _

/-- Two deliveries of two bytes. -/
theorem completed_byteLen_halves : ∃ e : Posted, e.req.wr.length = 4 ∧
    ((4 : UInt32).toNat = 4 ↔ e.req.wr.length < 2 ^ 16) := by
  have hlen : ((halvesRun 2).1.wq.posted[0]?).map (·.req.wr.length) = some 4 := by decide
  obtain ⟨e, he, hlen⟩ := Option.map_eq_some_iff.mp hlen
  exact ⟨e, hlen, completed_byteLen_iff twoSlotRq twoSlots 0 (halvesRun 2) (halvesRun_reach 2) 0 4 e
    ⟨7, .success, .recv, 4, 1⟩ he ⟨0, by decide, by decide⟩ rfl (by rw [hlen]; decide)⟩

/-- A message of 2^16 bytes is received in two halves and reported with length 0. -/
theorem byteLen_truncated : ∃ (e : Posted) (wc : IbWc),
    Reach TallyInit (Acts (tallyStep twoSlotRq twoSlots 0) TransportOk) (halvesRun 0x8000) ∧
      (halvesRun 0x8000).1.wq.posted[0]? = some e ∧ Completed (halvesRun 0x8000) 0 65536 wc ∧
      wc.status = .success ∧ e.req.wr.length ≤ disMsgSizeMax ∧ wc.byteLen = 0 := by
  have hlen : ((halvesRun 0x8000).1.wq.posted[0]?).map (·.req.wr.length) = some 65536 := by decide
  obtain ⟨e, he, hlen⟩ := Option.map_eq_some_iff.mp hlen
  refine ⟨e, ⟨7, .success, .recv, 0, 1⟩, halvesRun_reach 0x8000, he, ?_, rfl, ?_, rfl⟩
  · exact ⟨0, by decide, by decide⟩
  · rw [hlen]
    decide

end DisKverbs
