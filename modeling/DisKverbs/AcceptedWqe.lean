import DisKverbs.ScatterGather

namespace DisKverbs

open CellProg

variable {A : Option PageMap → Prop} {lib : SciLib} {t : MrTable} {wr : IbWr} {w₀ w : DisWqe}

/-- The bytes the SGEs of a WR describe, as far as a post visits them. -/
def IbWr.length (wr : IbWr) : Nat := (wr.visited.map fun g => g.length.toNat).sum

/-- The bytes of an SGE that the first loop counts. -/
def dmaLength (t : MrTable) (g : IbSge) : Nat := if (t.mrOf g).isDma then g.length.toNat else 0

theorem modify_wrId (w : DisWqe) (p : IovPtr) (f : Iovec → Iovec) :
    (w.modify p f).wrId = w.wrId := by cases p <;> rfl

theorem modify_ibqp (w : DisWqe) (p : IovPtr) (f : Iovec → Iovec) :
    (w.modify p f).ibqp = w.ibqp := by cases p <;> rfl

theorem span_names (lib : SciLib) (t : MrTable) (w : DisWqe) (i : Nat) (g : IbSge) :
    (w.span lib t i g).wrId = w.wrId ∧ (w.span lib t i g).ibqp = w.ibqp := by
  unfold DisWqe.span
  split
  next => exact ⟨rfl, rfl⟩
  next => exact ⟨rfl, rfl⟩

theorem spanAll_names (lib : SciLib) (t : MrTable) (w : DisWqe) (i : Nat) (gs : List IbSge) :
    (w.spanAll lib t i gs).wrId = w.wrId ∧ (w.spanAll lib t i gs).ibqp = w.ibqp := by
  induction gs generalizing w i with
  | nil => exact ⟨rfl, rfl⟩
  | cons g gs ih =>
    obtain ⟨hid, hqp⟩ := span_names lib t w i g
    obtain ⟨hid', hqp'⟩ := ih (w.span lib t i g) (i + 1)
    exact ⟨hid'.trans hid, hqp'.trans hqp⟩

theorem span_byteLen (w : DisWqe) (i : Nat) (g : IbSge) :
    (w.span lib t i g).byteLen.toNat = (w.byteLen.toNat + dmaLength t g) % 2 ^ 32 := by
  have hw := w.byteLen.toNat_lt
  have hg := g.length.toNat_lt
  unfold DisWqe.span dmaLength
  split
  next =>
    have hlen : g.length.toUInt64.toUInt32 = g.length := by simp
    show (w.byteLen + g.length.toUInt64.toUInt32).toNat = _
    rw [hlen, UInt32.toNat_add]
  next =>
    show w.byteLen.toNat = _
    omega

theorem spanAll_byteLen (lib : SciLib) (t : MrTable) (w : DisWqe) (i : Nat) (gs : List IbSge) :
    (w.spanAll lib t i gs).byteLen.toNat =
      (w.byteLen.toNat + (gs.map (dmaLength t)).sum) % 2 ^ 32 := by
  induction gs generalizing w i with
  | nil =>
    have hw := w.byteLen.toNat_lt
    simp only [DisWqe.spanAll, List.map_nil, List.sum_nil]
    omega
  | cons g gs ih =>
    rw [DisWqe.spanAll, ih, span_byteLen, List.map_cons, List.sum_cons]
    omega

theorem Mapped.names (h : Mapped lib t A wr w₀ w) : w.wrId = w₀.wrId ∧ w.ibqp = w₀.ibqp := by
  have hs := spanAll_names lib t w₀ 0 wr.visited
  rcases h with ⟨_, rfl⟩ | ⟨buf, _, _, rfl⟩
  · exact hs
  · exact hs

theorem Mapped.dmaBytes (h : Mapped lib t A wr w₀ w) (hz : w₀.byteLen = 0) :
    w.byteLen.toNat = (wr.visited.map (dmaLength t)).sum % 2 ^ 32 := by
  have hs := spanAll_byteLen lib t w₀ 0 wr.visited
  rw [hz, UInt32.toNat_zero, Nat.zero_add] at hs
  rcases h with ⟨_, rfl⟩ | ⟨buf, _, _, rfl⟩
  · exact hs
  · exact hs

theorem mapEntries_names (w : DisWqe) (p : IovPtr) (es : List Iovec) :
    (w.mapEntries p es).wrId = w.wrId ∧ (w.mapEntries p es).ibqp = w.ibqp := by
  induction es generalizing w p with
  | nil => exact ⟨rfl, rfl⟩
  | cons e es ih =>
    obtain ⟨hid, hqp⟩ := ih (w.mapEntry p e) (p.add 1)
    exact ⟨hid.trans (modify_wrId w p _), hqp.trans (modify_ibqp w p _)⟩

theorem entries_bytes_length (g : IbSge) :
    dmaLength t g + ((sgeMapOf t g).entries.flatMap Iovec.bytes).length = g.length.toNat := by
  by_cases hd : (t.mrOf g).isDma
  · simp [dmaLength, sgeMapOf, hd, DisSgeMap.entries, dmaSgeMap]
  · simp [dmaLength, sgeMapOf, hd, userEntries_bytes]

/-- Each visited SGE is counted by one of the two loops. -/
theorem loops_length (gs : List IbSge) :
    (gs.map (dmaLength t)).sum +
        ((gs.flatMap fun g => (sgeMapOf t g).entries).flatMap Iovec.bytes).length =
      (gs.map fun g => g.length.toNat).sum := by
  induction gs with
  | nil => rfl
  | cons g gs ih =>
    have hg := entries_bytes_length (t := t) g
    simp only [List.map_cons, List.sum_cons, List.flatMap_cons, List.flatMap_append,
      List.length_append]
    omega

section

variable {opcode : IbWcOpcode} {ibqp sciMsq : Nat} {wqe : DisWqe} {used : List (List Nat)}
  (h : Runs A (postOneBody lib opcode ibqp sciMsq t wr) w (some used) wqe)

include h

theorem postOneBody_names : wqe.wrId = wr.wrId.toUInt32 ∧ wqe.ibqp = ibqp := by
  obtain ⟨_, _, _, w₁, hm, rfl⟩ := postOneBody_some lib t h
  obtain ⟨hid, hqp⟩ := mapEntries_names w₁ w₁.sciMsg.iov
    (wr.visited.flatMap fun g => (sgeMapOf t g).entries)
  exact ⟨hid.trans hm.names.1, hqp.trans hm.names.2⟩

theorem postOneBody_byteLen : wqe.byteLen.toNat = wr.length % 2 ^ 32 := by
  obtain ⟨_, _, _, w₁, hm, rfl⟩ := postOneBody_some lib t h
  have hsum := loops_length (t := t) wr.visited
  rw [mapEntries_byteLen, hm.dmaBytes rfl, IbWr.length, ← hsum]
  omega

end

end DisKverbs
