import DisKverbs.ReceiveLoop

namespace DisKverbs

open ByteMem

/-- A message in the parts that a sequence of calls delivers; `none` is a call that fails. -/
def cutMessage : List (Option Nat) → List UInt8 → List (Option (List UInt8))
  | [], _ => []
  | none :: parts, m => none :: cutMessage parts m
  | some n :: parts, m => some (m.take n) :: cutMessage parts (m.drop n)

def partTotal (parts : List (Option Nat)) : Nat := (parts.map (·.getD 0)).sum

/-- The calls deliver `n` bytes in all, and some call succeeds. -/
structure Splits (parts : List (Option Nat)) (n : Nat) : Prop where
  total : partTotal parts = n
  success : ∃ k, some k ∈ parts

/-- The parts that are not empty. -/
def deliveries (parts : List (Option Nat)) : Nat :=
  (parts.filter fun p => decide (0 < p.getD 0)).length

/-- The receive of every message split so succeeds, and leaves its bytes at their positions in
the posted buffer list. -/
def PlacesMessage (wqe : DisWqe) (parts : List (Option Nat)) : Prop :=
  ∀ (m : List UInt8) (mem : UInt64 → UInt8), m.length = wqe.byteLen.toNat →
    (disWqConsumeOneRqe (cutMessage parts m) wqe mem).status = .success ∧
      wqe.msgBytes.map (disWqConsumeOneRqe (cutMessage parts m) wqe mem).mem = m

/-- The posted buffer list has a place of its own for every byte. -/
structure Roomy (wqe : DisWqe) : Prop where
  places : wqe.msgBytes.length = wqe.byteLen.toNat
  distinct : wqe.msgBytes.Nodup

section

variable {wqe : DisWqe} {total left : UInt32} {parts : List (Option Nat)} {n : Nat}
  {mem : UInt64 → UInt8} {m : List UInt8}

theorem partTotal_none : partTotal (none :: parts) = partTotal parts := by
  simp [partTotal]

theorem partTotal_some : partTotal (some n :: parts) = n + partTotal parts := by
  simp [partTotal]

theorem deliveries_none : deliveries (none :: parts) = deliveries parts := by
  simp [deliveries]

theorem deliveries_zero : deliveries (some 0 :: parts) = deliveries parts := by
  simp [deliveries]

theorem deliveries_succ : deliveries (some (n + 1) :: parts) = deliveries parts + 1 := by
  simp [deliveries]

theorem deliveries_pos : 0 < deliveries parts ↔ 0 < partTotal parts := by
  induction parts with
  | nil => simp [deliveries, partTotal]
  | cons part parts ih =>
    match part with
    | none => rw [deliveries_none, partTotal_none, ih]
    | some 0 => rw [deliveries_zero, partTotal_some, Nat.zero_add, ih]
    | some (n + 1) =>
      rw [deliveries_succ, partTotal_some]
      omega

theorem Splits.rest (h : 0 < partTotal parts) : Splits parts (partTotal parts) := by
  refine ⟨rfl, ?_⟩
  by_contra hno
  have hzero : partTotal parts = 0 := by
    refine List.sum_eq_zero fun k hk => ?_
    obtain ⟨part, hp, rfl⟩ := List.mem_map.mp hk
    cases part with
    | none => rfl
    | some n => exact absurd ⟨n, hp⟩ hno
  omega

theorem ofNat_length (hm : m.length = left.toNat) (hn : n ≤ left.toNat) :
    (left - UInt32.ofNat (m.take n).length).toNat = left.toNat - n := by
  have hlen : (m.take n).length = n := by
    rw [List.length_take]
    omega
  have hle : (m.take n).length ≤ left.toNat := by omega
  rw [left_after hle, hlen]

/-- The loop when the whole message comes in one part. -/
theorem receiveLoop_onePart (h : wqe.byteLen = left) (hs : Splits parts left.toNat)
    (hone : deliveries parts ≤ 1) (hm : m.length = left.toNat) :
    (receiveLoop total.toInt32 (cutMessage parts m) left.toInt32 wqe mem).status = .success ∧
      (receiveLoop total.toInt32 (cutMessage parts m) left.toInt32 wqe mem).mem =
        writeBytes mem wqe.msgBytes m := by
  induction parts with
  | nil =>
    obtain ⟨k, hk⟩ := hs.success
    simp at hk
  | cons part parts ih =>
    match part with
    | none =>
      rw [cutMessage, receiveLoop_failed h]
      refine ih ⟨?_, ?_⟩ (by rwa [deliveries_none] at hone)
      · rw [← hs.total, partTotal_none]
      · obtain ⟨k, hk⟩ := hs.success
        exact ⟨k, by simpa using hk⟩
    | some 0 =>
      have htotal := hs.total
      rw [partTotal_some, Nat.zero_add] at htotal
      by_cases hz : left = 0
      · have hnil : m = [] := List.length_eq_zero_iff.mp (by rw [hm, hz]; rfl)
        rw [cutMessage, receiveLoop_whole (by simp [hz]), hnil]
        exact ⟨rfl, rfl⟩
      · have hpos : left.toNat ≠ 0 := fun he => hz (UInt32.toNat_inj.mp he)
        have hleft : left - UInt32.ofNat (m.take 0).length = left := by simp
        rw [cutMessage, receiveLoop_part (by rw [hleft]; exact hz)]
        rw [hleft, byteLen_self wqe h]
        have hrest : Splits parts left.toNat := htotal ▸ Splits.rest (by omega)
        have hmem : writeBytes mem wqe.msgBytes (m.take 0) = mem := by
          rw [List.take_zero]
          cases wqe.msgBytes <;> rfl
        rw [hmem]
        exact ih hrest (by rwa [deliveries_zero] at hone)
    | some (n + 1) =>
      have htotal := hs.total
      rw [partTotal_some] at htotal
      have hnone : ¬ 0 < partTotal parts := by
        rw [← deliveries_pos]
        rw [deliveries_succ] at hone
        omega
      have hall : m.take (n + 1) = m := List.take_of_length_le (by omega)
      have hz : left - UInt32.ofNat (m.take (n + 1)).length = 0 := by
        apply UInt32.toNat_inj.mp
        rw [ofNat_length hm (by omega), UInt32.toNat_zero]
        omega
      rw [cutMessage, receiveLoop_whole hz, hall]
      exact ⟨rfl, rfl⟩

/-- The addresses of the posted buffer list, whatever length is asked for. -/
def DisWqe.listBytes (w : DisWqe) : List UInt64 :=
  (w.iovEntries w.sciMsg.iovlen).flatMap Iovec.bytes

theorem writeBytes_first {a : UInt64} {v : UInt8} (hv : mem a = v) {xs : List UInt64}
    {bs : List UInt8} (hbs : ∀ b ∈ bs, b = v) : writeBytes mem xs bs a = v := by
  induction xs generalizing mem bs with
  | nil => cases bs <;> exact hv
  | cons x xs ih =>
    cases bs with
    | nil => exact hv
    | cons b bs =>
      rw [writeBytes]
      refine ih ?_ fun b' hb' => hbs b' (by simp [hb'])
      by_cases hx : a = x
      · rw [hx, Function.update_self]
        exact hbs b (by simp)
      · rw [Function.update_of_ne hx]
        exact hv

theorem writeBytes_head {a : UInt64} {v : UInt8} {xs : List UInt64} {bs : List UInt8}
    (hne : bs ≠ []) (hbs : ∀ b ∈ bs, b = v) : writeBytes mem (a :: xs) bs a = v := by
  cases bs with
  | nil => exact absurd rfl hne
  | cons b bs =>
    rw [writeBytes]
    refine writeBytes_first ?_ fun b' hb' => hbs b' (by simp [hb'])
    rw [Function.update_self]
    exact hbs b (by simp)

theorem msgBytes_head {a : UInt64} {xs : List UInt64} (hl : wqe.listBytes = a :: xs)
    (hp : 0 < wqe.byteLen.toNat) : ∃ ys, wqe.msgBytes = a :: ys := by
  have hm : wqe.msgBytes = wqe.listBytes.take wqe.byteLen.toNat := rfl
  obtain ⟨k, hk⟩ := Nat.exists_eq_succ_of_ne_zero (Nat.ne_of_gt hp)
  rw [hm, hl, hk]
  exact ⟨_, rfl⟩

/-- A call that delivers a part and leaves more to come. -/
theorem receiveLoop_cutPart (hm : m.length = left.toNat) (hn : n < left.toNat) :
    receiveLoop total.toInt32 (cutMessage (some n :: parts) m) left.toInt32 wqe mem =
      (receiveLoop total.toInt32 (cutMessage parts (m.drop n))
        (left - UInt32.ofNat (m.take n).length).toInt32
        { wqe with byteLen := left - UInt32.ofNat (m.take n).length }
        (writeBytes mem wqe.msgBytes (m.take n))).after ⟨wqe.byteLen, some (m.take n)⟩ := by
  rw [cutMessage]
  refine receiveLoop_part ?_
  intro hz
  have hleft := ofNat_length hm (Nat.le_of_lt hn)
  rw [hz, UInt32.toNat_zero] at hleft
  omega

/-- Once a byte of a uniform rest is at the first position, it stays there. -/
theorem receiveLoop_uniform {a : UInt64} {xs : List UInt64} {v : UInt8}
    (hl : wqe.listBytes = a :: xs) (h : wqe.byteLen = left) (ht : partTotal parts = left.toNat)
    (hm : m.length = left.toNat) (hv : ∀ b ∈ m, b = v) (hp : mem a = v ∨ 0 < left.toNat) :
    (receiveLoop total.toInt32 (cutMessage parts m) left.toInt32 wqe mem).mem a = v := by
  induction parts generalizing wqe left mem m with
  | nil =>
    have hzero : left.toNat = 0 := ht.symm
    exact hp.resolve_right (by omega)
  | cons part parts ih =>
    cases part with
    | none =>
      rw [cutMessage, receiveLoop_failed h]
      exact ih hl h (by rw [← ht, partTotal_none]) hm hv hp
    | some n =>
      rw [partTotal_some] at ht
      have htake : ∀ b ∈ m.take n, b = v := fun b hb => hv b (List.mem_of_mem_take hb)
      have hstay : mem a = v ∨ 0 < n → writeBytes mem wqe.msgBytes (m.take n) a = v := by
        rintro (hmem | hn)
        · exact writeBytes_first hmem htake
        · obtain ⟨ys, hys⟩ := msgBytes_head hl (by rw [h]; omega)
          rw [hys]
          refine writeBytes_head ?_ htake
          intro hnil
          have hlen := congrArg List.length hnil
          rw [List.length_take, List.length_nil] at hlen
          omega
      by_cases hn : n < left.toNat
      · rw [receiveLoop_cutPart hm hn]
        have hleft := ofNat_length hm (Nat.le_of_lt hn)
        refine ih hl rfl ?_ ?_ (fun b hb => hv b (List.mem_of_mem_drop hb)) ?_
        · rw [hleft]
          omega
        · rw [hleft, List.length_drop]
          omega
        · exact .inr (by rw [hleft]; omega)
      · have hz : left - UInt32.ofNat (m.take n).length = 0 := by
          apply UInt32.toNat_inj.mp
          rw [ofNat_length hm (by omega), UInt32.toNat_zero]
          omega
        rw [cutMessage, receiveLoop_whole hz]
        exact hstay (hp.imp_right fun hpos => by omega)

/-- When two parts are not empty, the first position does not keep the first byte. -/
theorem receiveLoop_overwrites {a : UInt64} {xs : List UInt64} {v b : UInt8} {bs : List UInt8}
    (hl : wqe.listBytes = a :: xs) (h : wqe.byteLen = left) (ht : partTotal parts = left.toNat)
    (htwo : 1 < deliveries parts) (hm : (b :: bs).length = left.toNat) (hv : ∀ x ∈ bs, x = v) :
    (receiveLoop total.toInt32 (cutMessage parts (b :: bs)) left.toInt32 wqe mem).mem a = v := by
  induction parts with
  | nil => simp [deliveries] at htwo
  | cons part parts ih =>
    match part with
    | none =>
      rw [cutMessage, receiveLoop_failed h]
      exact ih (by rw [← ht, partTotal_none]) (by rwa [deliveries_none] at htwo)
    | some 0 =>
      have hpos : 0 < left.toNat := by
        rw [← hm]
        exact Nat.succ_pos _
      have hleft : left - UInt32.ofNat ((b :: bs).take 0).length = left := by simp
      rw [receiveLoop_cutPart hm hpos, hleft, byteLen_self wqe h]
      have hmem : writeBytes mem wqe.msgBytes ((b :: bs).take 0) = mem := by
        rw [List.take_zero]
        cases wqe.msgBytes <;> rfl
      rw [hmem]
      exact ih (by rw [← ht, partTotal_some, Nat.zero_add]) (by rwa [deliveries_zero] at htwo)
    | some (n + 1) =>
      have hrest : 0 < partTotal parts := by
        rw [← deliveries_pos]
        rw [deliveries_succ] at htwo
        omega
      rw [partTotal_some] at ht
      have hn : n + 1 < left.toNat := by omega
      have hleft := ofNat_length hm (Nat.le_of_lt hn)
      rw [receiveLoop_cutPart hm hn]
      refine receiveLoop_uniform hl rfl ?_ ?_ ?_ ?_
      · rw [hleft]
        omega
      · rw [hleft, List.length_drop]
        omega
      · exact fun x hx => hv x (List.mem_of_mem_drop (by simpa using hx))
      · exact .inr (by rw [hleft]; omega)

end

section

variable {wqe : DisWqe} {parts : List (Option Nat)}

/-- A message that is `v` at position `j` and zero elsewhere. -/
def markedMessage (n j : Nat) : List UInt8 :=
  (List.range n).map fun k => if k = j then 1 else 0

theorem PlacesMessage.roomy (h : PlacesMessage wqe parts) : Roomy wqe := by
  have hlen : wqe.msgBytes.length = wqe.byteLen.toNat := by
    have hm := (h (markedMessage wqe.byteLen.toNat 0) (fun _ => 0) (by simp [markedMessage])).2
    have hcong := congrArg List.length hm
    rw [List.length_map] at hcong
    rw [hcong]
    simp [markedMessage]
  refine ⟨hlen, ?_⟩
  refine List.pairwise_iff_getElem.mpr ?_
  intro i j hi hj hlt he
  have hm := (h (markedMessage wqe.byteLen.toNat i) (fun _ => 0) (by simp [markedMessage])).2
  generalize (disWqConsumeOneRqe (cutMessage parts (markedMessage wqe.byteLen.toNat i)) wqe
    fun _ => 0).mem = mem at hm
  have hread := fun k : Nat => congrArg (fun l => l[k]?) hm
  have hfirst := hread i
  have hsecond := hread j
  have hne : j ≠ i := by omega
  simp only [List.getElem?_map, List.getElem?_eq_getElem hi, List.getElem?_eq_getElem hj,
    markedMessage, List.getElem?_range (hlen ▸ hi), List.getElem?_range (hlen ▸ hj),
    Option.map_some, Option.some.injEq, if_neg hne, ↓reduceIte] at hfirst hsecond
  rw [← he, hfirst] at hsecond
  exact absurd hsecond (by decide)

theorem PlacesMessage.oneDelivery (h : PlacesMessage wqe parts)
    (hs : Splits parts wqe.byteLen.toNat) : deliveries parts ≤ 1 := by
  by_contra hgt
  have hpos : 0 < wqe.byteLen.toNat := by
    rw [← hs.total, ← deliveries_pos]
    omega
  have hroom := h.roomy
  obtain ⟨k, hk⟩ := Nat.exists_eq_succ_of_ne_zero (Nat.ne_of_gt hpos)
  have hlen : ((1 : UInt8) :: List.replicate k 0).length = wqe.byteLen.toNat := by simp [hk]
  have hm := (h (1 :: List.replicate k 0) (fun _ => 0) hlen).2
  cases hl : wqe.listBytes with
  | nil =>
    have hnil : wqe.msgBytes = [] := by
      show wqe.listBytes.take _ = []
      rw [hl, List.take_nil]
    rw [← hroom.places, hnil] at hpos
    simp at hpos
  | cons a xs =>
    have hover : (disWqConsumeOneRqe (cutMessage parts (1 :: List.replicate k 0)) wqe
        fun _ => 0).mem a = 0 := by
      refine receiveLoop_overwrites hl rfl hs.total (by omega) hlen ?_
      exact fun x hx => List.eq_of_mem_replicate hx
    obtain ⟨ys, hys⟩ := msgBytes_head hl hpos
    rw [hys, List.map_cons, hover] at hm
    exact absurd (List.cons.inj hm).1 (by decide)

end

/-- A continuation starts over at the beginning of the posted buffer list. -/
theorem disWqConsumeOneRqe_places_iff (wqe : DisWqe) (parts : List (Option Nat))
    (hs : Splits parts wqe.byteLen.toNat) :
    PlacesMessage wqe parts ↔ Roomy wqe ∧ deliveries parts ≤ 1 := by
  constructor
  · intro h
    exact ⟨h.roomy, h.oneDelivery hs⟩
  · rintro ⟨hroom, hone⟩ m mem hm
    obtain ⟨hstatus, hmem⟩ := @receiveLoop_onePart wqe wqe.byteLen wqe.byteLen parts mem m rfl hs
      hone hm
    refine ⟨hstatus, ?_⟩
    rw [disWqConsumeOneRqe, hmem]
    exact map_writeBytes hroom.distinct (by rw [hroom.places, hm])

/-- A receive of two bytes into a buffer of two. -/
def twoByteBuffer : DisWqe :=
  { twoByteWqe with
    pageMapStatic := fun _ => ⟨0x1000, 2⟩
    sciMsg := ⟨.static 0, 1⟩ }

theorem disWqConsumeOneRqe_places_whole :
    PlacesMessage twoByteBuffer [none, some 2] ↔
      Roomy twoByteBuffer ∧ deliveries [none, some 2] ≤ 1 :=
  disWqConsumeOneRqe_places_iff twoByteBuffer [none, some 2] ⟨by decide, 2, by decide⟩

/-- The second byte replaces the first one. -/
theorem secondPart_overwrites :
    (disWqConsumeOneRqe [some [1], some [2]] twoByteBuffer fun _ => 0).status = .success ∧
      twoByteBuffer.msgBytes.map (disWqConsumeOneRqe [some [1], some [2]] twoByteBuffer
        fun _ => 0).mem = [2, 0] := by
  decide

end DisKverbs
