import DisKverbs.SpanSpec

namespace DisKverbs

open CellProg CircBuf

variable {A : Option PageMap → Prop} (lib : SciLib) (t : MrTable)

/-- The 64-bit offset of an SGE from the start of its MR's first page. -/
def sgeOffset (mr : DisMr) (g : IbSge) : UInt64 := (g.addr - mr.mrVa) + mr.mrVaOffset

section

variable (mr : DisMr) (g : IbSge)

theorem userSgeMap_baseOffset :
    (userSgeMap mr g).baseOffset.toNat = (sgeOffset mr g).toNat % 4096 := by
  have ho : (userSgeMap mr g).baseOffset =
      sgeOffset mr g - sgeOffset mr g / pageSize * pageSize := rfl
  have hm : (sgeOffset mr g / pageSize * pageSize).toNat = (sgeOffset mr g).toNat / 4096 * 4096 := by
    rw [UInt64.toNat_mul, UInt64.toNat_div, pageSize_toNat]
    have := (sgeOffset mr g).toNat_lt
    omega
  have hle := UInt64.le_iff_toNat_le.mpr
    (show (sgeOffset mr g / pageSize * pageSize).toNat ≤ (sgeOffset mr g).toNat by omega)
  rw [ho, UInt64.toNat_sub_of_le _ _ hle, hm]
  omega

theorem userSgeMap_baseOffset_lt : (userSgeMap mr g).baseOffset.toNat < 4096 := by
  rw [userSgeMap_baseOffset]; omega

theorem userSgeMap_idx : (userSgeMap mr g).mrPages.idx = (sgeOffset mr g).toNat / 4096 := by
  show (sgeOffset mr g / pageSize).toNat = _
  rw [UInt64.toNat_div, pageSize_toNat]

@[simp] theorem userSgeMap_sgeLen : (userSgeMap mr g).sgeLen.toNat = g.length.toNat :=
  UInt32.toNat_toUInt64 _

theorem userSgeMap_pageCount : (userSgeMap mr g).pageCount.toNat =
    (g.length.toNat + (sgeOffset mr g).toNat % 4096) / 4096 + 1 := by
  have he : (userSgeMap mr g).pageCount =
      ((userSgeMap mr g).sgeLen + (userSgeMap mr g).baseOffset) / pageSize + 1 := rfl
  have hl := g.length.toNat_lt
  rw [he, UInt64.toNat_add, UInt64.toNat_div, UInt64.toNat_add, userSgeMap_baseOffset,
    userSgeMap_sgeLen, pageSize_toNat, UInt64.toNat_one]
  omega

end

theorem sgeCount_le (g : IbSge) : sgeCount t g ≤ 2 ^ 20 + 1 := by
  unfold sgeCount
  split
  · omega
  · have := g.length.toNat_lt
    rw [userSgeMap_pageCount]
    omega

theorem iovTotal_le (gs : List IbSge) : iovTotal t gs ≤ gs.length * (2 ^ 20 + 1) := by
  induction gs with
  | nil => simp [iovTotal]
  | cons g gs ih =>
    have := sgeCount_le t g
    simp only [iovTotal, List.map_cons, List.sum_cons, List.length_cons] at ih ⊢
    omega

theorem visited_length (wr : IbWr) : wr.visited.length ≤ 4 := by
  simp only [IbWr.visited, List.length_take, disSgePerWqe]
  omega

theorem iovTotal_lt (wr : IbWr) : iovTotal t wr.visited < 2 ^ lib.iovlenBits := by
  have h := iovTotal_le t wr.visited
  have := visited_length wr
  calc iovTotal t wr.visited ≤ 4 * (2 ^ 20 + 1) := h.trans (Nat.mul_le_mul_right _ this)
    _ < 2 ^ 32 := by omega
    _ ≤ 2 ^ lib.iovlenBits := Nat.pow_le_pow_right (by omega) lib.iovlenBits_ge

def DisWqe.header (w : DisWqe) (opcode : IbWcOpcode) (ibqp sciMsq : Nat) (wrId : UInt32) : DisWqe :=
  { w with
    opcode := opcode, sciMsq := sciMsq, byteLen := 0, ibqp := ibqp, wrId := wrId
    sciMsg := { w.sciMsg with iovlen := 0 } }

/-- The slot when the second loop starts. -/
def Mapped (A : Option PageMap → Prop) (wr : IbWr) (w₀ w : DisWqe) : Prop :=
  (iovTotal t wr.visited ≤ disSgePerWqe ∧
    w = WqeStore.put (.iov (.static 0)) (w₀.spanAll lib t 0 wr.visited)) ∨
  ∃ buf, disSgePerWqe < iovTotal t wr.visited ∧ A (some buf) ∧
    w = WqeStore.put (.iov (.dynamic 0))
      (WqeStore.put (.pageMapDynamic (some buf)) (w₀.spanAll lib t 0 wr.visited))

/-- What an accepted post did: every key resolved, the count was within the limit,
and the second loop wrote its entries into the chosen store. -/
theorem postOneBody_some {opcode : IbWcOpcode} {ibqp sciMsq : Nat} {wr : IbWr} {w w' : DisWqe}
    {used : List (List Nat)}
    (h : Runs A (postOneBody lib opcode ibqp sciMsq t wr) w (some used) w') :
    (∀ g ∈ wr.visited, (t.lookup g.lkey).isSome) ∧ iovTotal t wr.visited ≤ disMaxIovlen ∧
    used = wr.visited.map (fun g => (sgeMapOf t g).usedPages) ∧
    ∃ w₁, Mapped lib t A wr (w.header opcode ibqp sciMsq wr.wrId.toUInt32) w₁ ∧
      w' = w₁.mapEntries w₁.sciMsg.iov (wr.visited.flatMap fun g => (sgeMapOf t g).entries) := by
  simp only [postOneBody, runs_bind, runs_store, Cell.put] at h
  obtain ⟨_, _, rfl, _, _, rfl, _, _, rfl, _, _, rfl, _, _, rfl, _, _, rfl, sges, w₂, hs, h⟩ := h
  cases sges with
  | none => exact absurd (runs_pure.mp h).1 (by simp)
  | some sges =>
    obtain ⟨hall, rfl, rfl⟩ := spanSges_some lib t hs
    simp only [runs_bind] at h
    obtain ⟨b, w₁, hc, h⟩ := h
    cases b with
    | false => exact absurd (runs_pure.mp h).1 (by simp)
    | true =>
      simp only [↓reduceIte, runs_bind, runs_load] at h
      obtain ⟨_, _, ⟨hw, hw'⟩, _, _, hm, h⟩ := h
      rw [hw, hw', mapSges_runs] at hm
      obtain ⟨he, rfl⟩ := runs_pure.mp h
      obtain ⟨rfl, rfl⟩ := hm
      have hheader : (WqeStore.put (.iovlen 0) (WqeStore.put (.wrId wr.wrId.toUInt32)
          (WqeStore.put (.ibqp ibqp) (WqeStore.put (.byteLen 0) (WqeStore.put (.sciMsq sciMsq)
            (WqeStore.put (.opcode opcode) w)))))) =
          w.header opcode ibqp sciMsq wr.wrId.toUInt32 := rfl
      rw [hheader] at hc
      have hiov : ((w.header opcode ibqp sciMsq wr.wrId.toUInt32).spanAll lib t 0
          wr.visited).sciMsg.iovlen = iovTotal t wr.visited := by
        rw [spanAll_iovlen lib t 0 _ (Nat.two_pow_pos _)]
        simp [DisWqe.header, Nat.mod_eq_of_lt (iovTotal_lt lib t wr)]
      obtain ⟨hmax, hstore⟩ := chooseStore_true hc
      rw [hiov] at hmax hstore
      refine ⟨hall, hmax, ?_, w₁, ?_, ?_⟩
      · cases he; simp [Function.comp_def]
      · rcases hstore with hs | ⟨buf, hbuf, hlt, hw⟩
        · exact .inl hs
        · exact .inr ⟨buf, hlt, hbuf, hw⟩
      · simp [List.flatMap_map]

theorem postOneBody_none {opcode : IbWcOpcode} {ibqp sciMsq : Nat} {wr : IbWr} {w w' : DisWqe}
    (h : Runs A (postOneBody lib opcode ibqp sciMsq t wr) w none w') :
    (∃ g ∈ wr.visited, t.lookup g.lkey = none) ∨ disMaxIovlen < iovTotal t wr.visited ∨
      (disSgePerWqe < iovTotal t wr.visited ∧ A none) := by
  simp only [postOneBody, runs_bind, runs_store, Cell.put] at h
  obtain ⟨_, _, rfl, _, _, rfl, _, _, rfl, _, _, rfl, _, _, rfl, _, _, rfl, sges, w₂, hs, h⟩ := h
  cases sges with
  | none => exact .inl (spanSges_none lib t hs)
  | some sges =>
    obtain ⟨_, rfl, rfl⟩ := spanSges_some lib t hs
    simp only [runs_bind] at h
    obtain ⟨b, w₁, hc, h⟩ := h
    cases b with
    | true =>
      simp only [↓reduceIte, runs_bind, runs_load] at h
      obtain ⟨_, _, _, _, _, _, h⟩ := h
      exact absurd (runs_pure.mp h).1 (by simp)
    | false =>
      have hc := chooseStore_false hc
      rw [spanAll_iovlen lib t 0 _ (Nat.two_pow_pos _)] at hc
      simp only [WqeStore.put, Nat.zero_add, Nat.mod_eq_of_lt (iovTotal_lt lib t wr)] at hc
      exact .inr hc

section

variable {lib : SciLib} {t : MrTable} {wr : IbWr} {w₀ w : DisWqe}

theorem Mapped.valid (h : Mapped lib t A wr w₀ w) : w.Valid w.sciMsg.iov := by
  rcases h with ⟨_, rfl⟩ | ⟨buf, _, _, rfl⟩
  · trivial
  · rfl

theorem Mapped.iovlen (h : Mapped lib t A wr w₀ w) (hz : w₀.sciMsg.iovlen = 0) :
    w.sciMsg.iovlen = iovTotal t wr.visited := by
  have hs : (w₀.spanAll lib t 0 wr.visited).sciMsg.iovlen = iovTotal t wr.visited := by
    rw [spanAll_iovlen lib t 0 _ (by rw [hz]; exact Nat.two_pow_pos _), hz, Nat.zero_add,
      Nat.mod_eq_of_lt (iovTotal_lt lib t wr)]
  rcases h with ⟨_, rfl⟩ | ⟨buf, _, _, rfl⟩ <;> exact hs

theorem Mapped.byteLen (h : Mapped lib t A wr w₀ w)
    (hu : ∀ g ∈ wr.visited, (t.mrOf g).isDma = false) : w.byteLen = w₀.byteLen := by
  obtain ⟨n, hn⟩ := spanAll_user lib t (w := w₀) 0 hu
  rcases h with ⟨_, rfl⟩ | ⟨buf, _, _, rfl⟩ <;> simp [WqeStore.put, hn]

end

end DisKverbs
