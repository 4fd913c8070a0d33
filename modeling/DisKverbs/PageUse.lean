import DisKverbs.PostVerbs

namespace DisKverbs

open CellProg CircBuf

section

variable {mr : DisMr} {g : IbSge}

theorem mem_usedPages_iff {j : Nat} : j ∈ (userSgeMap mr g).usedPages ↔
    ∃ b < g.length.toNat, j = ((sgeOffset mr g).toNat + b) / pageSize.toNat := by
  simp only [DisSgeMap.usedPages, List.mem_map, List.mem_range, userEntries_length,
    userSgeMap_idx, pageSize_toNat]
  constructor
  · rintro ⟨n, hn, rfl⟩
    split at hn
    next => omega
    next =>
      refine ⟨n * 4096 - (sgeOffset mr g).toNat % 4096, by omega, by omega⟩
  · rintro ⟨b, hb, rfl⟩
    refine ⟨((sgeOffset mr g).toNat % 4096 + b) / 4096, ?_, by omega⟩
    split <;> omega

theorem usedPages_lt_iff (count : Nat) : (∀ j ∈ (userSgeMap mr g).usedPages, j < count) ↔
    g.length.toNat = 0 ∨ (sgeOffset mr g).toNat + g.length.toNat ≤ count * pageSize.toNat := by
  simp only [mem_usedPages_iff, pageSize_toNat]
  constructor
  · intro h
    by_cases hz : g.length.toNat = 0
    · exact .inl hz
    · have := h _ ⟨g.length.toNat - 1, by omega, rfl⟩
      omega
  · rintro h j ⟨b, hb, rfl⟩
    omega

end

/-- Which memory the slot of an accepted WR describes: every entry that the mapping loop wrote
lies in one of the pages listed for its SGE, whose MR is no DMA MR, and for an SGE on a user MR
these are the pages of the 64-bit offset range, whether or not they belong to the MR. -/
structure PageUse (t : MrTable) (wr : IbWr) (wqe : DisWqe) (used : List (List Nat)) : Prop where
  entry : ∀ e ∈ wqe.iovEntries used.flatten.length, ∃ (k : Nat) (g : IbSge) (mr : DisMr)
    (pages : List Nat), wr.visited[k]? = some g ∧ t.lookup g.lkey = some mr ∧
    mr.isDma = false ∧ used[k]? = some pages ∧ ∃ j ∈ pages, ∃ r : UInt64,
      e.iovBase = (mr.pages j).iovBase + r ∧ r.toNat + e.iovLen.toNat ≤ pageSize.toNat
  pages : ∀ (k : Nat) (g : IbSge) (mr : DisMr), wr.visited[k]? = some g →
    t.lookup g.lkey = some mr → UserMr mr → ∃ pages, used[k]? = some pages ∧
      (∀ j, j ∈ pages ↔
        ∃ b < g.length.toNat, j = ((sgeOffset mr g).toNat + b) / pageSize.toNat) ∧
      ((∀ j ∈ pages, j < mr.pageCount.toNat) ↔ g.length.toNat = 0 ∨
        (sgeOffset mr g).toNat + g.length.toNat ≤ mr.pageCount.toNat * pageSize.toNat) ∧
      (InRange mr g → ∀ j ∈ pages, j < mr.pageCount.toNat)

theorem postOneBody_pageUse {A : Option PageMap → Prop} {lib : SciLib} {t : MrTable} {wr : IbWr}
    {opcode : IbWcOpcode} {ibqp sciMsq : Nat} {w wqe : DisWqe} {used : List (List Nat)}
    (h : Runs A (postOneBody lib opcode ibqp sciMsq t wr) w (some used) wqe) :
    PageUse t wr wqe used := by
  obtain ⟨hall, _, rfl, w₁, hm, rfl⟩ := postOneBody_some lib t h
  refine ⟨?_, ?_⟩
  · rw [usedPages_flatten, iovEntries_mapEntries hm.valid]
    intro e he
    obtain ⟨g, hg, he⟩ := List.mem_flatMap.mp he
    obtain ⟨k, hk⟩ := List.mem_iff_getElem?.mp hg
    obtain ⟨mr, hl⟩ := Option.isSome_iff_exists.mp (hall g hg)
    have hmr : t.mrOf g = mr := by simp [MrTable.mrOf, hl]
    have huser : mr.isDma = false := by
      by_contra hd
      rw [Bool.not_eq_false] at hd
      simp [sgeMapOf, hmr, hd, DisSgeMap.entries, dmaSgeMap] at he
    have hmap : sgeMapOf t g = userSgeMap mr g := by
      simp [sgeMapOf, hmr, huser]
    rw [hmap] at he
    obtain ⟨_, j, hj, r, hbase, hin⟩ := userEntries_entry he
    exact ⟨k, g, mr, _, hk, hl, huser, by simp [hk, hmap], j, hj, r, hbase, hin⟩
  · intro k g mr hk hl hu
    have hmr : t.mrOf g = mr := by simp [MrTable.mrOf, hl]
    have hmap : sgeMapOf t g = userSgeMap mr g := by
      simp [sgeMapOf, hmr, (userMr_layout hu).1]
    refine ⟨(userSgeMap mr g).usedPages, by simp [hk, hmap], fun j => mem_usedPages_iff,
      usedPages_lt_iff _, ?_⟩
    intro hr
    exact (usedPages_lt_iff _).mpr (.inr (inRange_offset hu hr).2)

/-- Sixteen bytes behind the registered segment, across the end of its last page. -/
def overrunWr : IbWr := ⟨8, [⟨0x8ff8, 16, 0⟩], 1, by decide⟩

end DisKverbs
