import DisKverbs.WriteBounds
import Mathlib.Order.Interval.Finset.Nat

namespace DisKverbs

open CellProg CircBuf

/-- A user SGE whose range is not empty and does not end at the end of a page. -/
def EndsInPage (mr : DisMr) (g : IbSge) : Prop :=
  0 < g.length.toNat ∧ ((sgeOffset mr g).toNat + g.length.toNat) % 4096 ≠ 0

/-- A user SGE that ends before the end of the page it starts in. -/
def InOnePage (mr : DisMr) (g : IbSge) : Prop :=
  (sgeOffset mr g).toNat % 4096 + g.length.toNat < 4096

/-- The counts of the first loop are exact, and no SGE on a DMA MR meets the chunks of another. -/
structure ExactCount (t : MrTable) (gs : List IbSge) : Prop where
  ends : ∀ g ∈ gs, (t.mrOf g).isDma = false → EndsInPage (t.mrOf g) g
  mixed : ∀ (i j : Nat) (g g' : IbSge), gs[i]? = some g → (t.mrOf g).isDma = true → gs[j]? = some g' →
    (t.mrOf g').isDma = false → j < i ∧ InOnePage (t.mrOf g') g'

/-- The stores of a post fill the list it hands over: they write every counted entry, and
as many entries as were counted. -/
structure FillsList (wqe : DisWqe) (ws : List WqeStore) : Prop where
  entries : ∀ k < wqe.sciMsg.iovlen, ∀ f, (wqe.sciMsg.iov.add k, f) ∈ iovFields ws
  count : ((iovFields ws).map Prod.fst).toFinset.card = wqe.sciMsg.iovlen

section

variable {t : MrTable}

/-- The chunks a list of SGEs is cut into. -/
def chunkTotal (t : MrTable) (gs : List IbSge) : Nat :=
  (gs.flatMap fun g => (sgeMapOf t g).entries).length

theorem chunkTotal_cons (g : IbSge) (gs : List IbSge) :
    chunkTotal t (g :: gs) = (sgeMapOf t g).entries.length + chunkTotal t gs := by
  simp [chunkTotal]

theorem chunkTotal_append (gs hs : List IbSge) :
    chunkTotal t (gs ++ hs) = chunkTotal t gs + chunkTotal t hs := by
  simp [chunkTotal]

theorem iovTotal_cons (g : IbSge) (gs : List IbSge) :
    iovTotal t (g :: gs) = sgeCount t g + iovTotal t gs := by
  simp [iovTotal]

theorem dma_counts {g : IbSge} (hd : (t.mrOf g).isDma = true) :
    (sgeMapOf t g).entries.length = 0 ∧ sgeCount t g = 1 := by
  simp [sgeMapOf, sgeCount, hd, DisSgeMap.entries, dmaSgeMap]

/-- The formula of the first loop is one too high exactly for the ranges left out. -/
theorem user_counts {g : IbSge} (hd : (t.mrOf g).isDma = false) :
    (sgeMapOf t g).entries.length = sgeCount t g ↔ EndsInPage (t.mrOf g) g := by
  have hc : sgeCount t g = (userSgeMap (t.mrOf g) g).pageCount.toNat := by simp [sgeCount, hd]
  have he : sgeMapOf t g = userSgeMap (t.mrOf g) g := by simp [sgeMapOf, hd]
  rw [hc, he, userEntries_length, userSgeMap_pageCount, EndsInPage]
  split <;> omega

theorem inOnePage_iff {g : IbSge} (hd : (t.mrOf g).isDma = false)
    (he : EndsInPage (t.mrOf g) g) :
    InOnePage (t.mrOf g) g ↔ (sgeMapOf t g).entries.length ≤ 1 := by
  have hm : sgeMapOf t g = userSgeMap (t.mrOf g) g := by simp [sgeMapOf, hd]
  obtain ⟨hpos, hend⟩ := he
  rw [hm, userEntries_length, InOnePage]
  split <;> omega

theorem chunk_pos {g : IbSge} (hd : (t.mrOf g).isDma = false)
    (he : EndsInPage (t.mrOf g) g) : 1 ≤ (sgeMapOf t g).entries.length := by
  have hc : sgeCount t g = (userSgeMap (t.mrOf g) g).pageCount.toNat := by simp [sgeCount, hd]
  rw [(user_counts hd).mpr he, hc, userSgeMap_pageCount]
  omega

/-- The chunks and the DMA entries make up the count, up to the ranges counted too high. -/
theorem counts_le (i : Nat) (gs : List IbSge) :
    (dmaPtrs t i gs).length + chunkTotal t gs ≤ iovTotal t gs := by
  induction gs generalizing i with
  | nil => simp [dmaPtrs, chunkTotal, iovTotal]
  | cons g gs ih =>
    have hrest := ih (i + 1)
    rw [chunkTotal_cons, iovTotal_cons, dmaPtrs]
    split
    next hd =>
      have := dma_counts hd
      simp only [List.length_cons]
      omega
    next hd =>
      have := entries_le_count t g
      omega

theorem counts_eq_iff (i : Nat) (gs : List IbSge) :
    (dmaPtrs t i gs).length + chunkTotal t gs = iovTotal t gs ↔
      ∀ g ∈ gs, (t.mrOf g).isDma = false → EndsInPage (t.mrOf g) g := by
  induction gs generalizing i with
  | nil => simp [dmaPtrs, chunkTotal, iovTotal]
  | cons g gs ih =>
    have hrest := counts_le (t := t) (i + 1) gs
    rw [chunkTotal_cons, iovTotal_cons, dmaPtrs, List.forall_mem_cons, ← ih (i + 1)]
    cases hd : (t.mrOf g).isDma with
    | true =>
      have := dma_counts hd
      simp only [if_true, List.length_cons]
      constructor
      · intro h
        exact ⟨by simp, by omega⟩
      · rintro ⟨_, h⟩
        omega
    | false =>
      have hle := entries_le_count t g
      simp only [Bool.false_eq_true, if_false, ← user_counts hd, true_implies]
      constructor
      · intro h
        exact ⟨by omega, by omega⟩
      · rintro ⟨h, h'⟩
        omega

theorem iovTotal_ones {gs : List IbSge} (h : ∀ g ∈ gs, sgeCount t g = 1) :
    iovTotal t gs = gs.length := by
  induction gs with
  | nil => rfl
  | cons g gs ih =>
    have hg := h g (by simp)
    have hrest := ih fun g' hm => h g' (by simp [hm])
    rw [iovTotal_cons, List.length_cons]
    omega

theorem chunkTotal_ones {gs : List IbSge} (h : ∀ g ∈ gs, (sgeMapOf t g).entries.length = 1) :
    chunkTotal t gs = gs.length := by
  induction gs with
  | nil => rfl
  | cons g gs ih =>
    have hg := h g (by simp)
    have hrest := ih fun g' hm => h g' (by simp [hm])
    rw [chunkTotal_cons, List.length_cons]
    omega

theorem chunkTotal_users {gs : List IbSge}
    (h : ∀ g ∈ gs, (t.mrOf g).isDma = false ∧ EndsInPage (t.mrOf g) g) :
    gs.length ≤ chunkTotal t gs := by
  induction gs with
  | nil => simp
  | cons g gs ih =>
    obtain ⟨hd, he⟩ := h g (by simp)
    have hpos := chunk_pos hd he
    have hrest := ih fun g' hm => h g' (by simp [hm])
    rw [chunkTotal_cons, List.length_cons]
    omega

theorem chunks_one {gs : List IbSge}
    (h : ∀ g ∈ gs, (t.mrOf g).isDma = false ∧ EndsInPage (t.mrOf g) g)
    (hle : chunkTotal t gs ≤ gs.length) : ∀ g ∈ gs, (sgeMapOf t g).entries.length ≤ 1 := by
  intro g hg
  obtain ⟨us, vs, rfl⟩ := List.append_of_mem hg
  have hus : us.length ≤ chunkTotal t us := chunkTotal_users fun u hu => h u (by simp [hu])
  have hvs : vs.length ≤ chunkTotal t vs := chunkTotal_users fun v hv => h v (by simp [hv])
  rw [chunkTotal_append, chunkTotal_cons, List.length_append, List.length_cons] at hle
  omega

/-- The SGEs before the first one on a DMA MR. -/
theorem first_dma {gs : List IbSge} (h : ∃ g ∈ gs, (t.mrOf g).isDma = true) :
    ∃ us g rest, gs = us ++ g :: rest ∧ (t.mrOf g).isDma = true ∧
      ∀ u ∈ us, (t.mrOf u).isDma = false := by
  cases hf : gs.find? (fun g => (t.mrOf g).isDma) with
  | none =>
    obtain ⟨g, hg, hd⟩ := h
    exact absurd hd (by simpa using List.find?_eq_none.mp hf g hg)
  | some g =>
    obtain ⟨hd, us, rest, he, hus⟩ := List.find?_eq_some_iff_append.mp hf
    exact ⟨us, g, rest, he, hd, fun u hu => by simpa using hus u hu⟩

theorem ExactCount.ones {gs : List IbSge} (h : ExactCount t gs)
    (hdma : ∃ g ∈ gs, (t.mrOf g).isDma = true) : ∀ g ∈ gs, sgeCount t g = 1 := by
  intro g hg
  cases hd : (t.mrOf g).isDma with
  | true => exact (dma_counts hd).2
  | false =>
    obtain ⟨g', hg', hd'⟩ := hdma
    obtain ⟨i, hi⟩ := List.mem_iff_getElem?.mp hg'
    obtain ⟨j, hj⟩ := List.mem_iff_getElem?.mp hg
    have he := h.ends g hg hd
    have hpos := chunk_pos hd he
    have hone := (inOnePage_iff hd he).mp (h.mixed i j g' g hi hd' hj hd).2
    rw [← (user_counts hd).mpr he]
    omega

/-- Entries written at the front and at the places of the DMA SGEs cover the count only if no
count exceeds the chunks of its SGE and no chunk comes to the place of a DMA SGE. -/
theorem covered_past {gs : List IbSge} (h : ∀ k < iovTotal t gs,
    k < chunkTotal t gs ∨ IovPtr.static k ∈ dmaPtrs t 0 gs) :
    (∀ g ∈ gs, (t.mrOf g).isDma = false → EndsInPage (t.mrOf g) g) ∧
      ∀ k, IovPtr.static k ∈ dmaPtrs t 0 gs → chunkTotal t gs ≤ k := by
  have hle := counts_le (t := t) 0 gs
  have hsub : (Finset.Ico (chunkTotal t gs) (iovTotal t gs)).image IovPtr.static ⊆
      (dmaPtrs t 0 gs).toFinset := by
    intro p hp
    obtain ⟨k, hk, rfl⟩ := Finset.mem_image.mp hp
    obtain ⟨hlo, hhi⟩ := Finset.mem_Ico.mp hk
    have hk := (h k hhi).resolve_left (by omega)
    exact List.mem_toFinset.mpr hk
  have hcard : ((Finset.Ico (chunkTotal t gs) (iovTotal t gs)).image IovPtr.static).card =
      iovTotal t gs - chunkTotal t gs := by
    rw [Finset.card_image_of_injective _ fun a b he => IovPtr.static.inj he, Nat.card_Ico]
  have hdup := (dmaPtrs t 0 gs).toFinset_card_le
  have hmin := Finset.card_le_card hsub
  have hall : (Finset.Ico (chunkTotal t gs) (iovTotal t gs)).image IovPtr.static =
      (dmaPtrs t 0 gs).toFinset := Finset.eq_of_subset_of_card_le hsub (by omega)
  refine ⟨(counts_eq_iff (t := t) 0 gs).mp (by omega), ?_⟩
  intro k hk
  rw [← List.mem_toFinset, ← hall] at hk
  obtain ⟨k', hk', he⟩ := Finset.mem_image.mp hk
  rw [← IovPtr.static.inj he]
  exact (Finset.mem_Ico.mp hk').1

/-- Where all chunks come before the place of the first DMA SGE, no user SGE follows it and each
before it has one chunk. -/
theorem dma_last {us rest : List IbSge} {d : IbSge}
    (hends : ∀ g ∈ us ++ d :: rest, (t.mrOf g).isDma = false → EndsInPage (t.mrOf g) g)
    (hus : ∀ u ∈ us, (t.mrOf u).isDma = false)
    (hfirst : chunkTotal t (us ++ d :: rest) ≤ us.length) :
    (∀ u ∈ d :: rest, (t.mrOf u).isDma = true) ∧ ∀ u ∈ us, InOnePage (t.mrOf u) u := by
  have husers : ∀ u ∈ us, (t.mrOf u).isDma = false ∧ EndsInPage (t.mrOf u) u :=
    fun u hu => ⟨hus u hu, hends u (by simp [hu]) (hus u hu)⟩
  have hlen := chunkTotal_users husers
  rw [chunkTotal_append] at hfirst
  refine ⟨fun u hu => ?_, fun u hu => ?_⟩
  · by_contra hdu
    obtain ⟨vs, ws, hsplit⟩ := List.append_of_mem hu
    have hpos := chunk_pos (by simpa using hdu)
      (hends u (List.mem_append_right us hu) (by simpa using hdu))
    rw [hsplit, chunkTotal_append, chunkTotal_cons] at hfirst
    omega
  · have hone := chunks_one husers (by omega) u hu
    exact (inOnePage_iff (hus u hu) (husers u hu).2).mpr hone

/-- The entries are covered only if the DMA SGEs come last. -/
theorem covered_exact {gs : List IbSge} (h : ∀ k < iovTotal t gs,
    k < chunkTotal t gs ∨ IovPtr.static k ∈ dmaPtrs t 0 gs) : ExactCount t gs := by
  obtain ⟨hends, hpast⟩ := covered_past h
  refine ⟨hends, ?_⟩
  intro i j g g' hi hd hj hd'
  obtain ⟨us, d, rest, rfl, hdd, hus⟩ := first_dma ⟨g, List.mem_of_getElem? hi, hd⟩
  have hmem : IovPtr.static us.length ∈ dmaPtrs t 0 (us ++ d :: rest) :=
    mem_dmaPtrs.mpr ⟨us.length, d, by simp, hdd, by rw [Nat.zero_add]⟩
  obtain ⟨hlast, hone⟩ := dma_last hends hus (hpast us.length hmem)
  have hji : j < us.length := by
    by_contra hge
    rw [List.getElem?_append_right (by omega)] at hj
    have := hlast g' (List.mem_of_getElem? hj)
    simp [hd'] at this
  have hii : us.length ≤ i := by
    by_contra hlt
    rw [List.getElem?_append_left (by omega)] at hi
    have := hus g (List.mem_of_getElem? hi)
    simp [hd] at this
  rw [List.getElem?_append_left hji] at hj
  exact ⟨by omega, hone g' (List.mem_of_getElem? hj)⟩

/-- Where the counts are exact, the first loop and the second together write every entry. -/
theorem ExactCount.covered {gs : List IbSge} (h : ExactCount t gs) {k : Nat}
    (hk : k < iovTotal t gs) : k < chunkTotal t gs ∨ IovPtr.static k ∈ dmaPtrs t 0 gs := by
  have heq := (counts_eq_iff 0 gs).mpr h.ends
  by_cases hdma : ∃ g ∈ gs, (t.mrOf g).isDma = true
  · obtain ⟨us, d, rest, rfl, hdd, hus⟩ := first_dma hdma
    have hlen := iovTotal_ones (h.ones hdma)
    have husers := chunkTotal_users fun u hu =>
      ⟨hus u hu, h.ends u (by simp [hu]) (hus u hu)⟩
    by_cases hlt : k < us.length
    · rw [chunkTotal_append]
      exact .inl (by omega)
    · right
      have hb : k < (us ++ d :: rest).length := by omega
      have hg := List.getElem?_eq_getElem hb
      have hd : (t.mrOf (us ++ d :: rest)[k]).isDma = true := by
        by_contra hd
        have := (h.mixed us.length k d _ (by simp) hdd hg (by simpa using hd)).1
        omega
      exact mem_dmaPtrs.mpr ⟨k, _, hg, hd, by rw [Nat.zero_add]⟩
  · have hnil : dmaPtrs t 0 gs = [] := by
      refine List.eq_nil_iff_forall_not_mem.mpr ?_
      intro p hp
      obtain ⟨j, g, hj, hd, _⟩ := mem_dmaPtrs.mp hp
      exact hdma ⟨g, List.mem_of_getElem? hj, hd⟩
    rw [hnil, List.length_nil] at heq
    exact .inl (by omega)

end

/-- The list an accepted post hands over. -/
theorem postOneBody_list {A : Option PageMap → Prop} {lib : SciLib} {t : MrTable}
    {opcode : IbWcOpcode} {ibqp sciMsq : Nat} {wr : IbWr} {w w' : DisWqe} {used : List (List Nat)}
    (h : Runs A (postOneBody lib opcode ibqp sciMsq t wr) w (some used) w') :
    w'.sciMsg.iovlen = iovTotal t wr.visited ∧
      w'.sciMsg.iov = if iovTotal t wr.visited ≤ disSgePerWqe then .static 0 else .dynamic 0 := by
  obtain ⟨_, _, _, w₁, hm, rfl⟩ := postOneBody_some lib t h
  have hlen : w₁.sciMsg.iovlen = iovTotal t wr.visited := hm.iovlen rfl
  refine ⟨by rw [mapEntries_sciMsg, hlen], ?_⟩
  rw [mapEntries_sciMsg]
  rcases hm with ⟨hle, rfl⟩ | ⟨buf, hlt, _, rfl⟩
  · rw [if_pos hle]
    rfl
  · rw [if_neg (by omega)]
    rfl

theorem wholeEntries_ptrs (ps : List IovPtr) :
    ((wholeEntries ps).map Prod.fst).toFinset = ps.toFinset := by
  ext p
  simp only [List.mem_toFinset, List.mem_map, Prod.exists, exists_and_right, exists_eq_right]
  constructor
  · rintro ⟨f, hf⟩
    exact mem_wholeEntries.mp hf
  · intro hp
    exact ⟨.base, mem_wholeEntries.mpr hp⟩

section

variable {t : MrTable} {gs : List IbSge} {iov : IovPtr}
  (hiov : iov = if iovTotal t gs ≤ disSgePerWqe then .static 0 else .dynamic 0)

include hiov

theorem iov_add_cases (k : Nat) : iov.add k = .static k ∧ iovTotal t gs ≤ disSgePerWqe ∨
    iov.add k = .dynamic k ∧ disSgePerWqe < iovTotal t gs := by
  subst hiov
  split
  next h => exact .inl ⟨congrArg IovPtr.static (Nat.zero_add k), h⟩
  next h => exact .inr ⟨congrArg IovPtr.dynamic (Nat.zero_add k), by omega⟩

/-- The pointers that a post writes through, as entries of the list it hands over. -/
theorem written_iff (hn : gs.length ≤ disSgePerWqe) :
    (∀ k < iovTotal t gs, iov.add k ∈
      dmaPtrs t 0 gs ++ (List.range (chunkTotal t gs)).map (iov.add ·)) ↔ ExactCount t gs := by
  constructor
  · intro h
    refine covered_exact fun k hk => ?_
    rcases List.mem_append.mp (h k hk) with hp | hp
    · rcases iov_add_cases hiov k with ⟨he, _⟩ | ⟨he, _⟩
      · exact .inr (he ▸ hp)
      · rw [he] at hp
        obtain ⟨_, _, _, _, hs⟩ := mem_dmaPtrs.mp hp
        cases hs
    · obtain ⟨j, hj, he⟩ := List.mem_map.mp hp
      have hjk : j = k := by
        by_contra hne
        exact add_ne (p := iov) (by subst hiov; split <;> simp) hne he
      exact .inl (hjk ▸ List.mem_range.mp hj)
  · intro h k hk
    rcases h.covered hk with hc | hc
    · exact List.mem_append_right _ (List.mem_map_of_mem (List.mem_range.mpr hc))
    · obtain ⟨j, g, hj, hd, he⟩ := mem_dmaPtrs.mp hc
      have hlen := iovTotal_ones (h.ones ⟨g, List.mem_of_getElem? hj, hd⟩)
      rcases iov_add_cases hiov k with ⟨hs, _⟩ | ⟨_, hgt⟩
      · rw [hs]
        exact List.mem_append_left _ hc
      · omega

theorem written_eq (hn : gs.length ≤ disSgePerWqe) (h : ExactCount t gs) :
    (dmaPtrs t 0 gs ++ (List.range (chunkTotal t gs)).map (iov.add ·)).toFinset =
      (Finset.range (iovTotal t gs)).image (iov.add ·) := by
  have hle := counts_le (t := t) 0 gs
  ext p
  rw [List.mem_toFinset, Finset.mem_image]
  constructor
  · intro hp
    rcases List.mem_append.mp hp with hp | hp
    · obtain ⟨j, g, hj, hd, rfl⟩ := mem_dmaPtrs.mp hp
      have hlen := iovTotal_ones (h.ones ⟨g, List.mem_of_getElem? hj, hd⟩)
      have hb := (List.getElem?_eq_some_iff.mp hj).1
      rcases iov_add_cases hiov j with ⟨hs, _⟩ | ⟨_, hgt⟩
      · exact ⟨j, Finset.mem_range.mpr (by omega), by rw [hs, Nat.zero_add]⟩
      · omega
    · obtain ⟨k, hk, rfl⟩ := List.mem_map.mp hp
      have := List.mem_range.mp hk
      exact ⟨k, Finset.mem_range.mpr (by omega), rfl⟩
  · rintro ⟨k, hk, rfl⟩
    exact (written_iff hiov hn).mpr h k (Finset.mem_range.mp hk)

end

/-- A post fills exactly the list it hands over unless a range is empty or ends with a page, or
a DMA SGE stands before a user SGE or beside one of several pages. -/
theorem disQpPostOne_fills_iff (lib : SciLib) (type : DisWqType) (t : MrTable)
    (kmalloc : Option PageMap) (wq : DisWq) (wr : IbWr)
    (hret : (disQpPostOne lib type t kmalloc wq wr).ret = 0) :
    FillsList ((disQpPostOne lib type t kmalloc wq wr).wq.buf wq.head)
      (disQpPostOneStores lib type t kmalloc wq wr) ↔ ExactCount t wr.visited := by
  obtain ⟨hs, hr⟩ := disQpPostOne_slot hret
  obtain ⟨hlen, hiov⟩ := postOneBody_list hr
  have hf := postOneBody_fields hr
  have hstores : disQpPostOneStores lib type t kmalloc wq wr = (postOneBody lib type.opcode wq.ibqp
      wq.sciMsq t wr).stores kmalloc (wq.buf wq.head) := if_neg hs
  have hn := visited_length wr
  rw [hstores]
  constructor
  · rintro ⟨hentries, _⟩
    refine (written_iff hiov hn).mp fun k hk => ?_
    have := hentries k (by rw [hlen]; exact hk) .base
    rw [hf] at this
    exact mem_wholeEntries.mp this
  · intro h
    refine ⟨?_, ?_⟩
    · intro k hk f
      rw [hlen] at hk
      rw [hf]
      exact mem_wholeEntries.mpr ((written_iff hiov hn).mpr h k hk)
    · have hw := written_eq hiov hn h
      rw [chunkTotal] at hw
      rw [hf, wholeEntries_ptrs, hw, Finset.card_image_of_injective, Finset.card_range, hlen]
      intro a b he
      by_contra hne
      exact add_ne (by rw [hiov]; split <;> simp) hne he

theorem disQpPostOne_fills_crossing :
    FillsList ((disQpPostOne sciLib64 .rq twoPageTable none (emptyWq 2) crossingWr).wq.buf 0)
      (disQpPostOneStores sciLib64 .rq twoPageTable none (emptyWq 2) crossingWr) ↔
        ExactCount twoPageTable crossingWr.visited :=
  disQpPostOne_fills_iff sciLib64 .rq twoPageTable none (emptyWq 2) crossingWr (by decide)

/-- Sixteen bytes up to the end of a page. -/
def pageEndWr : IbWr := ⟨7, [⟨0x7ff0, 16, 0⟩], 1, by decide⟩

/-- Two entries are handed over and one was written. -/
theorem pageEnd_not_filled :
    (disQpPostOne sciLib64 .sq twoPageTable none (emptyWq 2) pageEndWr).ret = 0 ∧
      ¬ FillsList ((disQpPostOne sciLib64 .sq twoPageTable none (emptyWq 2) pageEndWr).wq.buf 0)
        (disQpPostOneStores sciLib64 .sq twoPageTable none (emptyWq 2) pageEndWr) := by
  refine ⟨by decide, fun h => ?_⟩
  have hentry := h.entries 1 (by decide) .base
  revert hentry
  decide

end DisKverbs
