import DisKverbs.FilledList

namespace DisKverbs

open CellProg CircBuf

/-- The entry that maps an SGE on a DMA MR one to one. -/
def dmaEntry (g : IbSge) : Iovec := ⟨g.addr, g.length.toUInt64⟩

/-- What an SGE stands for in the list of a WQE. -/
def sgeIovecs (t : MrTable) (g : IbSge) : List Iovec :=
  if (t.mrOf g).isDma then [dmaEntry g] else (userSgeMap (t.mrOf g) g).entries

/-- The addresses of an SGE, in order: from its address on, or through the pages of its MR. -/
def sgeAddrs (t : MrTable) (g : IbSge) : List UInt64 :=
  (List.range g.length.toNat).map fun k =>
    if (t.mrOf g).isDma then g.addr + UInt64.ofNat k
    else pageByte (t.mrOf g).pages 0 ((sgeOffset (t.mrOf g) g).toNat + k)

/-- The list of a WQE is the concatenation of its SGEs, in order. -/
structure ListsSges (t : MrTable) (gs : List IbSge) (wqe : DisWqe) : Prop where
  entries : wqe.iovEntries wqe.sciMsg.iovlen = gs.flatMap (sgeIovecs t)
  bytes : (wqe.iovEntries wqe.sciMsg.iovlen).flatMap Iovec.bytes = gs.flatMap (sgeAddrs t)

/-- The SGEs on user MRs come first, and each is a range that ends inside the page it starts in. -/
structure UsersFirst (t : MrTable) (gs : List IbSge) : Prop where
  order : ∀ (i j : Nat) (g g' : IbSge), gs[i]? = some g → (t.mrOf g).isDma = true →
    gs[j]? = some g' → (t.mrOf g').isDma = false → j < i
  onePage : ∀ g ∈ gs, (t.mrOf g).isDma = false → 0 < g.length.toNat ∧ InOnePage (t.mrOf g) g

section

variable {t : MrTable} {gs : List IbSge}

theorem sgeIovecs_bytes (t : MrTable) (g : IbSge) :
    (sgeIovecs t g).flatMap Iovec.bytes = sgeAddrs t g := by
  unfold sgeIovecs sgeAddrs
  cases hd : (t.mrOf g).isDma with
  | true => simp [dmaEntry, Iovec.bytes]
  | false =>
    simp only [Bool.false_eq_true, if_false]
    exact userEntries_bytes (t.mrOf g) g

theorem exactCount_iff (hdma : ∃ g ∈ gs, (t.mrOf g).isDma = true) :
    ExactCount t gs ↔ UsersFirst t gs := by
  obtain ⟨g, hg, hd⟩ := hdma
  obtain ⟨i, hi⟩ := List.mem_iff_getElem?.mp hg
  constructor
  · intro h
    refine ⟨fun i j g g' hi hd hj hd' => (h.mixed i j g g' hi hd hj hd').1, ?_⟩
    intro g' hg' hd'
    obtain ⟨j, hj⟩ := List.mem_iff_getElem?.mp hg'
    exact ⟨(h.ends g' hg' hd').1, (h.mixed i j g g' hi hd hj hd').2⟩
  · intro h
    refine ⟨?_, ?_⟩
    · intro g' hg' hd'
      obtain ⟨hpos, hin⟩ := h.onePage g' hg' hd'
      simp only [InOnePage] at hin
      exact ⟨hpos, by omega⟩
    · intro i j g g' hi hd hj hd'
      exact ⟨h.order i j g g' hi hd hj hd', (h.onePage g' (List.mem_of_getElem? hj) hd').2⟩

theorem UsersFirst.split (h : UsersFirst t gs) (hdma : ∃ g ∈ gs, (t.mrOf g).isDma = true) :
    ∃ us ds, gs = us ++ ds ∧ (∀ u ∈ us, (t.mrOf u).isDma = false) ∧
      ∀ d ∈ ds, (t.mrOf d).isDma = true := by
  obtain ⟨us, d, rest, rfl, hd, hus⟩ := first_dma hdma
  refine ⟨us, d :: rest, rfl, hus, ?_⟩
  intro g hg
  by_contra hu
  obtain ⟨j, hj⟩ := List.mem_iff_getElem?.mp hg
  have hlater : (us ++ d :: rest)[us.length + j]? = some g := by
    rw [List.getElem?_append_right (by omega), Nat.add_sub_cancel_left]
    exact hj
  have := h.order us.length (us.length + j) d g (by simp) hd hlater (by simpa using hu)
  omega

theorem users_iovecs (h : ∀ g ∈ gs, (t.mrOf g).isDma = false) :
    (gs.flatMap fun g => (sgeMapOf t g).entries) = gs.flatMap (sgeIovecs t) := by
  refine List.flatMap_congr fun g hg => ?_
  simp [sgeMapOf, sgeIovecs, h g hg]

theorem dma_iovecs (h : ∀ g ∈ gs, (t.mrOf g).isDma = true) :
    (gs.flatMap fun g => (sgeMapOf t g).entries) = [] ∧
      gs.flatMap (sgeIovecs t) = gs.map dmaEntry := by
  induction gs with
  | nil => exact ⟨rfl, rfl⟩
  | cons g gs ih =>
    have hg := h g (by simp)
    obtain ⟨hc, he⟩ := ih fun g' hm => h g' (by simp [hm])
    have hz : (sgeMapOf t g).entries = [] := List.length_eq_zero_iff.mp (dma_counts hg).1
    have hone : sgeIovecs t g = [dmaEntry g] := by simp [sgeIovecs, hg]
    exact ⟨by simp [hz, hc], by simp [hone, he]⟩

variable {lib : SciLib} {w : DisWqe}

theorem span_static (w : DisWqe) (i : Nat) (g : IbSge) : (w.span lib t i g).pageMapStatic =
    if (t.mrOf g).isDma then Function.update w.pageMapStatic i (dmaEntry g)
    else w.pageMapStatic := by
  unfold DisWqe.span
  split
  next => rfl
  next => rfl

/-- The first loop leaves the entries alone that stand for no DMA SGE. -/
theorem spanAll_static_other {k : Nat} (i : Nat) (gs : List IbSge)
    (hk : IovPtr.static k ∉ dmaPtrs t i gs) :
    (w.spanAll lib t i gs).pageMapStatic k = w.pageMapStatic k := by
  induction gs generalizing w i with
  | nil => rfl
  | cons g gs ih =>
    rw [dmaPtrs] at hk
    rw [DisWqe.spanAll]
    split at hk
    next hd =>
      have hne : k ≠ i := by
        rintro rfl
        exact hk (by simp)
      rw [ih (i + 1) fun h => hk (List.mem_cons_of_mem _ h), span_static, if_pos hd,
        Function.update_of_ne hne]
    next hd => rw [ih (i + 1) hk, span_static, if_neg hd]

theorem spanAll_static_dma {g : IbSge} (i : Nat) (gs : List IbSge) {j : Nat}
    (hj : gs[j]? = some g) (hd : (t.mrOf g).isDma = true) :
    (w.spanAll lib t i gs).pageMapStatic (i + j) = dmaEntry g := by
  induction gs generalizing w i j with
  | nil => simp at hj
  | cons g' gs ih =>
    rw [DisWqe.spanAll]
    cases j with
    | zero =>
      cases Option.some.inj hj
      rw [spanAll_static_other, span_static, if_pos hd, Nat.add_zero, Function.update_self]
      intro hmem
      obtain ⟨j, _, _, _, he⟩ := mem_dmaPtrs.mp hmem
      have := IovPtr.static.inj he
      omega
    | succ j =>
      rw [← ih (w := w.span lib t i g') (i + 1) hj]
      congr 1
      omega

end

section

variable {A : Option PageMap → Prop} {lib : SciLib} {t : MrTable} {opcode : IbWcOpcode}
  {ibqp sciMsq : Nat} {wr : IbWr} {w w' : DisWqe} {used : List (List Nat)}
  (h : Runs A (postOneBody lib opcode ibqp sciMsq t wr) w (some used) w')

include h

/-- An entry that no loop writes still holds what it held before. -/
theorem postOneBody_stale {k : Nat} {e : Iovec} (hk : chunkTotal t wr.visited ≤ k)
    (hs : IovPtr.static k ∉ dmaPtrs t 0 wr.visited) (hw : w.pageMapStatic k = e)
    (hbuf : ∀ buf, A (some buf) → buf.entries k = e) :
    w'.deref (w'.sciMsg.iov.add k) = e := by
  obtain ⟨_, _, _, w₁, hm, rfl⟩ := postOneBody_some lib t h
  have hne : w₁.sciMsg.iov ≠ .null := by
    intro he
    have hv := hm.valid
    rw [he] at hv
    exact hv
  rw [mapEntries_sciMsg, deref_mapEntries_other]
  · rcases hm with ⟨_, rfl⟩ | ⟨buf, _, hA, rfl⟩
    · show ((w.header opcode ibqp sciMsq wr.wrId.toUInt32).spanAll lib t 0
        wr.visited).pageMapStatic (0 + k) = e
      rw [Nat.zero_add, spanAll_static_other 0 _ hs]
      exact hw
    · show buf.entries (0 + k) = e
      rw [Nat.zero_add]
      exact hbuf buf hA
  · intro j hj
    have hj' : j < chunkTotal t wr.visited := hj
    exact add_ne hne (by omega)

/-- Behind the chunks stand the entries of the DMA SGEs, each at the index of its SGE. -/
theorem postOneBody_dma {j : Nat} {g : IbSge} (hj : wr.visited[j]? = some g)
    (hd : (t.mrOf g).isDma = true) (hle : chunkTotal t wr.visited ≤ j)
    (h4 : iovTotal t wr.visited ≤ disSgePerWqe) :
    w'.deref (w'.sciMsg.iov.add j) = dmaEntry g := by
  obtain ⟨_, _, _, w₁, hm, rfl⟩ := postOneBody_some lib t h
  rcases hm with ⟨_, rfl⟩ | ⟨buf, hlt, _, _⟩
  · rw [mapEntries_sciMsg, deref_mapEntries_other]
    · show ((w.header opcode ibqp sciMsq wr.wrId.toUInt32).spanAll lib t 0
        wr.visited).pageMapStatic (0 + j) = dmaEntry g
      exact spanAll_static_dma 0 _ hj hd
    · intro k hk
      have hk' : k < chunkTotal t wr.visited := hk
      exact add_ne (by simp [WqeStore.put]) (by omega)
  · omega

theorem postOneBody_lists (hu : UsersFirst t wr.visited)
    (hdma : ∃ g ∈ wr.visited, (t.mrOf g).isDma = true) : ListsSges t wr.visited w' := by
  have hx := (exactCount_iff hdma).mpr hu
  have hones := hx.ones hdma
  have hn := iovTotal_ones hones
  have hlen := (postOneBody_list h).1
  have h4 := visited_length wr
  obtain ⟨us, ds, hsplit, hus, hds⟩ := hu.split hdma
  have hchunks : (wr.visited.flatMap fun g => (sgeMapOf t g).entries) = us.flatMap (sgeIovecs t) := by
    rw [hsplit, List.flatMap_append, users_iovecs hus, (dma_iovecs hds).1, List.append_nil]
  have hcount : chunkTotal t wr.visited = us.length := by
    have husers : chunkTotal t us = us.length := by
      refine chunkTotal_ones fun u hu => ?_
      have hmem : u ∈ wr.visited := by simp [hsplit, hu]
      rw [(user_counts (hus u hu)).mpr (hx.ends u hmem (hus u hu))]
      exact hones u hmem
    have hzero : chunkTotal t ds = 0 := by rw [chunkTotal, (dma_iovecs hds).1, List.length_nil]
    rw [hsplit, chunkTotal_append, husers, hzero, Nat.add_zero]
  have hfront : w'.iovEntries us.length = us.flatMap (sgeIovecs t) := by
    obtain ⟨_, _, _, w₁, hm, rfl⟩ := postOneBody_some lib t h
    rw [← hcount, chunkTotal, iovEntries_mapEntries hm.valid, hchunks]
  have hback : (List.range ds.length).map
      (fun k => w'.deref (w'.sciMsg.iov.add (us.length + k))) = ds.map dmaEntry := by
    apply List.ext_getElem (by simp)
    intro k hk _
    have hb : k < ds.length := by simpa using hk
    have hj : wr.visited[us.length + k]? = some ds[k] := by
      rw [hsplit, List.getElem?_append_right (by omega), Nat.add_sub_cancel_left]
      exact List.getElem?_eq_getElem hb
    simpa using postOneBody_dma h hj (hds _ (List.getElem_mem hb)) (by omega)
      (by rw [hn]; exact h4)
  have hentries : w'.iovEntries w'.sciMsg.iovlen = wr.visited.flatMap (sgeIovecs t) := by
    have hsum : w'.sciMsg.iovlen = us.length + ds.length := by rw [hlen, hn, hsplit, List.length_append]
    rw [hsum, DisWqe.iovEntries, List.range_add, List.map_append, List.map_map]
    rw [DisWqe.iovEntries] at hfront
    rw [hfront]
    show _ ++ (List.range ds.length).map (fun k => w'.deref (w'.sciMsg.iov.add (us.length + k))) = _
    rw [hback, hsplit, List.flatMap_append, (dma_iovecs hds).2]
  refine ⟨hentries, ?_⟩
  rw [hentries, List.flatMap_assoc]
  exact List.flatMap_congr fun g _ => sgeIovecs_bytes t g

end

/-- An answer of `kmalloc` with other contents. -/
def refill (kmalloc : Option PageMap) (contents : Nat → Iovec) : Option PageMap :=
  kmalloc.map fun m => { m with entries := contents }

def DisWq.withSlot (wq : DisWq) (slot : DisWqe) : DisWq :=
  { wq with buf := Function.update wq.buf wq.head slot }

/-- Whether a post succeeds does not depend on what its slot and its new page map held. -/
theorem disQpPostOne_refill {lib : SciLib} {type : DisWqType} {t : MrTable}
    {kmalloc : Option PageMap} {wq : DisWq} {wr : IbWr}
    (hret : (disQpPostOne lib type t kmalloc wq wr).ret = 0) (slot : DisWqe)
    (contents : Nat → Iovec) :
    (disQpPostOne lib type t (refill kmalloc contents) (wq.withSlot slot) wr).ret = 0 := by
  rw [disQpPostOne_zero_iff] at hret ⊢
  obtain ⟨hs, hkeys, hcount, hstore⟩ := hret
  refine ⟨hs, hkeys, hcount, ?_⟩
  intro hlt
  have hsome := hstore hlt
  rw [refill, Option.isSome_map]
  exact hsome

/-- A mixed list of SGEs comes out in order, whatever the slot and the page map held before,
exactly when its user SGEs stand first and each within a page. -/
theorem disQpPostOne_lists_iff (lib : SciLib) (type : DisWqType) (t : MrTable)
    (kmalloc : Option PageMap) (wq : DisWq) (wr : IbWr) (hn : wr.numSge = wr.sgList.length)
    (h4 : wr.sgList.length ≤ 4) (hdma : ∃ g ∈ wr.sgList, (t.mrOf g).isDma = true)
    (hret : (disQpPostOne lib type t kmalloc wq wr).ret = 0) :
    (∀ slot contents, ListsSges t wr.sgList
      ((disQpPostOne lib type t (refill kmalloc contents) (wq.withSlot slot) wr).wq.buf wq.head)) ↔
      UsersFirst t wr.sgList := by
  have hv := visited_eq hn h4
  rw [← hv] at hdma ⊢
  have hrun : ∀ slot contents, Runs (· = refill kmalloc contents)
      (postOneBody lib type.opcode wq.ibqp wq.sciMsq t wr) slot
      (some (disQpPostOne lib type t (refill kmalloc contents) (wq.withSlot slot) wr).used)
      ((disQpPostOne lib type t (refill kmalloc contents) (wq.withSlot slot) wr).wq.buf wq.head) := by
    intro slot contents
    have hr := (disQpPostOne_slot (disQpPostOne_refill hret slot contents)).2
    have hslot : (wq.withSlot slot).buf wq.head = slot := Function.update_self ..
    rw [show (wq.withSlot slot).head = wq.head from rfl, hslot] at hr
    exact hr
  constructor
  · intro h
    refine (exactCount_iff hdma).mp (covered_exact fun k hk => ?_)
    by_contra hnot
    obtain ⟨hge, hs⟩ := not_or.mp hnot
    have content : ∀ e : Iovec, (wr.visited.flatMap (sgeIovecs t))[k]? = some e := by
      intro e
      have hr := hrun { (default : DisWqe) with pageMapStatic := fun _ => e } fun _ => e
      have hl := (h { (default : DisWqe) with pageMapStatic := fun _ => e } fun _ => e).entries
      have hstale := postOneBody_stale hr (by omega) hs rfl (by
        intro buf hbuf
        obtain ⟨m, _, rfl⟩ := Option.map_eq_some_iff.mp hbuf.symm
        rfl)
      rw [← hl, (postOneBody_list hr).1, DisWqe.iovEntries, List.getElem?_map,
        List.getElem?_range hk]
      exact congrArg some hstale
    have h0 := content ⟨0, 0⟩
    rw [content ⟨1, 0⟩] at h0
    cases h0
  · intro hu slot contents
    exact postOneBody_lists (hrun slot contents) hu hdma

/-- A PD with the segment of two pages under key 0 and a DMA MR under key 1. -/
def mixedTable : MrTable :=
  match disRegUserMr twoPageEnv 0x1100 0x1000 0x7100 emptyPd emptyKernel with
  | (_, pd, k) =>
    match disGetDmaMr true pd k with
    | (_, pd, k) => ⟨pd.mrList, k.mr⟩

def userFirstWr : IbWr := ⟨7, [⟨0x7200, 8, 0⟩, ⟨0x9000, 64, 1⟩], 2, by decide⟩

def dmaFirstWr : IbWr := ⟨7, [⟨0x9000, 64, 1⟩, ⟨0x7200, 8, 0⟩], 2, by decide⟩

theorem disQpPostOne_lists_userFirst :
    (∀ slot contents, ListsSges mixedTable userFirstWr.sgList
      ((disQpPostOne sciLib64 .sq mixedTable (refill none contents)
        ((emptyWq 2).withSlot slot) userFirstWr).wq.buf 0)) ↔
      UsersFirst mixedTable userFirstWr.sgList :=
  disQpPostOne_lists_iff sciLib64 .sq mixedTable none (emptyWq 2) userFirstWr rfl (by decide)
    ⟨⟨0x9000, 64, 1⟩, by simp [userFirstWr], by decide⟩ (by decide)

/-- The chunk of the second SGE takes the place of the entry of the first one. -/
theorem dmaFirst_overwritten :
    (disQpPostOne sciLib64 .sq mixedTable none (emptyWq 2) dmaFirstWr).ret = 0 ∧
      ¬ ListsSges mixedTable dmaFirstWr.sgList
        ((disQpPostOne sciLib64 .sq mixedTable none (emptyWq 2) dmaFirstWr).wq.buf 0) := by
  refine ⟨by decide, fun h => ?_⟩
  have hentries := h.entries
  revert hentries
  decide

end DisKverbs
