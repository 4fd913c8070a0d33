import DisKverbs.ScatterGather

namespace DisKverbs

open CellProg CircBuf

/-- The key of the SGE names a registered user MR and the SGE lies inside it. -/
def Names (t : MrTable) (g : IbSge) : Prop :=
  ∃ mr, t.lookup g.lkey = some mr ∧ UserMr mr ∧ InRange mr g

section

variable {A : Option PageMap → Prop} {lib : SciLib} {t : MrTable} {wr : IbWr} {g : IbSge}

theorem Names.mrOf (h : Names t g) : UserMr (t.mrOf g) ∧ InRange (t.mrOf g) g := by
  obtain ⟨mr, hl, hu, hr⟩ := h
  have hm : t.mrOf g = mr := by simp [MrTable.mrOf, hl]
  rw [hm]
  exact ⟨hu, hr⟩

theorem Names.notDma (h : Names t g) : (t.mrOf g).isDma = false := (userMr_layout h.mrOf.1).1

theorem Names.sgeMapOf (h : Names t g) : sgeMapOf t g = userSgeMap (t.mrOf g) g := by
  simp [DisKverbs.sgeMapOf, h.notDma]

theorem Names.sgeCount (h : Names t g) :
    sgeCount t g = (userSgeMap (t.mrOf g) g).pageCount.toNat := by
  simp [DisKverbs.sgeCount, h.notDma]

theorem Names.bytes (h : Names t g) :
    (userSgeMap (t.mrOf g) g).entries.flatMap Iovec.bytes = sgeBytes (t.mrOf g) g := by
  rw [userEntries_bytes, (inRange_offset h.mrOf.1 h.mrOf.2).1]
  rfl

theorem Names.page_lt (h : Names t g) {j : Nat}
    (hj : j ∈ (userSgeMap (t.mrOf g) g).usedPages) : j < (t.mrOf g).pageCount.toNat := by
  have hin := (inRange_offset h.mrOf.1 h.mrOf.2).2
  have := mem_usedPages hj
  omega

theorem visited_eq (hn : wr.numSge = wr.sgList.length) (h4 : wr.sgList.length ≤ 4) :
    wr.visited = wr.sgList := by
  rw [IbWr.visited, hn, List.take_of_length_le]
  simp only [disSgePerWqe]
  omega

theorem sgeLength_le (h : Names t g) : g.length.toNat + 1 ≤ sgeCount t g * 4096 := by
  rw [h.sgeCount, userSgeMap_pageCount]
  omega

theorem sgeLengths_le {gs : List IbSge} (hs : ∀ g ∈ gs, Names t g) :
    (gs.map fun g => g.length.toNat).sum ≤ iovTotal t gs * 4096 := by
  induction gs with
  | nil => simp [iovTotal]
  | cons g gs ih =>
    have hg := sgeLength_le (hs g (by simp))
    have hrest := ih fun g hm => hs g (by simp [hm])
    simp only [iovTotal, List.map_cons, List.sum_cons] at hrest ⊢
    omega

theorem sgeBytes_length (mr : DisMr) (g : IbSge) : (sgeBytes mr g).length = g.length.toNat := by
  simp [sgeBytes]

theorem sgeBytes_lengths (gs : List IbSge) :
    (gs.flatMap fun g => sgeBytes (t.mrOf g) g).length =
      (gs.map fun g => g.length.toNat).sum := by
  simp [List.length_flatMap, sgeBytes_length]

theorem usedPages_flatten {gs : List IbSge} :
    (gs.map fun g => (sgeMapOf t g).usedPages).flatten.length =
      (gs.flatMap fun g => (sgeMapOf t g).entries).length := by
  induction gs with
  | nil => rfl
  | cons g gs ih => simpa [DisSgeMap.usedPages] using ih

theorem entries_length_le {gs : List IbSge} (hs : ∀ g ∈ gs, Names t g) :
    (gs.flatMap fun g => (sgeMapOf t g).entries).length ≤ iovTotal t gs := by
  induction gs with
  | nil => simp
  | cons g gs ih =>
    have hg := hs g (by simp)
    have hle := userEntries_le (t.mrOf g) g
    have hrest := ih fun g hm => hs g (by simp [hm])
    rw [← hg.sgeCount] at hle
    simp only [List.flatMap_cons, List.length_append, hg.sgeMapOf, iovTotal, List.map_cons,
      List.sum_cons] at hrest ⊢
    omega

theorem entries_bytes {gs : List IbSge} (hs : ∀ g ∈ gs, Names t g) :
    (gs.flatMap fun g => (sgeMapOf t g).entries).flatMap Iovec.bytes =
      gs.flatMap fun g => sgeBytes (t.mrOf g) g := by
  induction gs with
  | nil => rfl
  | cons g gs ih =>
    have hg := hs g (by simp)
    rw [List.flatMap_cons, List.flatMap_append, ih fun g hm => hs g (by simp [hm]), hg.sgeMapOf,
      hg.bytes, List.flatMap_cons]

variable {opcode : IbWcOpcode} {ibqp sciMsq : Nat} {w w' : DisWqe} {used : List (List Nat)}

theorem postOneBody_maps (hn : wr.numSge = wr.sgList.length) (h4 : wr.sgList.length ≤ 4)
    (hs : ∀ g ∈ wr.sgList, Names t g)
    (h : Runs A (postOneBody lib opcode ibqp sciMsq t wr) w (some used) w') :
    MapsSges t wr w' used ∧ used.flatten.length ≤ w'.sciMsg.iovlen := by
  obtain ⟨_, hmax, hused, w₁, hm, hw⟩ := postOneBody_some lib t h
  rw [visited_eq hn h4] at hmax hused hw
  have hlen : used.flatten.length = (wr.sgList.flatMap fun g => (sgeMapOf t g).entries).length :=
    hused ▸ usedPages_flatten
  have hentries : w'.iovEntries used.flatten.length =
      wr.sgList.flatMap fun g => (sgeMapOf t g).entries := by
    rw [hlen, hw]
    exact iovEntries_mapEntries hm.valid
  have hiov : w'.sciMsg.iovlen = iovTotal t wr.sgList := by
    rw [hw, mapEntries_sciMsg, hm.iovlen rfl, visited_eq hn h4]
  have hzero : w₁.byteLen = 0 :=
    hm.byteLen fun g hg => (hs g (visited_eq hn h4 ▸ hg)).notDma
  refine ⟨⟨?_, ?_, ?_, ?_⟩, ?_⟩
  · rw [hentries, entries_bytes hs]
  · rw [hentries]
    intro e he
    obtain ⟨g, hg, he⟩ := List.mem_flatMap.mp he
    rw [(hs g hg).sgeMapOf] at he
    obtain ⟨hpos, j, hj, r, hbase, hin⟩ := userEntries_entry he
    exact ⟨hpos, g, hg, j, (hs g hg).page_lt hj, r, hbase, hin⟩
  · rw [hused, List.forall₂_map_right_iff, List.forall₂_same]
    intro g hg j hj
    rw [(hs g hg).sgeMapOf] at hj
    exact (hs g hg).page_lt hj
  · have hsum := sgeLengths_le hs
    simp only [disMaxIovlen] at hmax
    rw [hw, mapEntries_byteLen, hzero, entries_bytes hs, sgeBytes_lengths]
    simp only [UInt32.toNat_zero, Nat.zero_add]
    exact Nat.mod_eq_of_lt (by omega)
  · rw [hlen, hiov]
    exact entries_length_le hs

end

theorem postOne_zero {lib : SciLib} {opcode : IbWcOpcode} {t : MrTable} {kmalloc : Option PageMap}
    {wq : DisWq} {wr : IbWr} (h : (postOne lib opcode t kmalloc wq wr).ret = 0) :
    ¬ circSpace wq.head wq.tail wq.wqeMax < 1 ∧
      ∃ wqe, Runs (· = kmalloc) (postOneBody lib opcode wq.ibqp wq.sciMsq t wr) (wq.buf wq.head)
        (some (postOne lib opcode t kmalloc wq wr).used) wqe ∧
        (postOne lib opcode t kmalloc wq wr).wq = { wq with
          buf := Function.update wq.buf wq.head wqe, head := circNext wq.head wq.wqeMax } := by
  have hr := run_runs kmalloc (postOneBody lib opcode wq.ibqp wq.sciMsq t wr) (wq.buf wq.head)
  unfold postOne at h ⊢
  split at h
  next => simp at h
  next hs =>
    rw [if_neg hs]
    split at h
    next => simp at h
    next used wqe he =>
      rw [he] at hr
      exact ⟨hs, wqe, hr, rfl⟩

/-- The slot after an accepted post is what the whole posting function made of it. -/
theorem postOne_runs {lib : SciLib} {opcode : IbWcOpcode} {t : MrTable} {kmalloc : Option PageMap}
    {wq : DisWq} {wr : IbWr} (h : (postOne lib opcode t kmalloc wq wr).ret = 0) :
    Runs (· = kmalloc) (postOneBody lib opcode wq.ibqp wq.sciMsq t wr) (wq.buf wq.head)
      (some (postOne lib opcode t kmalloc wq wr).used)
      ((postOne lib opcode t kmalloc wq wr).wq.buf wq.head) := by
  obtain ⟨_, wqe, hrun, hwq⟩ := postOne_zero h
  have hslot : (postOne lib opcode t kmalloc wq wr).wq.buf wq.head = wqe := by simp [hwq]
  rw [hslot]
  exact hrun

theorem disQpPostOne_maps (lib : SciLib) (type : DisWqType) (t : MrTable)
    (kmalloc : Option PageMap) (wq : DisWq) (wr : IbWr) (hn : wr.numSge = wr.sgList.length)
    (h4 : wr.sgList.length ≤ 4) (hs : ∀ g ∈ wr.sgList, Names t g)
    (hret : (disQpPostOne lib type t kmalloc wq wr).ret = 0) :
    MapsSges t wr ((disQpPostOne lib type t kmalloc wq wr).wq.buf wq.head)
      (disQpPostOne lib type t kmalloc wq wr).used := by
  rw [disQpPostOne_eq] at hret ⊢
  obtain ⟨_, wqe, hr, he⟩ := postOne_zero hret
  simpa only [he, Function.update_self] using (postOneBody_maps hn h4 hs hr).1

/-- A segment of 4096 bytes whose pages are not adjacent. -/
def twoPageEnv : RegEnv where
  mrAlloc := true
  ibUmemGet := fun _ _ => some ⟨2, 0x100, [0x10000, 0x50000]⟩
  pagesAlloc := true
  beyond := fun _ => ⟨0, 0⟩

def emptyPd : DisPd := disAllocPd ⟨fun _ => none, fun _ => none, 0, 0⟩

def emptyKernel : Kernel := ⟨0, fun _ => default, []⟩

/-- The table after the registration of that segment at another virtual address. -/
def twoPageTable : MrTable :=
  match disRegUserMr twoPageEnv 0x1100 0x1000 0x7100 emptyPd emptyKernel with
  | (_, pd, k) => ⟨pd.mrList, k.mr⟩

def crossingWr : IbWr := ⟨7, [⟨0x7ff8, 16, 0⟩], 1, by decide⟩

def emptyWq (wqeMax : Nat) : DisWq := ⟨0, 0, fun _ => default, wqeMax, 1, 2, .empty, .running⟩

theorem twoPageTable_userMr : UserMr (twoPageTable.mr 0) :=
  ⟨twoPageEnv, 0x1100, 0x1000, 0x7100, emptyPd, emptyKernel, 0, _, _,
    ⟨2, 0x100, [0x10000, 0x50000]⟩, rfl, ⟨by decide, by decide, by decide⟩, rfl, rfl⟩

theorem crossing_names : ∀ g ∈ crossingWr.sgList, Names twoPageTable g := by
  intro g hg
  rw [List.mem_singleton.mp hg]
  exact ⟨twoPageTable.mr 0, rfl, twoPageTable_userMr, by decide, by decide⟩

def sciLib64 : SciLib := ⟨64, by decide⟩

theorem disQpPostOne_maps_crossing :
    MapsSges twoPageTable crossingWr
      ((disQpPostOne sciLib64 .rq twoPageTable none (emptyWq 2) crossingWr).wq.buf 0)
      (disQpPostOne sciLib64 .rq twoPageTable none (emptyWq 2) crossingWr).used :=
  disQpPostOne_maps sciLib64 .rq twoPageTable none (emptyWq 2) crossingWr rfl (by decide)
    crossing_names (by decide)

end DisKverbs
