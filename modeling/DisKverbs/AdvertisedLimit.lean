import DisKverbs.SgeLimits
import Mathlib.Tactic.Linarith

namespace DisKverbs

open CellProg CircBuf

/-- The bytes before an SGE in the pages of its MR. -/
def sgeStart (mr : DisMr) (g : IbSge) : Nat :=
  mr.mrVaOffset.toNat + (g.addr.toNat - mr.mrVa.toNat)

/-- The pages from that of the first byte of an SGE to that of the byte after its last one. -/
def pagesReached (mr : DisMr) (g : IbSge) : Nat :=
  (sgeStart mr g + g.length.toNat) / 4096 - sgeStart mr g / 4096 + 1

/-- A WR that the advertised limits allow: one to four SGEs in user MRs, and a message of at
most `max_msg_sz` bytes. -/
structure WithinLimits (t : MrTable) (wr : IbWr) : Prop where
  some_sge : 1 ≤ wr.numSge
  few_sges : wr.numSge ≤ 4
  names : ∀ g ∈ wr.sges, Names t g
  size : sgeTotal wr.sges ≤ disMsgSizeMax

section

variable {t : MrTable} {g : IbSge} {gs : List IbSge}

/-- An SGE is charged for the page after its range when it ends with a page. -/
theorem Names.count (h : Names t g) : DisKverbs.sgeCount t g = pagesReached (t.mrOf g) g := by
  have hoff := (inRange_offset h.mrOf.1 h.mrOf.2).1
  rw [h.sgeCount, userSgeMap_pageCount, hoff, pagesReached]
  show (g.length.toNat + sgeStart (t.mrOf g) g % 4096) / 4096 + 1 = _
  omega

theorem names_total (h : ∀ g ∈ gs, Names t g) :
    iovTotal t gs = (gs.map fun g => pagesReached (t.mrOf g) g).sum := by
  rw [iovTotal, List.map_congr_left fun g hg => (h g hg).count]

end

section

variable {lib : SciLib} {type : DisWqType} {t : MrTable} {buf : PageMap} {wq : DisWq} {wr : IbWr}

theorem withinLimits_zero_iff (hw : WithinLimits t wr)
    (hs : 1 ≤ circSpace wq.head wq.tail wq.wqeMax) :
    (disQpPostOne lib type t (some buf) wq wr).ret = 0 ↔ iovTotal t wr.sges ≤ disMaxIovlen := by
  rw [disQpPostOne_zero_iff, ← visited_sges hw.few_sges]
  constructor
  · intro h
    exact h.2.count
  · intro h
    refine ⟨by omega, ?_, h, fun _ => rfl⟩
    intro g hg
    obtain ⟨mr, hl, _⟩ := hw.names g (visited_sges hw.few_sges ▸ hg)
    rw [hl]
    rfl

end

/-- The enforced limit counts pages, the advertised one bytes. -/
theorem disQpPostOne_accepts_iff (lib : SciLib) (type : DisWqType) (t : MrTable) (buf : PageMap)
    (wq : DisWq) (wr : IbWr) (hw : WithinLimits t wr)
    (hs : 1 ≤ circSpace wq.head wq.tail wq.wqeMax) :
    (disQpPostOne lib type t (some buf) wq wr).ret = 0 ↔
      (wr.sges.map fun g => pagesReached (t.mrOf g) g).sum ≤ disMaxIovlen := by
  rw [withinLimits_zero_iff hw hs, names_total hw.names]

/-- A segment of `DIS_MAX_IOVLEN` whole pages. -/
def fullUmem : IbUmem := ⟨1024, 0, List.replicate 1024 0x10000⟩

def fullEnv : RegEnv := ⟨true, fun _ _ => some fullUmem, true, fun _ => ⟨0, 0⟩⟩

/-- The MR that the registration of that segment builds. -/
def fullMr : DisMr where
  lkey := 0
  pages := pageList fullUmem fullEnv.beyond
  mrVa := 0x7000
  mrVaOffset := 0
  mrLength := 0x400000
  pageCount := 1024
  isDma := false

def fullTable : MrTable := ⟨(emptyPd.addMr 0).mrList, fun _ => fullMr⟩

/-- The whole segment: a message of the advertised length. -/
def fullWr : IbWr := ⟨7, [⟨0x7000, 0x400000, 0⟩], 1, by decide⟩

/-- All but the last byte of it. -/
def almostFullWr : IbWr := ⟨7, [⟨0x7000, 0x3fffff, 0⟩], 1, by decide⟩

def fullMap : PageMap := ⟨0, fun _ => default⟩

theorem fullUmem_pages : (0 : UInt64) ∉ fullUmem.pageAddress := by
  simp [fullUmem, -List.reduceReplicate, List.mem_replicate]

theorem fullEnv_registers :
    disRegUserMr fullEnv 0x1000 0x400000 0x7000 emptyPd emptyKernel =
      (some 0, emptyPd.addMr 0, ((({ emptyKernel with fresh := 1 }.acquire (.mr 0)).acquire
        (.umem 0)).acquire (.pages 0)).setMr 0 fullMr) := by
  have hcount : fullUmem.pageCount ≠ 0 := by decide
  show (if disMrMax ≤ emptyPd.mrC then _ else if !true then _ else
    if fullUmem.pageCount = 0 then _ else if !true then _ else
      if 0 ∈ fullUmem.pageAddress then _ else _) = _
  rw [if_neg (by decide), if_neg (by decide), if_neg hcount, if_neg (by decide),
    if_neg fullUmem_pages]
  rfl

theorem fullMr_userMr : UserMr fullMr := by
  have hc : fullUmem.Covers 0x1000 0x400000 := by
    refine ⟨by decide, by decide, ?_⟩
    exact List.length_replicate
  exact ⟨fullEnv, 0x1000, 0x400000, 0x7000, emptyPd, emptyKernel, 0, _, _, fullUmem, rfl, hc,
    fullEnv_registers, rfl⟩

theorem full_limits {wr : IbWr} {g : IbSge} (hn : wr.numSge = 1) (hg : wr.sges = [g])
    (hkey : g.lkey = 0) (hr : InRange fullMr g) : WithinLimits fullTable wr := by
  refine ⟨by omega, by omega, ?_, ?_⟩
  · intro g' hg'
    rw [hg] at hg'
    rw [List.mem_singleton.mp hg']
    refine ⟨fullMr, ?_, fullMr_userMr, hr⟩
    rw [MrTable.lookup, hkey]
    rfl
  · have hlen : fullMr.mrLength.toNat = disMsgSizeMax := rfl
    have hend := hr.2
    have hva := hr.1
    simp only [sgeTotal, hg, List.map_cons, List.map_nil, List.sum_cons, List.sum_nil]
    omega

theorem disQpPostOne_accepts_almostFull :
    (disQpPostOne sciLib64 .sq fullTable (some fullMap) (emptyWq 2) almostFullWr).ret = 0 ↔
      (almostFullWr.sges.map fun g => pagesReached (fullTable.mrOf g) g).sum ≤ disMaxIovlen :=
  disQpPostOne_accepts_iff sciLib64 .sq fullTable fullMap (emptyWq 2) almostFullWr
    (full_limits rfl rfl rfl (by decide)) (by decide)

/-- A page-aligned message of the advertised length is charged for one page too many. -/
theorem full_refused :
    WithinLimits fullTable fullWr ∧ 1 ≤ circSpace (emptyWq 2).head (emptyWq 2).tail 2 ∧
      ∀ type, (disQpPostOne sciLib64 type fullTable (some fullMap) (emptyWq 2) fullWr).ret ≠ 0 := by
  have hw : WithinLimits fullTable fullWr := full_limits rfl rfl rfl (by decide)
  refine ⟨hw, by decide, fun type => ?_⟩
  rw [Ne, withinLimits_zero_iff hw (by decide)]
  decide

end DisKverbs
