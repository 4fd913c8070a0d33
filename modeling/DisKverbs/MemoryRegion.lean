import DisKverbs.Verbs

namespace DisKverbs

/-- What one registration acquires; the number is that of the MR structure. -/
inductive Resource
  | mr (p : Nat)
  | umem (p : Nat)
  | pages (p : Nat)
  deriving DecidableEq

inductive KernelEvent
  | acquire (r : Resource)
  | release (r : Resource)
  deriving DecidableEq

/-- Kernel memory as the MR verbs see it. `mr` keeps what a freed structure held. -/
structure Kernel where
  fresh : Nat
  mr : Nat → DisMr
  log : List KernelEvent

def Kernel.acquire (k : Kernel) (r : Resource) : Kernel :=
  { k with log := k.log ++ [.acquire r] }

def Kernel.release (k : Kernel) (r : Resource) : Kernel :=
  { k with log := k.log ++ [.release r] }

def Kernel.setMr (k : Kernel) (p : Nat) (mr : DisMr) : Kernel :=
  { k with mr := Function.update k.mr p mr }

/-- A pinned user segment: the results of `ib_umem_page_count`, `ib_umem_offset`
and of `page_address` (0 is NULL) on each page that `for_each_sg_page` visits. -/
structure IbUmem where
  pageCount : UInt32
  offset : UInt64
  pageAddress : List UInt64

/-- The kernel's answers to one registration. `beyond` is the memory that follows
the page list. -/
structure RegEnv where
  mrAlloc : Bool
  ibUmemGet : UInt64 → UInt64 → Option IbUmem
  pagesAlloc : Bool
  beyond : Nat → Iovec

/-- The zeroed page list after the loop stored the pages' addresses. -/
def pageList (u : IbUmem) (beyond : Nat → Iovec) (j : Nat) : Iovec :=
  match u.pageAddress[j]? with
  | some a => ⟨a, pageSize⟩
  | none => if j < u.pageCount.toNat then ⟨0, 0⟩ else beyond j

/-- The last step of both registration verbs: the next key and its table entry. -/
def DisPd.addMr (pd : DisPd) (p : Nat) : DisPd :=
  { pd with mrList := Function.update pd.mrList pd.mrC (some p), mrC := pd.mrC + 1 }

def disAllocPd (pd : DisPd) : DisPd :=
  { pd with qpC := disQpIni, mrC := disMrIni }

def disRegUserMr (env : RegEnv) (start length va : UInt64) (pd : DisPd) (k : Kernel) :
    Option Nat × DisPd × Kernel :=
  if disMrMax ≤ pd.mrC then (none, pd, k)
  else if !env.mrAlloc then (none, pd, k)
  else
    let p := k.fresh
    let k := { k with fresh := k.fresh + 1 }.acquire (.mr p)
    match env.ibUmemGet start length with
    | none => (none, pd, k.release (.mr p))
    | some u =>
      let k := k.acquire (.umem p)
      if u.pageCount = 0 then (none, pd, (k.release (.umem p)).release (.mr p))
      else if !env.pagesAlloc then (none, pd, (k.release (.umem p)).release (.mr p))
      else
        let k := k.acquire (.pages p)
        if 0 ∈ u.pageAddress then
          (none, pd, ((k.release (.pages p)).release (.umem p)).release (.mr p))
        else
          (some p, pd.addMr p, k.setMr p {
            lkey := UInt32.ofNat pd.mrC
            pages := pageList u env.beyond
            mrVa := va
            mrVaOffset := u.offset
            mrLength := length
            pageCount := u.pageCount
            isDma := false })

/-- A zeroed structure with only `is_dma` and the key set. -/
def disGetDmaMr (mrAlloc : Bool) (pd : DisPd) (k : Kernel) : Option Nat × DisPd × Kernel :=
  if disMrMax ≤ pd.mrC then (none, pd, k)
  else if !mrAlloc then (none, pd, k)
  else
    let p := k.fresh
    let k := { k with fresh := k.fresh + 1 }.acquire (.mr p)
    (some p, pd.addMr p, k.setMr p {
      lkey := UInt32.ofNat pd.mrC
      pages := fun _ => ⟨0, 0⟩
      mrVa := 0
      mrVaOffset := 0
      mrLength := 0
      pageCount := 0
      isDma := true })

/-- Deregistration frees the structure and never touches `pd->mr_list`. -/
def disDeregMr (p : Nat) (k : Kernel) : Kernel :=
  if (k.mr p).isDma then k.release (.mr p)
  else ((k.release (.pages p)).release (.umem p)).release (.mr p)

/-- The umem covers exactly the pages of `[start, start + length)`. -/
structure IbUmem.Covers (u : IbUmem) (start length : UInt64) : Prop where
  offset_eq : u.offset.toNat = start.toNat % pageSize.toNat
  count_eq : u.pageCount.toNat =
    (start.toNat % pageSize.toNat + length.toNat + (pageSize.toNat - 1)) / pageSize.toNat
  pages_eq : u.pageAddress.length = u.pageCount.toNat

/-- `mr` is what some successful call of `dis_reg_user_mr` built from a umem that
covers the requested segment. -/
def UserMr (mr : DisMr) : Prop :=
  ∃ env start length va pd k p pd' k' u,
    env.ibUmemGet start length = some u ∧ u.Covers start length ∧
    disRegUserMr env start length va pd k = (some p, pd', k') ∧ k'.mr p = mr

end DisKverbs
