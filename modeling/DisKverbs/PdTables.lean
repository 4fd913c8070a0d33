import DisKverbs.CreateQp
import DisKverbs.SlotTable
import DisKverbs.StaleKeys

namespace DisKverbs

open SlotTable StepSystem

def DisPd.mrSlots (pd : DisPd) : Table Nat := ⟨pd.mrList, pd.mrC⟩

def DisPd.qpSlots (pd : DisPd) : Table Nat := ⟨pd.qpList, pd.qpC⟩

/-- `dis_get_dma_mr` with the pointer it returns. -/
def getDmaMr (mrAlloc : Bool) (pd : DisPd) (k : Kernel) : KPtr × DisPd × Kernel :=
  match disGetDmaMr mrAlloc pd k with
  | (some p, r) => (.obj p, r)
  | (none, r) => (.errPtr einval, r)

/-- A PD and its objects, which are named by their addresses: memory that was freed may be given
out again. `mrs` and `qps` are history, all MRs and QPs in the order they were handed out; `first`
is the PD as it was allocated. -/
structure PdTables where
  pd : DisPd
  k : Kernel
  qp : Nat → CreatedQp
  liveMrs : List Nat
  liveQps : List Nat
  mrs : List (Issue Nat UInt32)
  qps : List (Issue Nat UInt32)
  first : DisPd

/-- The calls on one PD; `p` is the address of the memory for the new structure. -/
inductive PdVerb
  | getDmaMr (p : Nat) (mrAlloc : Bool)
  | regUserMr (p : Nat) (env : RegEnv) (start length va : UInt64)
  | createQp (p : Nat) (env : QpEnv) (attr : IbQpInitAttr)
  | deregMr (p : Nat)
  | destroyQp (p : Nat)

/-- The state after a call that stored to entry `mr_c` if it returned an MR. -/
def PdTables.addMr (s : PdTables) : KPtr × DisPd × Kernel → PdTables
  | (.obj p, pd, k) => { s with
      pd := pd
      k := k
      liveMrs := p :: s.liveMrs
      mrs := s.mrs ++ [⟨s.pd.mrC, p, (k.mr p).lkey⟩] }
  | (_, pd, k) => { s with pd := pd, k := k }

def PdTables.addQp (s : PdTables) (p : Nat) (r : QpCreation) : PdTables :=
  match r.made with
  | some qp => { s with
      pd := r.pd
      qp := Function.update s.qp p qp
      liveQps := p :: s.liveQps
      qps := s.qps ++ [⟨s.pd.qpC, p, qp.lQpn⟩] }
  | none => { s with pd := r.pd }

/-- Memory in use is not given out again, and each object is released at most once. -/
def pdTablesStep (s : PdTables) : PdVerb → Option PdTables
  | .getDmaMr p mrAlloc =>
    if p ∈ s.liveMrs then none
    else some (s.addMr (getDmaMr mrAlloc s.pd { s.k with fresh := p }))
  | .regUserMr p env start length va =>
    if p ∈ s.liveMrs then none
    else some (s.addMr (regUserMr env start length va s.pd { s.k with fresh := p }))
  | .createQp p env attr =>
    if p ∈ s.liveQps then none
    else some (s.addQp p (createQp env attr s.pd p))
  | .deregMr p =>
    if p ∈ s.liveMrs then
      some { s with k := disDeregMr p s.k, liveMrs := s.liveMrs.erase p }
    else none
  | .destroyQp p =>
    if p ∈ s.liveQps then some { s with liveQps := s.liveQps.erase p } else none

/-- `dis_alloc_pd` has returned; the memory of the PD may have held anything before. -/
def PdTablesInit (s : PdTables) : Prop :=
  ∃ pd, s = { s with
    pd := disAllocPd pd, liveMrs := [], liveQps := [], mrs := [], qps := [], first := disAllocPd pd }

/-- Both tables are filled in order, and the keys are the indices. -/
structure PdTablesInv (s : PdTables) : Prop where
  mrs : Filled UInt32.toNat disMrIni disMrMax s.first.mrList s.mrs s.pd.mrSlots
  qps : Filled UInt32.toNat disQpIni disQpMax s.first.qpList s.qps s.pd.qpSlots
  mrKeys : Current (fun p => (s.k.mr p).lkey) s.liveMrs s.mrs
  qpKeys : Current (fun p => (s.qp p).lQpn) s.liveQps s.qps
  qpNums : ∀ p ∈ s.liveQps, (s.qp p).ibqp.qpNum = (s.qp p).lQpn

section

variable {s t : PdTables} {p : Nat}

theorem pdTablesInit_inv (h : PdTablesInit s) : PdTablesInv s := by
  obtain ⟨pd, hs⟩ := h
  rw [hs]
  refine ⟨filled_start (Nat.zero_le _), filled_start (by decide), ?_, ?_, ?_⟩ <;> simp [Current]

theorem PdTablesInv.addMr (hi : PdTablesInv s) (hp : p ∉ s.liveMrs)
    {r : Option Nat × DisPd × Kernel} (hr : Registers s.pd { s.k with fresh := p } r) :
    PdTablesInv (s.addMr (r.1.elim (.errPtr einval) .obj, r.2)) := by
  cases hr with
  | @failed k' _ hm =>
    have hkeys := hi.mrKeys
    have hmr : k'.mr = s.k.mr := hm
    refine ⟨hi.mrs, hi.qps, ?_, hi.qpKeys, hi.qpNums⟩
    show Current (fun p => (k'.mr p).lkey) s.liveMrs s.mrs
    rw [hmr]
    exact hkeys
  | @added k' mr hmax hkey _ hm =>
    have hmr : k'.mr = Function.update s.k.mr p mr := hm
    have hnew : (k'.mr p).lkey = UInt32.ofNat s.pd.mrC := by
      rw [hmr, Function.update_self, hkey]
    have hnum : (k'.mr p).lkey.toNat = s.pd.mrC := by
      rw [hnew]
      exact UInt32.toNat_ofNat_of_lt' (lt_trans hmax (by decide))
    refine ⟨hi.mrs.add hmax hnum, hi.qps, ?_, hi.qpKeys, hi.qpNums⟩
    refine hi.mrKeys.add s.pd.mrC rfl fun q hq => ?_
    show (k'.mr q).lkey = (s.k.mr q).lkey
    rw [hmr, Function.update_of_ne (ne_of_mem_of_not_mem hq hp)]

theorem PdTablesInv.addQp (hi : PdTablesInv s) (hp : p ∉ s.liveQps) (env : QpEnv)
    (attr : IbQpInitAttr) : PdTablesInv (s.addQp p (createQp env attr s.pd p)) := by
  have hspec := createQp_spec env attr s.pd p
  by_cases hf : CreateQpFault env attr s.pd
  · obtain ⟨_, hmade, hpd, _⟩ := hspec.failed hf
    rw [PdTables.addQp, hmade, hpd]
    exact ⟨hi.mrs, hi.qps, hi.mrKeys, hi.qpKeys, hi.qpNums⟩
  · obtain ⟨qp, _, hmade, hpd, _, hmax, hqpn, hnum, _⟩ := hspec.succeeded hf
    have hval : qp.lQpn.toNat = s.pd.qpC := by
      rw [hqpn]
      exact UInt32.toNat_ofNat_of_lt' (lt_trans hmax (by decide))
    have other : ∀ q ∈ s.liveQps, Function.update s.qp p qp q = s.qp q := fun q hq =>
      Function.update_of_ne (ne_of_mem_of_not_mem hq hp) ..
    rw [PdTables.addQp, hmade, hpd]
    refine ⟨hi.mrs, hi.qps.add hmax hval, hi.mrKeys, ?_, ?_⟩
    · refine hi.qpKeys.add s.pd.qpC ?_ fun q hq => ?_
      · show (Function.update s.qp p qp p).lQpn = qp.lQpn
        rw [Function.update_self]
      · show (Function.update s.qp p qp q).lQpn = (s.qp q).lQpn
        rw [other q hq]
    · intro q hq
      show (Function.update s.qp p qp q).ibqp.qpNum = (Function.update s.qp p qp q).lQpn
      rcases List.mem_cons.mp hq with rfl | hq
      · rw [Function.update_self]
        exact hnum
      · rw [other q hq]
        exact hi.qpNums q hq

theorem getDmaMr_eq (mrAlloc : Bool) (pd : DisPd) (k : Kernel) : getDmaMr mrAlloc pd k =
    ((disGetDmaMr mrAlloc pd k).1.elim (.errPtr einval) .obj, (disGetDmaMr mrAlloc pd k).2) := by
  unfold getDmaMr
  split
  next p r h => rw [h]; rfl
  next r h => rw [h]; rfl

/-- Every verb, on each of its exits, keeps the tables in order. -/
theorem PdTablesInv.step {a : PdVerb} (hi : PdTablesInv s) (h : pdTablesStep s a = some t) :
    PdTablesInv t := by
  cases a with
  | getDmaMr p mrAlloc =>
    obtain ⟨hp, ht⟩ := Option.ite_none_left_eq_some.mp h
    cases Option.some.inj ht
    rw [getDmaMr_eq]
    exact hi.addMr hp (disGetDmaMr_registers ..)
  | regUserMr p env start length va =>
    obtain ⟨hp, ht⟩ := Option.ite_none_left_eq_some.mp h
    cases Option.some.inj ht
    rw [regUserMr_eq]
    exact hi.addMr hp (disRegUserMr_registers ..)
  | createQp p env attr =>
    obtain ⟨hp, ht⟩ := Option.ite_none_left_eq_some.mp h
    cases Option.some.inj ht
    exact hi.addQp hp env attr
  | deregMr p =>
    obtain ⟨_, ht⟩ := Option.ite_none_right_eq_some.mp h
    cases Option.some.inj ht
    refine ⟨hi.mrs, hi.qps, ?_, hi.qpKeys, hi.qpNums⟩
    rw [disDeregMr_mr]
    exact hi.mrKeys.subset List.erase_subset
  | destroyQp p =>
    obtain ⟨_, ht⟩ := Option.ite_none_right_eq_some.mp h
    cases Option.some.inj ht
    refine ⟨hi.mrs, hi.qps, hi.mrKeys, hi.qpKeys.subset List.erase_subset, fun q hq => ?_⟩
    exact hi.qpNums q (List.mem_of_mem_erase hq)

theorem reach_pdTablesInv (h : Reach PdTablesInit (Acts pdTablesStep anyAct) s) : PdTablesInv s :=
  h.invariant (fun _ => pdTablesInit_inv) fun _ _ _ hi ⟨_, _, hs⟩ => hi.step hs

end

/-- In every run the MRs and the QPs lie in the tables under their keys, which are the indices,
and each key is given out once. -/
theorem reach_tablesSound (s : PdTables) (h : Reach PdTablesInit (Acts pdTablesStep anyAct) s) :
    Sound UInt32.toNat disMrIni disMrMax s.first.mrList s.mrs (fun p => (s.k.mr p).lkey)
        s.liveMrs s.pd.mrSlots ∧
      Sound UInt32.toNat disQpIni disQpMax s.first.qpList s.qps (fun p => (s.qp p).lQpn)
        s.liveQps s.pd.qpSlots ∧
      ∀ p ∈ s.liveQps, (s.qp p).ibqp.qpNum = (s.qp p).lQpn := by
  have hi := reach_pdTablesInv h
  exact ⟨hi.mrs.sound hi.mrKeys, hi.qps.sound hi.qpKeys, hi.qpNums⟩

/-- What is left of a QP of another PD. -/
def oldQp : CreatedQp := (createQp plentyQpEnv smallAttr (disAllocPd fullPd) 0).made.get rfl

def freshTables : PdTables :=
  ⟨disAllocPd fullPd, emptyKernel, fun _ => oldQp, [], [], [], [], disAllocPd fullPd⟩

/-- The second MR gets the memory of the first one. -/
def reuseRun : PdTables := afterActs pdTablesStep freshTables
  [.getDmaMr 64 true, .deregMr 64, .regUserMr 64 twoPageEnv 0x1100 0x1000 0x7100,
    .getDmaMr 80 false, .createQp 7 plentyQpEnv smallAttr]

theorem reach_tablesSound_reuse :
    reuseRun.mrs = [⟨0, 64, 0⟩, ⟨1, 64, 1⟩] ∧ reuseRun.qps = [⟨100, 7, 100⟩] ∧
      Sound UInt32.toNat disMrIni disMrMax reuseRun.first.mrList reuseRun.mrs
        (fun p => (reuseRun.k.mr p).lkey) reuseRun.liveMrs reuseRun.pd.mrSlots ∧
      Sound UInt32.toNat disQpIni disQpMax reuseRun.first.qpList reuseRun.qps
        (fun p => (reuseRun.qp p).lQpn) reuseRun.liveQps reuseRun.pd.qpSlots ∧
      ∀ p ∈ reuseRun.liveQps, (reuseRun.qp p).ibqp.qpNum = (reuseRun.qp p).lQpn :=
  ⟨rfl, rfl, reach_tablesSound reuseRun (reach_afterActs ⟨fullPd, rfl⟩ _)⟩

end DisKverbs
