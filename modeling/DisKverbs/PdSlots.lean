import DisKverbs.StaleKeys
import DisKverbs.DeviceIds

namespace DisKverbs

open StepSystem

/-- A PD with its MRs, the QPs made on it and not destroyed, and how many were destroyed. -/
structure PdUse where
  mr : MrState
  qps : List Nat
  qpsGone : Nat

inductive PdUseAct
  | mr (a : MrAct)
  | createQp (allocs : QpAllocs) (maxSendWr maxRecvWr : UInt32)
  | destroyQp (qp : Nat)

/-- The QP that the next creation makes. -/
def PdUse.nextQp (s : PdUse) : Nat := s.qps.length + s.qpsGone

/-- The state after a creation that answered `r` for `nextQp`. -/
def PdUse.addQp (s : PdUse) (r : Option DisQp × DisPd) : PdUse :=
  { s with
    mr := { s.mr with pd := r.2 }
    qps := if r.1.isSome then s.nextQp :: s.qps else s.qps }

/-- `dis_destroy_qp` does not come near the PD. -/
def pdUseStep (lib : SciLib) (s : PdUse) : PdUseAct → Option PdUse
  | .mr a => (mrStep lib s.mr a).map fun mr => { s with mr := mr }
  | .createQp allocs maxSendWr maxRecvWr =>
    some (s.addQp (disCreateQp allocs s.nextQp maxSendWr maxRecvWr s.mr.pd))
  | .destroyQp qp =>
    if qp ∈ s.qps then some { s with qps := s.qps.erase qp, qpsGone := s.qpsGone + 1 } else none

def PdUseInit (s : PdUse) : Prop := MrInit s.mr ∧ s.qps = [] ∧ s.qpsGone = 0

/-- The kernel gives a registration all it asks for. -/
structure Grants (env : RegEnv) (start length : UInt64) : Prop where
  mrAlloc : env.mrAlloc = true
  pagesAlloc : env.pagesAlloc = true
  umem : ∃ u, env.ibUmemGet start length = some u ∧ u.pageCount ≠ 0 ∧ 0 ∉ u.pageAddress

/-- A registration or creation that lacks nothing else is refused only when all slots of the
PD are taken. -/
structure SlotsFair (s : PdUse) : Prop where
  regUserMr : ∀ env start length va, Grants env start length →
    (disRegUserMr env start length va s.mr.pd s.mr.k).1 = none → s.mr.live.length = disMrMax
  getDmaMr : (disGetDmaMr true s.mr.pd s.mr.k).1 = none → s.mr.live.length = disMrMax
  createQp : ∀ qp maxSendWr maxRecvWr,
    (disCreateQp ⟨true, true, true⟩ qp maxSendWr maxRecvWr s.mr.pd).1 = none →
      s.qps.length = disQpMax - disQpIni

/-- The counters of a PD count what was ever made. -/
structure SlotInv (s : PdUse) : Prop where
  mrC : s.mr.pd.mrC = s.mr.live.length + s.mr.dead.length
  mrC_le : s.mr.pd.mrC ≤ disMrMax
  qpC : s.mr.pd.qpC = disQpIni + s.qps.length + s.qpsGone
  qpC_le : s.mr.pd.qpC ≤ disQpMax

section

variable {lib : SciLib} {s t : PdUse}

theorem SlotInv.register (hi : SlotInv s) {r : Option Nat × DisPd × Kernel}
    (h : Registers s.mr.pd s.mr.k r) : SlotInv { s with mr := s.mr.register r } := by
  cases h with
  | failed => exact ⟨hi.mrC, hi.mrC_le, hi.qpC, hi.qpC_le⟩
  | added mr hmax =>
    refine ⟨?_, ?_, hi.qpC, hi.qpC_le⟩
    · show s.mr.pd.mrC + 1 = (s.mr.k.fresh :: s.mr.live).length + s.mr.dead.length
      have hcount := hi.mrC
      rw [List.length_cons]
      omega
    · show s.mr.pd.mrC + 1 ≤ disMrMax
      omega

theorem disCreateQp_mrC {allocs : QpAllocs} {qp : Nat} {maxSendWr maxRecvWr : UInt32}
    {pd : DisPd} : (disCreateQp allocs qp maxSendWr maxRecvWr pd).2.mrC = pd.mrC := by
  unfold disCreateQp
  repeat' split
  all_goals rfl

theorem SlotInv.createQp (hi : SlotInv s) {allocs : QpAllocs} {maxSendWr maxRecvWr : UInt32} :
    SlotInv (s.addQp (disCreateQp allocs s.nextQp maxSendWr maxRecvWr s.mr.pd)) := by
  have hmr := @disCreateQp_mrC allocs s.nextQp maxSendWr maxRecvWr s.mr.pd
  cases hr : disCreateQp allocs s.nextQp maxSendWr maxRecvWr s.mr.pd with
  | mk qp pd =>
  rw [hr] at hmr
  rcases disCreateQp_count hr with ⟨rfl, rfl⟩ | ⟨hsome, hmax, hcount⟩
  · exact ⟨hi.mrC, hi.mrC_le, hi.qpC, hi.qpC_le⟩
  · have hqp := hi.qpC
    have hqps : (s.addQp (qp, pd)).qps = s.nextQp :: s.qps := if_pos hsome
    refine ⟨hmr.trans hi.mrC, hmr.le.trans hi.mrC_le, ?_, ?_⟩
    · rw [hqps, List.length_cons]
      show pd.qpC = disQpIni + (s.qps.length + 1) + s.qpsGone
      omega
    · show pd.qpC ≤ disQpMax
      omega

theorem SlotInv.step {a : PdUseAct} (hi : SlotInv s) (h : pdUseStep lib s a = some t) :
    SlotInv t := by
  cases a with
  | mr a =>
    obtain ⟨m, hm, rfl⟩ := Option.map_eq_some_iff.mp h
    cases a with
    | reg env start length va =>
      cases Option.some.inj hm
      exact hi.register (disRegUserMr_registers ..)
    | getDma kzalloc =>
      cases Option.some.inj hm
      exact hi.register (disGetDmaMr_registers ..)
    | dereg p =>
      simp only [mrStep] at hm
      split at hm
      next hp =>
        cases Option.some.inj hm
        refine ⟨?_, hi.mrC_le, hi.qpC, hi.qpC_le⟩
        have hcount := hi.mrC
        have herase := List.length_erase_of_mem hp
        have hpos := List.length_pos_of_mem hp
        show s.mr.pd.mrC = (s.mr.live.erase p).length + (s.mr.dead.length + 1)
        omega
      next => simp at hm
    | post type kmalloc wr =>
      cases Option.some.inj hm
      exact ⟨hi.mrC, hi.mrC_le, hi.qpC, hi.qpC_le⟩
  | createQp allocs maxSendWr maxRecvWr =>
    cases Option.some.inj h
    exact hi.createQp
  | destroyQp qp =>
    simp only [pdUseStep] at h
    split at h
    next hq =>
      cases Option.some.inj h
      refine ⟨hi.mrC, hi.mrC_le, ?_, hi.qpC_le⟩
      have hcount := hi.qpC
      have herase := List.length_erase_of_mem hq
      have hpos := List.length_pos_of_mem hq
      simp only
      omega
    next => simp at h

theorem reach_slotInv (h : Reach PdUseInit (Acts (pdUseStep lib) anyAct) s) : SlotInv s := by
  apply h.invariant
  · rintro s ⟨⟨hpd, hlive, hdead⟩, hqps, hgone⟩
    refine ⟨?_, ?_, ?_, ?_⟩ <;>
      simp [hpd, hlive, hdead, hqps, hgone, disAllocPd, disMrIni, disQpIni, disQpMax]
  · rintro s t _ hi ⟨a, _, hs⟩
    exact hi.step hs

theorem disGetDmaMr_none {pd : DisPd} {k : Kernel} :
    (disGetDmaMr true pd k).1 = none ↔ disMrMax ≤ pd.mrC := by
  unfold disGetDmaMr
  split
  next hfull => exact iff_of_true rfl hfull
  next hfree => exact iff_of_false (by simp) hfree

theorem disRegUserMr_none {env : RegEnv} {start length va : UInt64} {pd : DisPd} {k : Kernel}
    (hg : Grants env start length) (h : (disRegUserMr env start length va pd k).1 = none) :
    disMrMax ≤ pd.mrC := by
  obtain ⟨u, hu, hcount, hpages⟩ := hg.umem
  by_contra hfree
  simp [disRegUserMr, hfree, hg.mrAlloc, hg.pagesAlloc, hu, hcount, hpages] at h

theorem disCreateQp_none {qp : Nat} {maxSendWr maxRecvWr : UInt32} {pd : DisPd} :
    (disCreateQp ⟨true, true, true⟩ qp maxSendWr maxRecvWr pd).1 = none ↔ disQpMax ≤ pd.qpC := by
  unfold disCreateQp
  split
  next hfull => exact iff_of_true rfl hfull
  next hfree => exact iff_of_false (by simp) hfree

end

def freshPdUse : PdUse := ⟨freshMrState, [], 0⟩

theorem freshPdUse_init : PdUseInit freshPdUse := ⟨⟨rfl, rfl, rfl⟩, rfl, rfl⟩

def oneMrUse : PdUse := afterActs (pdUseStep sciLib64) freshPdUse [.mr (.getDma true)]

/-- Register an MR and deregister it again, `n` times over. -/
def cycles : Nat → List PdUseAct
  | 0 => []
  | n + 1 => cycles n ++ [.mr (.getDma true), .mr (.dereg n)]

section

variable {s : PdUse}

theorem step_getDma (hfree : s.mr.pd.mrC < disMrMax) : ∃ t,
    pdUseStep sciLib64 s (.mr (.getDma true)) = some t ∧ t.mr.pd.mrC = s.mr.pd.mrC + 1 ∧
      t.mr.k.fresh = s.mr.k.fresh + 1 ∧ t.mr.live = s.mr.k.fresh :: s.mr.live := by
  have hget : ∃ k, disGetDmaMr true s.mr.pd s.mr.k =
      (some s.mr.k.fresh, s.mr.pd.addMr s.mr.k.fresh, k) ∧ k.fresh = s.mr.k.fresh + 1 := by
    unfold disGetDmaMr
    rw [if_neg (by omega), if_neg (by simp)]
    exact ⟨_, rfl, rfl⟩
  obtain ⟨k, hget, hfresh⟩ := hget
  refine ⟨{ s with mr := s.mr.register (some s.mr.k.fresh, s.mr.pd.addMr s.mr.k.fresh, k) },
    ?_, rfl, hfresh, rfl⟩
  simp only [pdUseStep, mrStep, hget, Option.map_some]

theorem step_dereg {p : Nat} (hp : p ∈ s.mr.live) : ∃ t,
    pdUseStep sciLib64 s (.mr (.dereg p)) = some t ∧ t.mr.pd = s.mr.pd ∧
      t.mr.k.fresh = s.mr.k.fresh ∧ t.mr.live = s.mr.live.erase p := by
  refine ⟨{ s with mr := { s.mr with
      k := disDeregMr p s.mr.k
      live := s.mr.live.erase p
      dead := (s.mr.k.mr p).lkey :: s.mr.dead } },
    by simp only [pdUseStep, mrStep, if_pos hp, Option.map_some], rfl, ?_, rfl⟩
  show (disDeregMr p s.mr.k).fresh = s.mr.k.fresh
  unfold disDeregMr
  split <;> rfl

end

theorem cycles_run (n : Nat) (hn : n ≤ disMrMax) : ∃ s,
    runActs (pdUseStep sciLib64) freshPdUse (cycles n) = some s ∧
      s.mr.pd.mrC = n ∧ s.mr.k.fresh = n ∧ s.mr.live = [] := by
  induction n with
  | zero => exact ⟨freshPdUse, rfl, rfl, rfl, rfl⟩
  | succ n ih =>
    obtain ⟨s, hrun, hcount, hfresh, hlive⟩ := ih (by omega)
    obtain ⟨t, hget, htcount, htfresh, htlive⟩ := step_getDma (s := s) (by omega)
    rw [hfresh, hlive] at htlive
    obtain ⟨u, hdereg, hupd, hufresh, hulive⟩ := step_dereg (s := t) (p := n) (by simp [htlive])
    refine ⟨u, ?_, by rw [hupd]; omega, by omega, by simp [hulive, htlive]⟩
    rw [cycles, runActs_append hrun]
    simp only [runActs, hget, hdereg]

end DisKverbs
