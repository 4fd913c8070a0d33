import DisKverbs.Ledger
import DisKverbs.MrPins
import DisKverbs.PdTables
import DisKverbs.Srq

namespace DisKverbs

open Cleanup Ledger StepSystem

/-- `dis_destroy_qp` after both queues were exited. -/
def destroyQpLog (qp : Nat) : List (Event QpResource) :=
  [.release (.rqBuf qp), .release (.sqBuf qp), .release (.qp qp)]

def resourceEvent : KernelEvent → Event Resource
  | .acquire r => .acquire r
  | .release r => .release r

/-- The objects of a device, its PDs `π`, and what its verbs acquired and released: `k.log` for the
MRs, and the ring buffers of a CQ and of an SRQ under the names of the objects they are for. -/
structure DevMem (π : Type) where
  pd : π → DisPd
  k : Kernel
  mrs : Finset Nat
  qps : Finset Nat
  cqs : Finset Nat
  srqs : Finset Nat
  qpLog : List (Event QpResource)
  cqLog : List (Event Nat)
  srqLog : List (Event Nat)

/-- The verbs that acquire or release; `p` is the address of the object. -/
inductive DevVerb (π : Type)
  | allocPd (pd : π)
  | getDmaMr (pd : π) (p : Nat) (mrAlloc : Bool)
  | regUserMr (pd : π) (p : Nat) (env : RegEnv) (start length va : UInt64)
  | deregMr (p : Nat)
  | createQp (pd : π) (p : Nat) (env : QpEnv) (attr : IbQpInitAttr)
  | destroyQp (p : Nat)
  | createCq (p : Nat) (mem : CreateMem) (sizeofCqe : Nat) (cqe : UInt32)
  | destroyCq (p : Nat)
  | createSrq (p : Nat) (mem : CreateMem) (sizeofWqe : Nat) (srqType : IbSrqType) (attr : IbSrqAttr)
  | destroySrq (p : Nat)

variable {π : Type} [DecidableEq π]

def DevMem.addMr (s : DevMem π) (pd : π) : KPtr × DisPd × Kernel → DevMem π
  | (ret, pd', k) => { s with
      pd := Function.update s.pd pd pd'
      k := k
      mrs := match ret with
        | .obj p => insert p s.mrs
        | _ => s.mrs }

def DevMem.addQp (s : DevMem π) (pd : π) (r : QpCreation) : DevMem π :=
  { s with
    pd := Function.update s.pd pd r.pd
    qps := match r.ret with
      | .obj p => insert p s.qps
      | _ => s.qps
    qpLog := s.qpLog ++ r.log }

/-- Memory in use is not given out again, and each object is destroyed at most once. -/
def devMemStep (s : DevMem π) : DevVerb π → Option (DevMem π)
  | .allocPd pd => some { s with pd := Function.update s.pd pd (disAllocPd (s.pd pd)) }
  | .getDmaMr pd p mrAlloc =>
    if p ∈ s.mrs then none
    else some (s.addMr pd (getDmaMr mrAlloc (s.pd pd) { s.k with fresh := p }))
  | .regUserMr pd p env start length va =>
    if p ∈ s.mrs then none
    else some (s.addMr pd (regUserMr env start length va (s.pd pd) { s.k with fresh := p }))
  | .deregMr p =>
    if p ∈ s.mrs then some { s with k := disDeregMr p s.k, mrs := s.mrs.erase p } else none
  | .createQp pd p env attr =>
    if p ∈ s.qps then none
    else some (s.addQp pd (createQp env attr (s.pd pd) p))
  | .destroyQp p =>
    if p ∈ s.qps then some { s with
      qps := s.qps.erase p
      qpLog := s.qpLog ++ destroyQpLog p }
    else none
  | .createCq p mem sizeofCqe cqe =>
    if p ∈ s.cqs then none
    else some (match cqRing mem sizeofCqe cqe with
      | some _ => { s with cqs := insert p s.cqs, cqLog := s.cqLog ++ [.acquire p] }
      | none => s)
  | .destroyCq p =>
    if p ∈ s.cqs then some { s with cqs := s.cqs.erase p, cqLog := s.cqLog ++ [.release p] }
    else none
  | .createSrq p mem sizeofWqe srqType attr =>
    if p ∈ s.srqs then none
    else some (if (createSrq mem sizeofWqe srqType attr zeroSrq).1 = 0 then
        { s with srqs := insert p s.srqs, srqLog := s.srqLog ++ [.acquire p] }
      else s)
  | .destroySrq p =>
    if p ∈ s.srqs then some { s with srqs := s.srqs.erase p, srqLog := s.srqLog ++ [.release p] }
    else none

/-- The driver was loaded. -/
def DevMemInit (s : DevMem π) : Prop :=
  s.mrs = ∅ ∧ s.qps = ∅ ∧ s.cqs = ∅ ∧ s.srqs = ∅ ∧
    s.k.log = [] ∧ s.qpLog = [] ∧ s.cqLog = [] ∧ s.srqLog = []

/-- What an MR holds. -/
def mrHolds (mr : Nat → DisMr) (p : Nat) : Finset Resource :=
  if (mr p).isDma then {.mr p} else {.mr p, .umem p, .pages p}

def qpHolds (p : Nat) : Finset QpResource := {.qp p, .sqBuf p, .rqBuf p}

/-- Every verb acquired only what was free and released only what was held, and what is held are
the structures and buffers of the objects that exist. -/
structure MemoryHeld (s : DevMem π) : Prop where
  mrs : replay ∅ (s.k.log.map resourceEvent) = some (s.mrs.biUnion (mrHolds s.k.mr))
  qps : replay ∅ s.qpLog = some (s.qps.biUnion qpHolds)
  cqs : replay ∅ s.cqLog = some s.cqs
  srqs : replay ∅ s.srqLog = some s.srqs

def QpResource.owner : QpResource → Nat
  | .qp p | .sqBuf p | .rqBuf p => p

section

variable {s t : DevMem π} {p : Nat}

theorem mrHolds_owner (mr : Nat → DisMr) (p : Nat) : ∀ r ∈ mrHolds mr p, r.owner = p := by
  intro r hr
  unfold mrHolds at hr
  split at hr
  next =>
    rw [Finset.mem_singleton.mp hr]
    rfl
  next =>
    simp only [Finset.mem_insert, Finset.mem_singleton] at hr
    rcases hr with rfl | rfl | rfl <;> rfl

theorem qpHolds_owner (p : Nat) : ∀ r ∈ qpHolds p, r.owner = p := by
  intro r hr
  simp only [qpHolds, Finset.mem_insert, Finset.mem_singleton] at hr
  rcases hr with rfl | rfl | rfl <;> rfl

/-- What a registration took, the latest first. -/
theorem mrHolds_pages (p : Nat) : ({.mr p, .umem p, .pages p} : Finset Resource) =
    ([.pages p, .umem p, .mr p] : List Resource).toFinset := by
  ext r
  simp only [Finset.mem_insert, Finset.mem_singleton, List.mem_toFinset, List.mem_cons,
    List.not_mem_nil]
  tauto

theorem qpHolds_bufs (p : Nat) :
    qpHolds p = ([.rqBuf p, .sqBuf p, .qp p] : List QpResource).toFinset := by
  ext r
  simp only [qpHolds, Finset.mem_insert, Finset.mem_singleton, List.mem_toFinset, List.mem_cons,
    List.not_mem_nil]
  tauto

theorem resourceEvent_kernelEvent (es : List (Event Resource)) :
    (es.map kernelEvent).map resourceEvent = es := by
  rw [List.map_map]
  refine (List.map_congr_left fun e _ => ?_).trans (List.map_id es)
  cases e <;> rfl

/-- A call that makes an MR or fails, by the log it adds on top of what other MRs hold. -/
inductive MrGrowth (k : Kernel) : KPtr × DisPd × Kernel → Prop
  | failed {pd k'} (es : List (Event Resource)) : k'.log = k.log ++ es.map kernelEvent →
      k'.mr = k.mr →
      (∀ others, (∀ r, r.owner = k.fresh → r ∉ others) → replay others es = some others) →
      MrGrowth k (.errPtr einval, pd, k')
  | added {pd k'} (es : List (Event Resource)) (mr : DisMr) :
      k'.log = k.log ++ es.map kernelEvent → k'.mr = Function.update k.mr k.fresh mr →
      (∀ others, (∀ r, r.owner = k.fresh → r ∉ others) →
        replay others es = some (others ∪ mrHolds k'.mr k.fresh)) →
      MrGrowth k (.obj k.fresh, pd, k')

theorem regUserMrBody_takes (env : RegEnv) (start length va : UInt64) (pd : DisPd) (p : Nat) :
    Takes (fun r => r.owner = p) (regUserMrBody env start length va pd p) := by
  refine takes_gotoIf (takes_gotoIf (takes_acquire rfl ?_))
  cases env.ibUmemGet start length with
  | none => trivial
  | some u =>
    refine takes_acquire rfl (takes_gotoIf (takes_gotoIf (takes_acquire rfl ?_)))
    rw [storePages_eq]
    split
    next => trivial
    next => trivial

theorem createQpBody_takes (env : QpEnv) (attr : IbQpInitAttr) (pd : DisPd) (p : Nat) :
    Takes (fun r => r.owner = p) (createQpBody env attr pd p) := by
  refine takes_gotoIf (takes_gotoIf (takes_acquire rfl ?_))
  cases env.sqRing attr with
  | none => trivial
  | some sqRing =>
    refine takes_acquire rfl ?_
    cases env.rqRing attr with
    | none => trivial
    | some rqRing => exact takes_acquire rfl trivial

theorem disRegUserMr_isDma {env : RegEnv} {start length va : UInt64} {pd : DisPd} {k : Kernel}
    (h : (disRegUserMr env start length va pd k).1 = some p) :
    ((disRegUserMr env start length va pd k).2.2.mr p).isDma = false := by
  revert h
  unfold disRegUserMr
  split
  next => simp
  next =>
    split
    next => simp
    next =>
      split
      next => simp
      next =>
        split
        next => simp
        next =>
          split
          next => simp
          next =>
            simp only []
            split
            next => simp
            next =>
              intro h
              cases Option.some.inj h
              simp [Kernel.setMr]

theorem perform_mr (es : List (Event Resource)) (k : Kernel) :
    (es.foldl Kernel.perform k).mr = k.mr := by
  induction es generalizing k with
  | nil => rfl
  | cons e es ih =>
    have hone : (k.perform e).mr = k.mr := by
      rcases e with (_ | _ | _) | _ <;> rfl
    rw [List.foldl_cons, ih, hone]

theorem regUserMr_growth (env : RegEnv) (start length va : UInt64) (pd : DisPd) (k : Kernel) :
    MrGrowth k (regUserMr env start length va pd k) := by
  have hreplay (others : Finset Resource) (ho : ∀ r, r.owner = k.fresh → r ∉ others) :=
    undoes_replay (regUserMrBody_undoes env start length va pd k.fresh)
      (regUserMrBody_takes env start length va pd k.fresh) List.nodup_nil (by simp) ho
  have hdma := @disRegUserMr_isDma k.fresh env start length va pd k
  have heq := regUserMr_eq env start length va pd k
  unfold regUserMr at heq ⊢
  cases he : exec (regLabels k.fresh) (regUserMrBody env start length va pd k.fresh) with
  | mk o es =>
  rw [he] at heq hreplay
  cases o with
  | none =>
    refine .failed es (perform_log es k) (perform_mr es k) fun others ho => ?_
    rcases hreplay others ho with ⟨_, _, _, hmr, _⟩ | ⟨_, hlog⟩
    · cases hmr
    · simpa using hlog
  | some mr =>
    have hret : (disRegUserMr env start length va pd k).1 = some k.fresh := by
      have hobj := congrArg Prod.fst heq
      cases hr : (disRegUserMr env start length va pd k).1 with
      | none => simp [hr] at hobj
      | some p => simpa [hr, eq_comm] using hobj
    have hmr : (disRegUserMr env start length va pd k).2.2.mr k.fresh = mr := by
      rw [← congrArg (fun r => r.2.2.mr k.fresh) heq]
      simp [Kernel.setMr]
    have hnodma := hdma hret
    rw [hmr] at hnodma
    refine .added es mr (perform_log es k) ?_ fun others ho => ?_
    · show Function.update (es.foldl Kernel.perform k).mr k.fresh mr = _
      rw [perform_mr]
    · rcases hreplay others ho with ⟨_, rs, ⟨rfl, _⟩, _, hlog⟩ | ⟨hnone, _⟩
      · have hholds : mrHolds ((es.foldl Kernel.perform k).setMr k.fresh mr).mr k.fresh =
            {.mr k.fresh, .umem k.fresh, .pages k.fresh} := by
          simp [mrHolds, Kernel.setMr, hnodma]
        rw [hholds]
        rw [mrHolds_pages]
        simpa using hlog
      · cases hnone

theorem getDmaMr_growth (mrAlloc : Bool) (pd : DisPd) (k : Kernel) :
    MrGrowth k (getDmaMr mrAlloc pd k) := by
  have failed : MrGrowth k (.errPtr einval, pd, k) :=
    .failed [] (List.append_nil _).symm rfl fun _ _ => rfl
  unfold getDmaMr disGetDmaMr
  split
  next h =>
    split at h
    next => simp at h
    next =>
      split at h
      next => simp at h
      next =>
        cases h
        refine .added [.acquire (.mr k.fresh)] _ rfl rfl fun others ho => ?_
        rw [replay_acquire (ho _ rfl), Finset.insert_eq, Finset.union_comm]
        simp [mrHolds, Kernel.setMr]
  next h =>
    split at h
    next => cases h; exact failed
    next =>
      split at h
      next => cases h; exact failed
      next => simp at h

theorem createQp_replay (env : QpEnv) (attr : IbQpInitAttr) (pd : DisPd)
    {others : Finset QpResource} (ho : ∀ r, r.owner = p → r ∉ others) :
    (createQp env attr pd p).ret = .obj p ∧
        replay others (createQp env attr pd p).log = some (others ∪ qpHolds p) ∨
      (createQp env attr pd p).ret = .null ∧
        replay others (createQp env attr pd p).log = some others := by
  have hreplay := undoes_replay (createQpBody_undoes env attr pd p)
    (createQpBody_takes env attr pd p) List.nodup_nil (by simp) ho
  unfold createQp
  cases he : exec (createQpLabels p) (createQpBody env attr pd p) with
  | mk o es =>
  rw [he] at hreplay
  rcases hreplay with ⟨made, rs, ⟨rfl, _⟩, ho, hlog⟩ | ⟨ho, hlog⟩
  · have hsome : o = some made := ho
    subst hsome
    rw [qpHolds_bufs]
    exact .inl ⟨rfl, by simpa using hlog⟩
  · have hnone : o = none := ho
    subst hnone
    exact .inr ⟨rfl, by simpa using hlog⟩

theorem MemoryHeld.addMr (hi : MemoryHeld s) (hp : p ∉ s.mrs) (pd : π)
    {r : KPtr × DisPd × Kernel} (hg : MrGrowth { s.k with fresh := p } r) :
    MemoryHeld (s.addMr pd r) := by
  have hothers : ∀ r : Resource, r.owner = p → r ∉ s.mrs.biUnion (mrHolds s.k.mr) := fun _ =>
    unowned (mrHolds_owner s.k.mr) hp
  cases hg with
  | @failed pd' k' es hlog hmr hreplay =>
    refine ⟨?_, hi.qps, hi.cqs, hi.srqs⟩
    show replay ∅ (k'.log.map resourceEvent) = some (s.mrs.biUnion (mrHolds k'.mr))
    rw [hlog, hmr, List.map_append, resourceEvent_kernelEvent]
    exact replay_then hi.mrs (hreplay _ hothers)
  | @added pd' k' es mr hlog hmr hreplay =>
    refine ⟨?_, hi.qps, hi.cqs, hi.srqs⟩
    show replay ∅ (k'.log.map resourceEvent) = some ((insert p s.mrs).biUnion (mrHolds k'.mr))
    -- the other MRs are left alone
    have hrest : s.mrs.biUnion (mrHolds k'.mr) = s.mrs.biUnion (mrHolds s.k.mr) := by
      refine Finset.biUnion_congr rfl fun q hq => ?_
      have hne : q ≠ p := ne_of_mem_of_not_mem hq hp
      have hmr' : k'.mr = Function.update s.k.mr p mr := hmr
      simp only [mrHolds, hmr', Function.update_of_ne hne]
    rw [hlog, List.map_append, resourceEvent_kernelEvent, Finset.biUnion_insert, hrest,
      Finset.union_comm]
    exact replay_then hi.mrs (hreplay _ hothers)

omit [DecidableEq π] in
theorem MemoryHeld.deregMr (hi : MemoryHeld s) (hp : p ∈ s.mrs) :
    MemoryHeld { s with k := disDeregMr p s.k, mrs := s.mrs.erase p } := by
  refine ⟨?_, hi.qps, hi.cqs, hi.srqs⟩
  show replay ∅ ((disDeregMr p s.k).log.map resourceEvent) =
    some ((s.mrs.erase p).biUnion (mrHolds (disDeregMr p s.k).mr))
  rw [disDeregMr_mr]
  have hgoes := replay_disown (mrHolds_owner s.k.mr) hp
  unfold disDeregMr
  split
  next hdma =>
    rw [Kernel.release, List.map_append]
    exact replay_then hi.mrs (hgoes [.mr p] (by simp) (by simp [mrHolds, hdma]))
  next hdma =>
    simp only [Kernel.release, List.map_append, List.append_assoc]
    refine replay_then hi.mrs (hgoes [.pages p, .umem p, .mr p] (by simp) ?_)
    rw [← mrHolds_pages]
    simp [mrHolds, hdma]

theorem MemoryHeld.addQp (hi : MemoryHeld s) (hp : p ∉ s.qps) (pd : π) (env : QpEnv)
    (attr : IbQpInitAttr) : MemoryHeld (s.addQp pd (createQp env attr (s.pd pd) p)) := by
  have hothers : ∀ r : QpResource, r.owner = p → r ∉ s.qps.biUnion qpHolds := fun _ =>
    unowned qpHolds_owner hp
  refine ⟨hi.mrs, ?_, hi.cqs, hi.srqs⟩
  rcases createQp_replay env attr (s.pd pd) hothers with ⟨hret, hlog⟩ | ⟨hret, hlog⟩
  · simp only [DevMem.addQp, hret]
    rw [Finset.biUnion_insert, Finset.union_comm]
    exact replay_then hi.qps hlog
  · simp only [DevMem.addQp, hret]
    exact replay_then hi.qps hlog

omit [DecidableEq π] in
theorem MemoryHeld.destroyQp (hi : MemoryHeld s) (hp : p ∈ s.qps) :
    MemoryHeld { s with qps := s.qps.erase p, qpLog := s.qpLog ++ destroyQpLog p } := by
  refine ⟨hi.mrs, ?_, hi.cqs, hi.srqs⟩
  exact replay_then hi.qps (replay_disown qpHolds_owner hp [.rqBuf p, .sqBuf p, .qp p] (by simp)
    (qpHolds_bufs p))

/-- Every verb, on each of its exits, keeps the account. -/
theorem MemoryHeld.step {a : DevVerb π} (hi : MemoryHeld s) (h : devMemStep s a = some t) :
    MemoryHeld t := by
  cases a with
  | allocPd pd =>
    cases Option.some.inj h
    exact ⟨hi.mrs, hi.qps, hi.cqs, hi.srqs⟩
  | getDmaMr pd p mrAlloc =>
    obtain ⟨hp, ht⟩ := Option.ite_none_left_eq_some.mp h
    cases Option.some.inj ht
    exact hi.addMr hp pd (getDmaMr_growth ..)
  | regUserMr pd p env start length va =>
    obtain ⟨hp, ht⟩ := Option.ite_none_left_eq_some.mp h
    cases Option.some.inj ht
    exact hi.addMr hp pd (regUserMr_growth ..)
  | deregMr p =>
    obtain ⟨hp, ht⟩ := Option.ite_none_right_eq_some.mp h
    cases Option.some.inj ht
    exact hi.deregMr hp
  | createQp pd p env attr =>
    obtain ⟨hp, ht⟩ := Option.ite_none_left_eq_some.mp h
    cases Option.some.inj ht
    exact hi.addQp hp pd env attr
  | destroyQp p =>
    obtain ⟨hp, ht⟩ := Option.ite_none_right_eq_some.mp h
    cases Option.some.inj ht
    exact hi.destroyQp hp
  | createCq p mem sizeofCqe cqe =>
    obtain ⟨hp, ht⟩ := Option.ite_none_left_eq_some.mp h
    cases Option.some.inj ht
    split
    next => exact ⟨hi.mrs, hi.qps, replay_then hi.cqs (replay_acquire hp), hi.srqs⟩
    next => exact hi
  | destroyCq p =>
    obtain ⟨hp, ht⟩ := Option.ite_none_right_eq_some.mp h
    cases Option.some.inj ht
    exact ⟨hi.mrs, hi.qps, replay_then hi.cqs (replay_release hp), hi.srqs⟩
  | createSrq p mem sizeofWqe srqType attr =>
    obtain ⟨hp, ht⟩ := Option.ite_none_left_eq_some.mp h
    cases Option.some.inj ht
    split
    next => exact ⟨hi.mrs, hi.qps, hi.cqs, replay_then hi.srqs (replay_acquire hp)⟩
    next => exact hi
  | destroySrq p =>
    obtain ⟨hp, ht⟩ := Option.ite_none_right_eq_some.mp h
    cases Option.some.inj ht
    exact ⟨hi.mrs, hi.qps, hi.cqs, replay_then hi.srqs (replay_release hp)⟩

end

theorem reach_held {s : DevMem π} (h : Reach DevMemInit (Acts devMemStep anyAct) s) :
    MemoryHeld s := by
  apply h.invariant
  · rintro s ⟨hmrs, hqps, hcqs, hsrqs, hk, hq, hc, hs⟩
    refine ⟨?_, ?_, ?_, ?_⟩
    · simp [hmrs, hk, replay]
    · simp [hqps, hq, replay]
    · simp [hcqs, hc, replay]
    · simp [hsrqs, hs, replay]
  · rintro s t _ hi ⟨_, _, hs⟩
    exact hi.step hs

/-- In every run of the verbs of a device, over any number of PDs and with memory that is given out
again, whatever the kernel refuses: nothing is acquired twice, nothing is released that is not held,
and what is held is what the objects that exist hold. Once they are gone, all was given back. -/
theorem reach_memoryHeld (s : DevMem π) (h : Reach DevMemInit (Acts devMemStep anyAct) s) :
    MemoryHeld s ∧ (s.mrs = ∅ → s.qps = ∅ → s.cqs = ∅ → s.srqs = ∅ →
      (∀ r, (s.k.log.map resourceEvent).count (.acquire r) =
        (s.k.log.map resourceEvent).count (.release r)) ∧
      (∀ r, s.qpLog.count (.acquire r) = s.qpLog.count (.release r)) ∧
      (∀ r, s.cqLog.count (.acquire r) = s.cqLog.count (.release r)) ∧
      ∀ r, s.srqLog.count (.acquire r) = s.srqLog.count (.release r)) := by
  have hi := reach_held h
  refine ⟨hi, fun hmrs hqps hcqs hsrqs => ⟨?_, ?_, ?_, ?_⟩⟩
  · exact replay_closed (by rw [hi.mrs, hmrs]; rfl)
  · exact replay_closed (by rw [hi.qps, hqps]; rfl)
  · exact replay_closed (by rw [hi.cqs, hcqs])
  · exact replay_closed (by rw [hi.srqs, hsrqs])

def freshDevMem : DevMem Bool := ⟨fun _ => fullPd, emptyKernel, ∅, ∅, ∅, ∅, [], [], []⟩

/-- Two PDs: the page list of one registration is refused, another registration gets the memory of
the DMA MR, and the second PD has a QP whose CQ and SRQ are destroyed. -/
def twoPdVerbs : List (DevVerb Bool) :=
  [.allocPd false, .allocPd true, .getDmaMr false 64 true,
    .regUserMr true 80 { twoPageEnv with pagesAlloc := false } 0x1100 0x1000 0x7100, .deregMr 64,
    .regUserMr true 64 twoPageEnv 0x1100 0x1000 0x7100, .createCq 5 grantingMem 64 4,
    .createSrq 6 grantingMem 256 .basic ⟨4, 1, 0⟩, .createQp true 7 plentyQpEnv smallAttr,
    .destroyCq 5, .destroySrq 6]

def twoPds : DevMem Bool := afterActs devMemStep freshDevMem twoPdVerbs

theorem reach_memoryHeld_twoPds :
    twoPds.mrs = {64} ∧ twoPds.qps = {7} ∧ twoPds.cqs = ∅ ∧ twoPds.k.log.length = 9 ∧
      MemoryHeld twoPds :=
  ⟨by decide, by decide, by decide, by decide,
    (reach_memoryHeld twoPds (reach_afterActs
      ⟨rfl, rfl, rfl, rfl, rfl, rfl, rfl, rfl⟩ twoPdVerbs)).1⟩

end DisKverbs
