import DisKverbs.PostChains
import DisKverbs.WqSpec
import DisKverbs.RingSizes

namespace DisKverbs

open CircBuf

structure IbSrqAttr where
  maxWr : UInt32
  maxSge : UInt32
  srqLimit : UInt32
  deriving DecidableEq

inductive IbSrqType
  | basic
  | xrc
  | tm

/-- `struct dis_srq`; `rqBytes` are the bytes of its ring buffer. -/
structure DisSrq where
  rq : DisWq
  rqBytes : Nat
  sgeMax : UInt32
  srqType : IbSrqType
  srqLimit : UInt32

/-- The object as the RDMA core hands it to `dis_create_srq`. -/
def zeroSrq : DisSrq := ⟨zeroWq, 0, 0, .basic, 0⟩

/-- The attributes are stored before the buffer is allocated. -/
def createSrq (mem : CreateMem) (sizeofWqe : Nat) (srqType : IbSrqType) (attr : IbSrqAttr)
    (srq : DisSrq) : Int × DisSrq :=
  let wqeMax := (mem.size attr.maxWr).toNat
  let srq := { srq with
    srqType := srqType
    srqLimit := attr.srqLimit
    sgeMax := attr.maxSge
    rq := { srq.rq with wqeMax := wqeMax } }
  if mem.kzalloc (sizeofWqe * wqeMax) then
    (0, { srq with
      rq := { srq.rq with buf := fun _ => default }
      rqBytes := sizeofWqe * wqeMax })
  else (-42, srq)

def disQuerySrq (srq : DisSrq) : IbSrqAttr :=
  ⟨UInt32.ofNat srq.rq.wqeMax, srq.sgeMax, srq.srqLimit⟩

/-- The queue as each call of `dis_qp_post_one_rqe` for a chain finds it. -/
def srqCalls (lib : SciLib) (t : MrTable) : DisWq → List (IbWr × Option PageMap) → List DisWq
  | _, [] => []
  | wq, (wr, kmalloc) :: rest =>
    let r := disQpPostOneRqe lib t kmalloc wq wr
    wq :: if wq.ibqp = nullQp ∨ r.ret ≠ 0 then [] else srqCalls lib t (disQpNotify r.wq).2 rest

/-- What `dis_qp_post_one_rqe` relies on; `pdOf` is the PD of a QP, zero for NULL. -/
structure PostReady (pdOf : Nat → Nat) (sizeofWqe bytes : Nat) (wq : DisWq) : Prop where
  ibqp : wq.ibqp ≠ nullQp
  pd : pdOf wq.ibqp ≠ 0
  pow : ∃ k, wq.wqeMax = 2 ^ k
  buf : sizeofWqe * wq.wqeMax ≤ bytes

/-- Every call of a chain finds what it relies on, and its WRs are enqueued in order up to the
first that is rejected. -/
structure SrqPostsSafe (lib : SciLib) (t : MrTable) (pdOf : Nat → Nat) (sizeofWqe : Nat)
    (srq : DisSrq) (posts : List (IbWr × Option PageMap)) : Prop where
  ready : ∀ wq ∈ srqCalls lib t srq.rq posts, PostReady pdOf sizeofWqe srq.rqBytes wq
  posted : ∃ res, disPostSrqRecv lib t srq.rq posts = some res ∧
    ChainPosted lib .recv t srq.rq posts res

section

variable {mem : CreateMem} {sizeofWqe : Nat} {srqType : IbSrqType} {attr : IbSrqAttr}
  {srq : DisSrq}

/-- The receive queue is the one of `disCreateSrq`, with the size that the kernel rounds to. -/
theorem createSrq_rq (h : createSrq mem sizeofWqe srqType attr zeroSrq = (0, srq)) :
    srq.rq = { (disCreateSrq true attr.maxWr zeroWq).2 with
      wqeMax := (mem.size attr.maxWr).toNat } := by
  simp only [createSrq] at h
  split at h
  next =>
    obtain ⟨_, rfl⟩ := Prod.mk.inj h
    rfl
  next => simp at h

theorem chainPosted_nil (lib : SciLib) (t : MrTable) (wq : DisWq) :
    ChainPosted lib .recv t wq [] ⟨0, wq, []⟩ := by
  refine ⟨?_, by simp, by simp, fun h => absurd rfl h⟩
  rw [List.map_nil, List.append_nil]

end

/-- `srq->rq.ibqp` is never set, so no WR can be posted to a shared receive queue. -/
theorem srqPostsSafe_iff (lib : SciLib) (t : MrTable) (pdOf : Nat → Nat) (mem : CreateMem)
    (sizeofWqe : Nat) (srqType : IbSrqType) (attr : IbSrqAttr) (srq : DisSrq)
    (posts : List (IbWr × Option PageMap))
    (h : createSrq mem sizeofWqe srqType attr zeroSrq = (0, srq)) :
    SrqPostsSafe lib t pdOf sizeofWqe srq posts ↔ posts = [] := by
  have hnull : srq.rq.ibqp = nullQp := by
    rw [createSrq_rq h]
    exact disCreateSrq_ibqp true attr.maxWr
  constructor
  · intro hsafe
    cases posts with
    | nil => rfl
    | cons post rest =>
      have hfirst : srq.rq ∈ srqCalls lib t srq.rq (post :: rest) := List.mem_cons_self
      exact absurd hnull (hsafe.ready _ hfirst).ibqp
  · rintro rfl
    refine ⟨by simp [srqCalls], ⟨0, srq.rq, []⟩, ?_, chainPosted_nil lib t srq.rq⟩
    rw [disPostSrqRecv, if_neg (fun hne => hne.2 rfl)]
    rfl

def fourSrq : DisSrq := (createSrq grantingMem 256 .basic ⟨4, 1, 0⟩ zeroSrq).2

theorem srqPostsSafe_none :
    SrqPostsSafe sciLib64 twoPageTable (fun _ => 1) 256 fourSrq [] ↔
      ([] : List (IbWr × Option PageMap)) = [] :=
  srqPostsSafe_iff sciLib64 twoPageTable (fun _ => 1) grantingMem 256 .basic ⟨4, 1, 0⟩ fourSrq [] rfl

/-- A single WR without SGEs makes the driver follow the unset pointer. -/
theorem srq_nullFollowed :
    createSrq grantingMem 256 .basic ⟨4, 1, 0⟩ zeroSrq = (0, fourSrq) ∧
      fourSrq.rq.ibqp = nullQp ∧
      disPostSrqRecv sciLib64 twoPageTable fourSrq.rq [(emptyWr, none)] = none ∧
      ¬ SrqPostsSafe sciLib64 twoPageTable (fun _ => 1) 256 fourSrq [(emptyWr, none)] := by
  refine ⟨rfl, rfl, rfl, fun h => ?_⟩
  exact (h.ready fourSrq.rq List.mem_cons_self).ibqp rfl

end DisKverbs
