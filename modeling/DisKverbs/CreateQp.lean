import DisKverbs.Cleanup
import DisKverbs.QpLife
import DisKverbs.RegUserMr
import DisKverbs.RingSizes

namespace DisKverbs

open Cleanup

inductive IbSigType
  | allWr
  | reqWr
  deriving DecidableEq

structure IbQpCap where
  maxSendWr : UInt32
  maxRecvWr : UInt32
  maxSendSge : UInt32
  maxRecvSge : UInt32
  maxInlineData : UInt32

/-- `struct ib_qp_init_attr`; pointers are names, `qpType` is the number of an enumerator. -/
structure IbQpInitAttr where
  eventHandler : Nat
  sendCq : Nat
  recvCq : Nat
  srq : Nat
  cap : IbQpCap
  sqSigType : IbSigType
  qpType : UInt32

structure IbQp where
  pd : Nat
  sendCq : Nat
  recvCq : Nat
  srq : Nat
  qpType : UInt32
  qpNum : UInt32

/-- What a creation stores into one of the two queues. -/
structure CreatedWq where
  ibqp : Nat
  cq : Nat
  sgeMax : UInt32
  inlineMax : UInt32
  wqType : DisWqType
  ring : RingBuf

/-- `struct dis_qp` as `dis_create_qp` leaves it. -/
structure CreatedQp where
  dev : Nat
  sqSigType : IbSigType
  type : UInt32
  state : IbQpState
  mtu : UInt32
  lQpn : UInt32
  eventHandler : Nat
  ibqp : IbQp
  sq : CreatedWq
  rq : CreatedWq

/-- The PD and its device by name, and what the kernel answers to the three allocations. -/
structure QpEnv where
  ibpd : Nat
  device : Nat
  sizeofWqe : Nat
  qpAlloc : Bool
  sq : CreateMem
  rq : CreateMem

/-- What one creation acquires, by the QP structure it is for. -/
inductive QpResource
  | qp (qp : Nat)
  | sqBuf (qp : Nat)
  | rqBuf (qp : Nat)
  deriving DecidableEq

inductive CreateQpLabel
  | createQpAllocRqErr
  | createQpAllocSqErr
  | qpAllocErr
  | noQpLeftErr
  deriving DecidableEq

/-- The end of `dis_create_qp`, from its first label on. -/
def createQpLabels (qp : Nat) : List (CreateQpLabel × List QpResource) :=
  [(.createQpAllocRqErr, [.sqBuf qp]),
   (.createQpAllocSqErr, [.qp qp]),
   (.qpAllocErr, []),
   (.noQpLeftErr, [])]

def QpEnv.sqRing (env : QpEnv) (attr : IbQpInitAttr) : Option RingBuf :=
  env.sq.ring env.sizeofWqe (attr.cap.maxSendWr + 1)

def QpEnv.rqRing (env : QpEnv) (attr : IbQpInitAttr) : Option RingBuf :=
  env.rq.ring env.sizeofWqe (attr.cap.maxRecvWr + 1)

def createQpBody (env : QpEnv) (attr : IbQpInitAttr) (pd : DisPd) (qp : Nat) :
    Body QpResource CreateQpLabel CreatedQp := do
  gotoIf (disQpMax ≤ pd.qpC) .noQpLeftErr
  gotoIf (env.qpAlloc = false) .qpAllocErr
  acquire (.qp qp)
  match env.sqRing attr with
  | none => goto .createQpAllocSqErr
  | some sqRing =>
    acquire (.sqBuf qp)
    match env.rqRing attr with
    | none => goto .createQpAllocRqErr
    | some rqRing =>
      acquire (.rqBuf qp)
      let lQpn := UInt32.ofNat pd.qpC
      pure {
        dev := env.device
        sqSigType := attr.sqSigType
        type := attr.qpType
        state := .reset
        mtu := ibMtuEnumToInt .mtu4096
        lQpn := lQpn
        eventHandler := attr.eventHandler
        ibqp := {
          pd := env.ibpd
          sendCq := attr.sendCq
          recvCq := attr.recvCq
          srq := attr.srq
          qpType := attr.qpType
          qpNum := lQpn }
        sq := {
          ibqp := qp
          cq := attr.sendCq
          sgeMax := attr.cap.maxSendSge
          inlineMax := attr.cap.maxInlineData
          wqType := .sq
          ring := sqRing }
        rq := {
          ibqp := qp
          cq := attr.recvCq
          sgeMax := attr.cap.maxRecvSge
          inlineMax := attr.cap.maxInlineData
          wqType := .rq
          ring := rqRing } }

/-- The last step of a creation: the next number and its table entry. -/
def DisPd.addQp (pd : DisPd) (qp : Nat) : DisPd :=
  { pd with qpList := Function.update pd.qpList pd.qpC (some qp), qpC := pd.qpC + 1 }

/-- What a call of `dis_create_qp` returns, makes and does. -/
structure QpCreation where
  ret : KPtr
  made : Option CreatedQp
  pd : DisPd
  log : List (Event QpResource)

/-- `dis_create_qp` with all attributes and its labels; `qp` names the new structure. -/
def createQp (env : QpEnv) (attr : IbQpInitAttr) (pd : DisPd) (qp : Nat) : QpCreation :=
  match exec (createQpLabels qp) (createQpBody env attr pd qp) with
  | (some made, es) => ⟨.obj qp, some made, pd.addQp qp, es⟩
  | (none, es) => ⟨.null, none, pd, es⟩

/-- The points at which `dis_create_qp` can fail. -/
inductive CreateQpFault (env : QpEnv) (attr : IbQpInitAttr) (pd : DisPd) : Prop
  | noQpLeft : disQpMax ≤ pd.qpC → CreateQpFault env attr pd
  | qpAlloc : env.qpAlloc = false → CreateQpFault env attr pd
  | sqBuf : env.sqRing attr = none → CreateQpFault env attr pd
  | rqBuf : env.rqRing attr = none → CreateQpFault env attr pd

/-- What a failed creation owes its caller, who tells failures by `IS_ERR` and follows every other
pointer. -/
structure CreateQpUndone (pd : DisPd) (r : QpCreation) : Prop where
  table : r.pd.qpList = pd.qpList ∧ r.pd.qpC = pd.qpC
  released : ReleasedOnce r.log
  recognised : r.ret.isErr = true

/-- A creation that fails changes nothing, and one that does not fail adds the QP it made under
the number it gave it. -/
structure CreateQpSpec (env : QpEnv) (attr : IbQpInitAttr) (pd : DisPd) (qp : Nat)
    (r : QpCreation) : Prop where
  failed : CreateQpFault env attr pd →
    r.ret = .null ∧ r.made = none ∧ r.pd = pd ∧ ReleasedOnce r.log
  succeeded : ¬ CreateQpFault env attr pd → ∃ made, r.ret = .obj qp ∧ r.made = some made ∧
    r.pd = pd.addQp qp ∧ OnlyAcquired [.qp qp, .sqBuf qp, .rqBuf qp] r.log ∧
    pd.qpC < disQpMax ∧ made.lQpn = UInt32.ofNat pd.qpC ∧ made.ibqp.qpNum = made.lQpn ∧
    env.sqRing attr = some made.sq.ring ∧ env.rqRing attr = some made.rq.ring

theorem createQpBody_undoes (env : QpEnv) (attr : IbQpInitAttr) (pd : DisPd) (qp : Nat) :
    (createQpBody env attr pd qp).Undoes (createQpLabels qp)
      (fun made held => held = [.rqBuf qp, .sqBuf qp, .qp qp] ∧ ¬ CreateQpFault env attr pd ∧
        pd.qpC < disQpMax ∧ made.lQpn = UInt32.ofNat pd.qpC ∧ made.ibqp.qpNum = made.lQpn ∧
        env.sqRing attr = some made.sq.ring ∧ env.rqRing attr = some made.rq.ring)
      (fun _ => CreateQpFault env attr pd) [] := by
  refine undoes_gotoIf (fun hfull => ⟨rfl, .noQpLeft hfull⟩) fun hfree => ?_
  refine undoes_gotoIf (fun ha => ⟨rfl, .qpAlloc ha⟩) fun ha => ?_
  refine undoes_acquire (by simp) ?_
  cases hs : env.sqRing attr with
  | none => exact ⟨rfl, .sqBuf hs⟩
  | some sqRing =>
    refine undoes_acquire (by simp) ?_
    cases hr : env.rqRing attr with
    | none => exact ⟨rfl, .rqBuf hr⟩
    | some rqRing =>
      refine undoes_acquire (by simp) ?_
      refine ⟨rfl, fun hfault => ?_, Nat.lt_of_not_le hfree, rfl, rfl, rfl, rfl⟩
      cases hfault with
      | noQpLeft h => exact hfree h
      | qpAlloc h => exact ha h
      | sqBuf h => simp [hs] at h
      | rqBuf h => simp [hr] at h

theorem createQp_spec (env : QpEnv) (attr : IbQpInitAttr) (pd : DisPd) (qp : Nat) :
    CreateQpSpec env attr pd qp (createQp env attr pd qp) := by
  have hbody := undoes_cleans (createQpBody_undoes env attr pd qp)
  unfold createQp
  cases he : exec (createQpLabels qp) (createQpBody env attr pd qp) with
  | mk o es =>
  rw [he] at hbody
  rcases hbody with ⟨made, rs, ⟨hrs, hok, hmade⟩, rfl, hes⟩ | ⟨⟨_, hfault⟩, rfl, hes⟩
  · rw [List.reverse_eq_iff.mp hrs] at hes
    exact ⟨fun hfault => absurd hfault hok, fun _ => ⟨made, rfl, rfl, rfl, hes, hmade⟩⟩
  · exact ⟨fun _ => ⟨rfl, rfl, rfl, hes⟩, fun hok => absurd hfault hok⟩

/-- The table changes as the creation without its labels and attributes changes it. -/
theorem createQp_create (env : QpEnv) (attr : IbQpInitAttr) (pd : DisPd) (qp : Nat) :
    let r := disCreateQp ⟨env.qpAlloc, (env.sqRing attr).isSome, (env.rqRing attr).isSome⟩ qp
      attr.cap.maxSendWr attr.cap.maxRecvWr pd
    (createQp env attr pd qp).pd = r.2 ∧ (createQp env attr pd qp).made.isSome = r.1.isSome := by
  have hspec := createQp_spec env attr pd qp
  have failed (hfault : CreateQpFault env attr pd) : (createQp env attr pd qp).pd = pd ∧
      (createQp env attr pd qp).made.isSome = false := by
    obtain ⟨_, hmade, hpd, _⟩ := hspec.failed hfault
    rw [hmade, hpd]
    exact ⟨rfl, rfl⟩
  simp only [disCreateQp]
  split
  next hfull => exact failed (.noQpLeft hfull)
  next hfree =>
    split
    next ha => exact failed (.qpAlloc (by simpa using ha))
    next ha =>
      split
      next hs => exact failed (.sqBuf (by simpa using hs))
      next hs =>
        split
        next hr => exact failed (.rqBuf (by simpa using hr))
        next hr =>
          have hok : ¬ CreateQpFault env attr pd := by
            intro hfault
            cases hfault with
            | noQpLeft h => exact hfree h
            | qpAlloc h => simp [h] at ha
            | sqBuf h => simp [h] at hs
            | rqBuf h => simp [h] at hr
          obtain ⟨made, _, hmade, hpd, _⟩ := hspec.succeeded hok
          rw [hmade, hpd]
          exact ⟨rfl, rfl⟩

/-- At whichever point a creation fails, it undoes all it did, but returns NULL, which its caller
takes for a QP. -/
theorem createQp_unrecognised (env : QpEnv) (attr : IbQpInitAttr) (pd : DisPd) (qp : Nat)
    (h : CreateQpFault env attr pd) :
    ¬ CreateQpUndone pd (createQp env attr pd qp) ∧ (createQp env attr pd qp).ret = .null ∧
      (createQp env attr pd qp).pd = pd ∧ ReleasedOnce (createQp env attr pd qp).log := by
  obtain ⟨hret, _, hpd, hlog⟩ := (createQp_spec env attr pd qp).failed h
  refine ⟨fun hu => ?_, hret, hpd, hlog⟩
  have hrec := hu.recognised
  rw [hret] at hrec
  cases hrec

def plentyQpEnv : QpEnv := ⟨1, 1, 256, true, grantingMem, grantingMem⟩

def smallAttr : IbQpInitAttr := ⟨0, 1, 2, 0, ⟨4, 4, 1, 1, 0⟩, .allWr, 2⟩

/-- A PD all of whose numbers were given out. -/
def fullPd : DisPd := ⟨fun i => if disQpIni ≤ i ∧ i < disQpMax then some i else none, fun _ => none,
  disQpMax, disMrIni⟩

theorem createQp_unrecognised_full :
    ¬ CreateQpUndone fullPd (createQp plentyQpEnv smallAttr fullPd 200) ∧
      (createQp plentyQpEnv smallAttr fullPd 200).ret = .null ∧
      (createQp plentyQpEnv smallAttr fullPd 200).pd = fullPd ∧
      ReleasedOnce (createQp plentyQpEnv smallAttr fullPd 200).log :=
  createQp_unrecognised plentyQpEnv smallAttr fullPd 200 (.noQpLeft le_rfl)

/-- The kernel has no memory for the SQ: the structure is freed and the caller gets NULL. -/
theorem nullQp_unrecognised :
    let r := createQp { plentyQpEnv with sq := ⟨fun n => n == 0, rfl, 0⟩ } smallAttr
      (disAllocPd fullPd) 7
    r.log = [.acquire (.qp 7), .release (.qp 7)] ∧ r.ret = .null ∧ r.ret.isErr = false ∧
      ¬ CreateQpUndone (disAllocPd fullPd) r := by
  refine ⟨by decide, by decide, by decide, fun hu => ?_⟩
  have hrec := hu.recognised
  revert hrec
  decide

end DisKverbs
