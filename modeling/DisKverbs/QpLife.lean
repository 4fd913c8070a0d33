import DisKverbs.LifePhases
import DisKverbs.StepSystem

namespace DisKverbs

inductive IbQpState
  | reset
  | init
  | rtr
  | rts
  | sqd
  | sqe
  | err
  deriving DecidableEq

inductive IbMtu
  | mtu256
  | mtu512
  | mtu1024
  | mtu2048
  | mtu4096
  deriving DecidableEq

def ibMtuEnumToInt : IbMtu → UInt32
  | .mtu256 => 256
  | .mtu512 => 512
  | .mtu1024 => 1024
  | .mtu2048 => 2048
  | .mtu4096 => 4096

/-- The bits of an attribute mask that `dis_modify_qp` tests. -/
def ibQpState : UInt32 := 1
def ibQpPathMtu : UInt32 := 0x100
def ibQpDestQpn : UInt32 := 0x100000

def hasAttr (attrMask flag : UInt32) : Bool := attrMask &&& flag ≠ 0

structure IbQpAttr where
  qpState : IbQpState
  destQpNum : UInt32
  pathMtu : IbMtu

/-- Where `dis_modify_qp` is; it initialises the RQ first. -/
inductive ModifyPc
  | entry
  | rQpn
  | rqLQpn
  | rqRQpn
  | sqLQpn
  | sqRQpn
  | mtu
  | rqMtu
  | sqMtu
  | init (type : DisWqType) (pc : QpInitPc)
  | setState

/-- The verb under way on a QP; `dis_destroy_qp` stops the RQ first. -/
inductive QpCall
  | idle
  | modify (attr : IbQpAttr) (attrMask : UInt32) (pc : ModifyPc)
  | destroy (type : DisWqType) (pc : QpExitPc)
  | destroyed

/-- `struct dis_qp` with its queues' lives. `named` tells the queues that the number of the
QP has been stored in, `rets` what the calls of `dis_modify_qp` returned. -/
structure QpLife where
  lQpn : UInt32
  rQpn : UInt32
  mtu : UInt32
  state : IbQpState
  wq : DisWqType → LifeQueue
  named : DisWqType → Bool
  call : QpCall
  rets : List Int

def QpLife.setWq (s : QpLife) (type : DisWqType) (q : LifeQueue) : QpLife :=
  { s with wq := Function.update s.wq type q }

def QpLife.ret (s : QpLife) (ret : Int) : QpLife :=
  { s with call := .idle, rets := s.rets ++ [ret] }

def QpLife.setLQpn (s : QpLife) (type : DisWqType) : QpLife :=
  { s.setWq type { s.wq type with qpn := { (s.wq type).qpn with lQpn := s.lQpn } } with
    named := Function.update s.named type true }

def QpLife.setRQpn (s : QpLife) (type : DisWqType) : QpLife :=
  s.setWq type { s.wq type with qpn := { (s.wq type).qpn with rQpn := s.rQpn } }

def QpLife.setMtu (s : QpLife) (type : DisWqType) : QpLife :=
  s.setWq type { s.wq type with mtu := s.mtu }

/-- After the numbers: the path MTU if the mask has it, then the queues. -/
def ModifyPc.afterQpns (attrMask : UInt32) : ModifyPc :=
  if hasAttr attrMask ibQpPathMtu then .mtu else .init .rq .testState

/-- The next access of `dis_modify_qp`. The number of the peer is not read. -/
def modifyStep (out : KthreadCreate) (attr : IbQpAttr) (attrMask : UInt32) (s : QpLife) :
    ModifyPc → Option QpLife
  | .entry =>
    if hasAttr attrMask ibQpState then
      match attr.qpState with
      | .reset => some { s with call := .modify attr attrMask .setState }
      | .init => some { s with call := .modify attr attrMask .setState }
      | .rtr =>
        if hasAttr attrMask ibQpDestQpn then some { s with call := .modify attr attrMask .rQpn }
        else some { s with call := .modify attr attrMask (.afterQpns attrMask) }
      | .rts => some { s with call := .modify attr attrMask .setState }
      | _ => some (s.ret (-42))
    else some (s.ret 0)
  | .rQpn => some { s with rQpn := s.lQpn, call := .modify attr attrMask .rqLQpn }
  | .rqLQpn => some { s.setLQpn .rq with call := .modify attr attrMask .rqRQpn }
  | .rqRQpn => some { s.setRQpn .rq with call := .modify attr attrMask .sqLQpn }
  | .sqLQpn => some { s.setLQpn .sq with call := .modify attr attrMask .sqRQpn }
  | .sqRQpn => some { s.setRQpn .sq with call := .modify attr attrMask (.afterQpns attrMask) }
  | .mtu => some { s with mtu := ibMtuEnumToInt attr.pathMtu, call := .modify attr attrMask .rqMtu }
  | .rqMtu => some { s.setMtu .rq with call := .modify attr attrMask .sqMtu }
  | .sqMtu => some { s.setMtu .sq with call := .modify attr attrMask (.init .rq .testState) }
  | .init type (.ret ret) =>
    if ret ≠ 0 then some (s.ret (-42))
    else
      match type with
      | .rq => some { s with call := .modify attr attrMask (.init .sq .testState) }
      | .sq => some { s with call := .modify attr attrMask .setState }
  | .init type pc =>
    (qpInitStep out (s.wq type) pc).map fun r =>
      { s.setWq type r.1 with call := .modify attr attrMask (.init type r.2) }
  | .setState => some { s.ret 0 with state := attr.qpState }

/-- The next access of `dis_destroy_qp`; its last is the release of the QP. -/
def destroyStep (s : QpLife) : DisWqType → QpExitPc → Option QpLife
  | .rq, .done => some { s with call := .destroy .sq .testState }
  | .sq, .done => some { s with call := .destroyed }
  | type, pc =>
    (qpExitStep (s.wq type) pc).map fun r =>
      { s.setWq type r.1 with call := .destroy type r.2 }

inductive QpAct
  | modify (attr : IbQpAttr) (attrMask : UInt32)
  | destroy
  | call (out : KthreadCreate)
  | task (type : DisWqType) (i : Nat) (env : TaskEnv)

/-- The verbs of a QP come one after the other, and none after `dis_destroy_qp`; the threads
run at any time. -/
def qpStep (p : SciIf) (s : QpLife) : QpAct → Option QpLife
  | .modify attr attrMask =>
    match s.call with
    | .idle => some { s with call := .modify attr attrMask .entry }
    | _ => none
  | .destroy =>
    match s.call with
    | .idle => some { s with call := .destroy .rq .testState }
    | _ => none
  | .call out =>
    match s.call with
    | .modify attr attrMask pc => modifyStep out attr attrMask s pc
    | .destroy type pc => destroyStep s type pc
    | _ => none
  | .task type i env => (taskStep p type env (s.wq type) i).map (s.setWq type)

/-- What `dis_create_qp` makes, with the number it took from the PD. -/
def newQp (lQpn : UInt32) : QpLife :=
  ⟨lQpn, 0, ibMtuEnumToInt .mtu4096, .reset, fun _ => zeroLife, fun _ => false, .idle, []⟩

def QpInit (lQpn : UInt32) (s : QpLife) : Prop := s = newQp lQpn

theorem newQp_init (lQpn : UInt32) : QpInit lQpn (newQp lQpn) := rfl

end DisKverbs
