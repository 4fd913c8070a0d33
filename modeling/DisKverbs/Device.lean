import DisKverbs.AskedPeer
import DisKverbs.Creation
import DisKverbs.MemoryRegion

namespace DisKverbs

open StepSystem

/-- The PDs and QPs of a device, by the order of their making. -/
structure DeviceState where
  pds : Nat → DisPd
  pdC : Nat
  qps : Nat → QpLife
  pdOf : Nat → Nat
  qpC : Nat

inductive DeviceAct
  | allocPd
  | createQp (pd : Nat) (allocs : QpAllocs) (maxSendWr maxRecvWr : UInt32)
  | qp (i : Nat) (a : QpAct)

def zeroPd : DisPd := ⟨fun _ => none, fun _ => none, 0, 0⟩

/-- A created QP takes the next number of its PD. -/
def DeviceState.addQp (s : DeviceState) (pd : Nat) (pd' : DisPd) : DeviceState :=
  { s with
    pds := Function.update s.pds pd pd'
    qps := Function.update s.qps s.qpC (newQp (UInt32.ofNat (s.pds pd).qpC))
    pdOf := Function.update s.pdOf s.qpC pd
    qpC := s.qpC + 1 }

def deviceStep (p : SciIf) (s : DeviceState) : DeviceAct → Option DeviceState
  | .allocPd =>
    some { s with pds := Function.update s.pds s.pdC (disAllocPd zeroPd), pdC := s.pdC + 1 }
  | .createQp pd allocs maxSendWr maxRecvWr =>
    if pd < s.pdC then
      match disCreateQp allocs s.qpC maxSendWr maxRecvWr (s.pds pd) with
      | (some _, pd') => some (s.addQp pd pd')
      | (none, pd') => some { s with pds := Function.update s.pds pd pd' }
    else none
  | .qp i a =>
    if i < s.qpC then
      (qpStep p (s.qps i) a).map fun qp => { s with qps := Function.update s.qps i qp }
    else none

def freshDevice : DeviceState := ⟨fun _ => zeroPd, 0, fun _ => newQp 0, fun _ => 0, 0⟩

def DeviceInit (s : DeviceState) : Prop := s = freshDevice

theorem freshDevice_init : DeviceInit freshDevice := rfl

section

variable {p : SciIf} {s t : QpLife}

/-- The local number of each queue is the QP's, once it was stored, or 0. -/
def QpLife.NamedRight (s : QpLife) : Prop :=
  ∀ type, (s.qpns type).lQpn = if s.named type then s.lQpn else 0

inductive NameMove (s t : QpLife) : Prop
  | keep : t.lQpn = s.lQpn → t.named = s.named →
      (∀ type, (t.qpns type).lQpn = (s.qpns type).lQpn) → NameMove s t
  | name (type : DisWqType) : t.lQpn = s.lQpn → t.named = Function.update s.named type true →
      (∀ type', (t.qpns type').lQpn =
        if type' = type then s.lQpn else (s.qpns type').lQpn) → NameMove s t

theorem setLQpn_lQpn (s : QpLife) (type type' : DisWqType) :
    ((s.setLQpn type).qpns type').lQpn =
      if type' = type then s.lQpn else (s.qpns type').lQpn := by
  by_cases he : type' = type
  · subst he
    simp [QpLife.qpns, QpLife.setLQpn, QpLife.setWq]
  · simp [QpLife.qpns, QpLife.setLQpn, QpLife.setWq, he]

theorem setRQpn_lQpn (s : QpLife) (type type' : DisWqType) :
    ((s.setRQpn type).qpns type').lQpn = (s.qpns type').lQpn := by
  by_cases he : type' = type
  · subst he
    simp [QpLife.qpns, QpLife.setRQpn, QpLife.setWq]
  · simp [QpLife.qpns, QpLife.setRQpn, QpLife.setWq, he]

theorem setLQpn_name (s : QpLife) (type : DisWqType) (call : QpCall) :
    NameMove s { s.setLQpn type with call := call } :=
  .name type rfl rfl (setLQpn_lQpn s type)

theorem setRQpn_name (s : QpLife) (type : DisWqType) (call : QpCall) :
    NameMove s { s.setRQpn type with call := call } :=
  .keep rfl rfl (setRQpn_lQpn s type)

theorem modifyStep_name {out : KthreadCreate} {attr : IbQpAttr} {attrMask : UInt32}
    {pc : ModifyPc} (h : modifyStep out attr attrMask s pc = some t) : NameMove s t := by
  cases modifyStep_access h with
  | rqLQpn => exact setLQpn_name s .rq _
  | rqRQpn => exact setRQpn_name s .rq _
  | sqLQpn => exact setLQpn_name s .sq _
  | sqRQpn => exact setRQpn_name s .sq _
  | rqMtu | sqMtu =>
    exact .keep rfl rfl fun type => congrArg WqQpn.lQpn (congrFun (setMtu_qpns s _) type)
  | init hq =>
    have hqpns := setWq_qpns (qpInitStep_qpn hq)
    exact .keep rfl rfl fun type' => congrArg WqQpn.lQpn (congrFun hqpns type')
  | _ => exact .keep rfl rfl fun _ => rfl

theorem qpStep_name {a : QpAct} (h : qpStep p s a = some t) : NameMove s t := by
  cases qpStep_access h with
  | modify | destroy => exact .keep rfl rfl fun _ => rfl
  | inModify _ hm => exact modifyStep_name hm
  | inDestroy _ hd =>
    obtain ⟨_, hl, _, hn, hq, _⟩ := destroyStep_call hd
    exact .keep hl hn fun type => congrArg WqQpn.lQpn (congrFun hq type)
  | task hq =>
    have hqpns := setWq_qpns (s := s) (taskStep_move hq).frame.2.2.1
    exact .keep rfl rfl fun type' => congrArg WqQpn.lQpn (congrFun hqpns type')

theorem NameMove.lQpn (h : NameMove s t) : t.lQpn = s.lQpn := by
  cases h with
  | keep hl => exact hl
  | name _ hl => exact hl

theorem QpLife.NamedRight.move (hi : s.NamedRight) (h : NameMove s t) : t.NamedRight := by
  intro type
  cases h with
  | keep hl hn hq => rw [hl, hn, hq type, hi type]
  | name type' hl hn hq =>
    rw [hl, hn, hq type]
    by_cases he : type = type'
    · simp [he]
    · simp [he, hi type]

end

end DisKverbs
