import DisKverbs.Verbs
import Mathlib.Algebra.BigOperators.Group.List.Basic

namespace DisKverbs

def disMsgMax : UInt32 := 20
def disMsgSizeMax : Nat := disMaxIovlen * pageSize.toNat

/-- The module parameters of the SCI interface. -/
structure SciIf where
  localAdapterNo : UInt32
  remoteNodeId : UInt32
  isInitiator : Bool
  useLQpn : Bool

/-- The QP numbers of a `struct dis_wq`. -/
structure WqQpn where
  lQpn : UInt32
  rQpn : UInt32
  deriving DecidableEq

/-- What a message queue is created or connected with; the ids are of type `int`. -/
structure MsqArgs where
  localAdapterNo : UInt32
  remoteNodeId : UInt32
  lMsqId : Int32
  rMsqId : Int32
  maxMsgCount : UInt32
  maxMsgSize : Nat
  timeout : UInt32
  flags : UInt32

inductive SciError
  | ok
  | illegalParameter
  | noSpc
  | connectionRefused
  | noSuchSegment
  | other

def createMsqArgs (p : SciIf) (wq : WqQpn) : MsqArgs :=
  let lMsqId := wq.lQpn.toInt32
  let rMsqId := if p.useLQpn then wq.lQpn.toInt32 else wq.rQpn.toInt32
  { localAdapterNo := p.localAdapterNo
    remoteNodeId := p.remoteNodeId
    lMsqId := if p.isInitiator then lMsqId * 2 else lMsqId * 2 + 1
    rMsqId := if p.isInitiator then rMsqId * 2 else rMsqId * 2 + 1
    maxMsgCount := disMsgMax
    maxMsgSize := disMsgSizeMax
    timeout := 0
    flags := 0 }

def connectMsqArgs (p : SciIf) (wq : WqQpn) : MsqArgs :=
  let lMsqId := wq.lQpn.toInt32
  let rMsqId := if p.useLQpn then wq.lQpn.toInt32 else wq.rQpn.toInt32
  { localAdapterNo := p.localAdapterNo
    remoteNodeId := p.remoteNodeId
    lMsqId := if p.isInitiator then lMsqId * 2 + 1 else lMsqId * 2
    rMsqId := if p.isInitiator then rMsqId * 2 + 1 else rMsqId * 2
    maxMsgCount := disMsgMax
    maxMsgSize := disMsgSizeMax
    timeout := 0
    flags := 0 }

def disSciIfCreateMsq (scilCreateMsgQueue : MsqArgs → SciError) (p : SciIf) (wq : WqQpn) : Int :=
  match scilCreateMsgQueue (createMsqArgs p wq) with
  | .ok => 0
  | .illegalParameter => -42
  | .noSpc => -42
  | _ => -42

def disSciIfConnectMsq (scilConnectMsgQueue : MsqArgs → SciError) (p : SciIf) (wq : WqQpn) : Int :=
  match scilConnectMsgQueue (connectMsqArgs p wq) with
  | .ok => 0
  | .connectionRefused => -42
  | .noSuchSegment => -42
  | _ => -42

/-- What the worker of a queue creates or connects its message queue with. -/
def msqArgs (p : SciIf) : DisWqType → WqQpn → MsqArgs
  | .rq => createMsqArgs p
  | .sq => connectMsqArgs p

/-- The ids of the two ends are each other's. -/
def Mirrors (x y : MsqArgs) : Prop := x.lMsqId = y.rMsqId ∧ x.rMsqId = y.lMsqId

/-- The numbers two QPs know each other by. -/
def Peers (useLQpn : Bool) (p q : WqQpn) : Prop :=
  if useLQpn then p.lQpn = q.lQpn else q.rQpn = p.lQpn ∧ p.rQpn = q.lQpn

/-- Both parity conventions as one. -/
def msqId (odd : Bool) (n : Int32) : Int32 := if odd then n * 2 + 1 else n * 2

/-- The end of a message queue that takes the odd ids of its node. -/
def oddEnd (p : SciIf) : DisWqType → Bool
  | .rq => !p.isInitiator
  | .sq => p.isInitiator

def remoteQpn (p : SciIf) (wq : WqQpn) : UInt32 := if p.useLQpn then wq.lQpn else wq.rQpn

section

variable {p : SciIf} {type : DisWqType} {wq : WqQpn}

theorem msqArgs_local : (msqArgs p type wq).lMsqId = msqId (oddEnd p type) wq.lQpn.toInt32 := by
  cases type <;> cases h : p.isInitiator <;>
    simp [msqArgs, createMsqArgs, connectMsqArgs, msqId, oddEnd, h]

theorem msqArgs_remote :
    (msqArgs p type wq).rMsqId = msqId (oddEnd p type) (remoteQpn p wq).toInt32 := by
  cases type <;> cases h : p.isInitiator <;> cases h' : p.useLQpn <;>
    simp [msqArgs, createMsqArgs, connectMsqArgs, msqId, oddEnd, remoteQpn, h, h']

/-- Below `2^30` no id overflows. -/
theorem msqId_toInt {n : UInt32} (hn : n.toNat < 2 ^ 30) (odd : Bool) :
    (msqId odd n.toInt32).toInt = 2 * n.toNat + odd.toNat := by
  have hval : n.toInt32.toInt = n.toNat := by
    show n.toBitVec.toInt = n.toNat
    have hlt : 2 * n.toBitVec.toNat < 2 ^ 32 := by
      rw [UInt32.toNat_toBitVec]
      omega
    rw [BitVec.toInt_eq_toNat_of_lt hlt, UInt32.toNat_toBitVec]
  have hmul : (n.toInt32 * 2).toInt = 2 * n.toNat := by
    rw [Int32.toInt_mul, hval, show (2 : Int32).toInt = 2 from rfl, Int.bmod_eq_of_le]
    all_goals omega
  cases odd with
  | false => simpa [msqId] using hmul
  | true =>
    simp only [msqId, if_true, Bool.toNat_true]
    rw [Int32.toInt_add, hmul, show (1 : Int32).toInt = 1 from rfl, Int.bmod_eq_of_le]
    all_goals omega

theorem msqId_inj {n m : UInt32} (hn : n.toNat < 2 ^ 30) (hm : m.toNat < 2 ^ 30) {a b : Bool} :
    msqId a n.toInt32 = msqId b m.toInt32 ↔ a = b ∧ n = m := by
  rw [← Int32.toInt_inj, msqId_toInt hn a, msqId_toInt hm b, ← UInt32.toNat_inj]
  constructor
  · intro h
    have hpar : a.toNat = b.toNat := by
      have := Bool.toNat_lt a
      have := Bool.toNat_lt b
      omega
    exact ⟨by cases a <;> cases b <;> simp_all, by omega⟩
  · rintro ⟨rfl, h⟩
    rw [h]

/-- Two local ids of a node clash only for queues of one kind with one number. -/
theorem localMsqId_inj {p : SciIf} {type type' : DisWqType} {wq wq' : WqQpn}
    (hq : wq.lQpn.toNat < 2 ^ 30) (hq' : wq'.lQpn.toNat < 2 ^ 30) :
    (msqArgs p type wq).lMsqId = (msqArgs p type' wq').lMsqId ↔
      type = type' ∧ wq.lQpn = wq'.lQpn := by
  rw [msqArgs_local, msqArgs_local, msqId_inj hq hq']
  refine and_congr_left fun _ => ?_
  cases type <;> cases type' <;> cases h : p.isInitiator <;> simp [oddEnd, h]

end

/-- Numbers that fit an id. -/
def WqQpn.Small (wq : WqQpn) : Prop := wq.lQpn.toNat < 2 ^ 30 ∧ wq.rQpn.toNat < 2 ^ 30

theorem remoteQpn_small {p : SciIf} {wq : WqQpn} (h : wq.Small) :
    (remoteQpn p wq).toNat < 2 ^ 30 := by
  unfold remoteQpn
  split
  · exact h.1
  · exact h.2

/-- The SQ of one node and the RQ of the other choose the same parity. -/
theorem mirrors_iff {a b : SciIf} (hab : a.isInitiator = !b.isInitiator)
    (hu : a.useLQpn = b.useLQpn) {q p : WqQpn} (hq : q.Small) (hp : p.Small) :
    Mirrors (connectMsqArgs a q) (createMsqArgs b p) ↔ Peers a.useLQpn p q := by
  have hodd : oddEnd a .sq = oddEnd b .rq := hab
  show Mirrors (msqArgs a .sq q) (msqArgs b .rq p) ↔ _
  rw [Mirrors, msqArgs_local, msqArgs_local, msqArgs_remote, msqArgs_remote,
    msqId_inj hq.1 (remoteQpn_small hp), msqId_inj (remoteQpn_small hq) hp.1, hodd]
  simp only [remoteQpn, Peers, true_and, hu]
  split
  · exact ⟨fun h => h.1.symm, fun h => ⟨h.symm, h.symm⟩⟩
  · exact ⟨fun h => ⟨h.2, h.1.symm⟩, fun h => ⟨h.2.symm, h.1⟩⟩

/-- Between an initiator and its counterpart, exactly the queues of peers meet, and no two
queues of one node claim one local id. -/
theorem msqIds_pair {ι κ : Type*} (a b : SciIf) (ha : a.isInitiator = true)
    (hb : b.isInitiator = false) (hu : a.useLQpn = b.useLQpn) (qps : ι → WqQpn) (rqps : κ → WqQpn)
    (hq : ∀ i, (qps i).Small) (hr : ∀ j, (rqps j).Small)
    (hinj : Function.Injective fun i => (qps i).lQpn)
    (hinj' : Function.Injective fun j => (rqps j).lQpn) :
    (∀ i j, Mirrors (connectMsqArgs a (qps i)) (createMsqArgs b (rqps j)) ↔
      Peers a.useLQpn (rqps j) (qps i)) ∧
    (∀ i j, Mirrors (connectMsqArgs b (rqps j)) (createMsqArgs a (qps i)) ↔
      Peers a.useLQpn (qps i) (rqps j)) ∧
    (Function.Injective fun x : ι × DisWqType => (msqArgs a x.2 (qps x.1)).lMsqId) ∧
    Function.Injective fun x : κ × DisWqType => (msqArgs b x.2 (rqps x.1)).lMsqId := by
  refine ⟨?_, ?_, ?_, ?_⟩
  · exact fun i j => mirrors_iff (by simp [ha, hb]) hu (hq i) (hr j)
  · intro i j
    rw [hu]
    exact mirrors_iff (by simp [ha, hb]) hu.symm (hr j) (hq i)
  · rintro ⟨i, type⟩ ⟨i', type'⟩ h
    obtain ⟨ht, hl⟩ := (localMsqId_inj (hq i).1 (hq i').1).mp h
    exact Prod.ext (hinj hl) ht
  · rintro ⟨j, type⟩ ⟨j', type'⟩ h
    obtain ⟨ht, hl⟩ := (localMsqId_inj (hr j).1 (hr j').1).mp h
    exact Prod.ext (hinj' hl) ht

def initiatorIf : SciIf := ⟨0, 8, true, false⟩

def responderIf : SciIf := ⟨0, 4, false, false⟩

/-- Two QPs on a node, each the peer of the other one's counterpart. -/
def crossQps (i : Bool) : WqQpn := if i then ⟨101, 100⟩ else ⟨100, 101⟩

theorem crossQps_small (i : Bool) : (crossQps i).Small := by
  cases i
  · exact ⟨by decide, by decide⟩
  · exact ⟨by decide, by decide⟩

theorem crossQps_injective : Function.Injective fun i => (crossQps i).lQpn := by
  intro i j h
  cases i <;> cases j <;> simp [crossQps] at h ⊢

theorem msqIds_pair_cross :
    Mirrors (connectMsqArgs initiatorIf (crossQps false))
        (createMsqArgs responderIf (crossQps true)) ↔
      Peers false (crossQps true) (crossQps false) :=
  (msqIds_pair initiatorIf responderIf rfl rfl rfl crossQps crossQps crossQps_small
    crossQps_small crossQps_injective crossQps_injective).1 false true

end DisKverbs
