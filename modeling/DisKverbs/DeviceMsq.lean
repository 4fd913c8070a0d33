import DisKverbs.DeviceIds
import DisKverbs.QpMsq

namespace DisKverbs

open StepSystem

/-- A device, and what came of the numbers of its QPs. -/
abbrev MsqDevice := DeviceState × (Nat → QpMsq)

def noteDevice (p : SciIf) (s : DeviceState) (a : DeviceAct) (h : Nat → QpMsq) : Nat → QpMsq :=
  match a with
  | .qp i a => Function.update h i (noteMsq p (s.qps i) a (h i))
  | _ => h

def msqStep (p : SciIf) : MsqDevice → DeviceAct → Option MsqDevice :=
  recording (deviceStep p) (noteDevice p)

def freshMsq : MsqDevice := (freshDevice, fun _ => ⟨fun _ => [], fun _ _ => []⟩)

def MsqInit (x : MsqDevice) : Prop := x = freshMsq

theorem freshMsq_init : MsqInit freshMsq := rfl

/-- No local id that a running worker has called with is one that a running worker of another
queue has called with. -/
def DistinctIds (x : MsqDevice) : Prop :=
  ∀ i j type type' k l, (i, type) ≠ (j, type') → (((x.1.qps i).wq type).tasks k).pc.alive →
    (((x.1.qps j).wq type').tasks l).pc.alive →
    ∀ id ∈ (x.2 i).used type k, id ∉ (x.2 j).used type' l

/-- A QP is asked to go to RTR only if no other QP at work was moved there under a number that
it was moved there under, now or before. -/
def FreshNumbers (x : MsqDevice) : DeviceAct → Prop
  | .qp i (.modify attr attrMask) => attr.asks attrMask .rtr = true →
      ∀ j type, j ≠ i → (x.1.qps j).AtWork type →
        List.Disjoint (((x.2 i).move (x.1.qps i) attrMask).under type) ((x.2 j).under type)
  | _ => True

/-- There is one PD, and every move to RTR has `IB_QP_DEST_QPN`. -/
def OnePd (x : MsqDevice) : DeviceAct → Prop
  | .allocPd => x.1.pdC = 0
  | .qp _ (.modify attr attrMask) =>
    attr.asks attrMask .rtr = true → hasAttr attrMask ibQpDestQpn = true
  | _ => True

/-- The number a queue works under: its QP's if a move to RTR with `IB_QP_DEST_QPN` has stored
it, and 0 if none has. -/
def DeviceState.carried (s : DeviceState) (i : Nat) (type : DisWqType) : UInt32 :=
  if (s.qps i).named type then (s.qps i).lQpn else 0

/-- QPs that are at work on queues of one kind were moved to RTR under different numbers. -/
structure MsqDeviceInv (p : SciIf) (s : DeviceState) (h : Nat → QpMsq) : Prop where
  qp : ∀ i, MsqInv p (s.qps i) (h i)
  small : ∀ i type, ∀ n ∈ (h i).under type, n.toNat < 2 ^ 30
  apart : ∀ i j type, i ≠ j → (s.qps i).AtWork type → (s.qps j).AtWork type →
    List.Disjoint ((h i).under type) ((h j).under type)

section

variable {p : SciIf} {s t : DeviceState} {h : Nat → QpMsq}

theorem DeviceInv.small (hi : DeviceInv s) {i : Nat} (h : i < s.qpC) :
    (s.qps i).lQpn.toNat < disQpMax := by
  obtain ⟨hpd, k, _, hlt, hk⟩ := hi.number i h
  have := (hi.pds _ hpd).2
  omega

theorem newQp_rests (n : UInt32) (type : DisWqType) : ¬ (newQp n).AtWork type := by
  rintro (⟨k, hk⟩ | hr)
  · exact hk.1 rfl
  · exact hr

theorem DeviceInv.made (hi : DeviceInv s) {i : Nat} {type : DisWqType}
    (hw : (s.qps i).AtWork type) : i < s.qpC := by
  by_contra hlt
  rw [hi.unused i (by omega)] at hw
  exact newQp_rests 0 type hw

theorem DeviceInv.carries (hi : DeviceInv s) {i : Nat} (type : DisWqType) (h : i < s.qpC) :
    ((s.qps i).wq type).qpn.lQpn = s.carried i type ∧ (s.carried i type).toNat < 2 ^ 30 := by
  have hname : ((s.qps i).wq type).qpn.lQpn = s.carried i type := hi.named i type
  refine ⟨hname, ?_⟩
  have hs := hi.small h
  simp only [disQpMax] at hs
  unfold DeviceState.carried
  split
  · omega
  · decide

theorem DeviceInv.movesUnder_small (hi : DeviceInv s) {i : Nat} (h : i < s.qpC)
    (attrMask : UInt32) (type : DisWqType) :
    ((s.qps i).movesUnder attrMask type).toNat < 2 ^ 30 := by
  unfold QpLife.movesUnder
  split
  · have hs := hi.small h
    simp only [disQpMax] at hs
    omega
  · obtain ⟨hc, hs⟩ := hi.carries type h
    show ((s.qps i).wq type).qpn.lQpn.toNat < 2 ^ 30
    rw [hc]
    exact hs

theorem newQp_msqInv {qp : QpLife} {m : QpMsq} (hi : MsqInv p qp m) (n : UInt32) :
    MsqInv p (newQp n) m :=
  hi.keep (fun _ _ _ hc => by cases hc) fun _ _ hk => absurd rfl hk

/-- A step of a QP keeps its numbers apart from those of the others. -/
theorem MsqDeviceInv.stepApart (hi : MsqDeviceInv p s h) {i j : Nat} {type : DisWqType}
    {a : QpAct} {qp : QpLife} (hs : qpStep p (s.qps i) a = some qp)
    (hok : FreshNumbers (s, h) (.qp i a)) (hne : j ≠ i) (hw : qp.AtWork type)
    (hw' : (s.qps j).AtWork type) :
    List.Disjoint ((noteMsq p (s.qps i) a (h i)).under type) ((h j).under type) := by
  cases hask : asksRtr a with
  | true =>
    obtain ⟨attr, attrMask, rfl, hr, hm⟩ := noteMsq_move (p := p) (s := s.qps i) (m := h i) hask
    rw [hm]
    exact hok hr j type hne hw'
  | false =>
    rw [noteMsq_asked hask]
    rcases qpStep_atWork hs hw with hw | hr
    · exact hi.apart i j type hne.symm hw hw'
    · rw [hr] at hask
      cases hask

theorem MsqDeviceInv.qpStep (hi : MsqDeviceInv p s h) (hd : DeviceInv s) {i : Nat} {a : QpAct}
    {qp : QpLife} (hlt : i < s.qpC) (hs : DisKverbs.qpStep p (s.qps i) a = some qp)
    (hok : FreshNumbers (s, h) (.qp i a)) :
    MsqDeviceInv p { s with qps := Function.update s.qps i qp }
      (Function.update h i (noteMsq p (s.qps i) a (h i))) := by
  refine ⟨fun j => ?_, fun j type n hn => ?_, fun j k type hne hw hw' => ?_⟩
  · by_cases he : j = i
    · subst he
      simpa using (hi.qp j).step hs
    · simpa [he] using hi.qp j
  · by_cases he : j = i
    · subst he
      rw [Function.update_self] at hn
      rcases noteMsq_mem hn with hn | ⟨attr, attrMask, _, _, rfl⟩
      · exact hi.small j type n hn
      · exact hd.movesUnder_small hlt attrMask type
    · exact hi.small j type n (by simpa [he] using hn)
  · by_cases hj : j = i
    · subst hj
      have hk : k ≠ j := hne.symm
      simp only [Function.update_self, Function.update_of_ne hk] at hw hw' ⊢
      exact hi.stepApart hs hok hk hw hw'
    · by_cases hk : k = i
      · subst hk
        simp only [Function.update_self, Function.update_of_ne hj] at hw hw' ⊢
        exact List.disjoint_comm.mp (hi.stepApart hs hok hj hw' hw)
      · simp only [Function.update_of_ne hj, Function.update_of_ne hk] at hw hw' ⊢
        exact hi.apart j k type hne hw hw'

theorem MsqDeviceInv.created (hi : MsqDeviceInv p s h) (pd : Nat) (pd' : DisPd) :
    MsqDeviceInv p (s.addQp pd pd') h := by
  have old {j : Nat} {type : DisWqType} (hw : ((s.addQp pd pd').qps j).AtWork type) :
      (s.qps j).AtWork type := by
    by_cases he : j = s.qpC
    · subst he
      simp only [DeviceState.addQp, Function.update_self] at hw
      exact absurd hw (newQp_rests _ type)
    · simpa [DeviceState.addQp, he] using hw
  refine ⟨fun j => ?_, hi.small, fun j k type hne hw hw' =>
    hi.apart j k type hne (old hw) (old hw')⟩
  by_cases he : j = s.qpC
  · subst he
    simp only [DeviceState.addQp, Function.update_self]
    exact newQp_msqInv (hi.qp _) _
  · simpa [DeviceState.addQp, he] using hi.qp j

theorem MsqDeviceInv.step (hi : MsqDeviceInv p s h) (hd : DeviceInv s) {a : DeviceAct}
    (hok : FreshNumbers (s, h) a) (hs : deviceStep p s a = some t) :
    MsqDeviceInv p t (noteDevice p s a h) := by
  cases deviceStep_move hs with
  | allocPd => exact ⟨hi.qp, hi.small, hi.apart⟩
  | refused => exact hi
  | created => exact hi.created _ _
  | qp hlt hq => exact hi.qpStep hd hlt hq hok

theorem MsqDeviceInv.distinct {x : MsqDevice} (hi : MsqDeviceInv p x.1 x.2) : DistinctIds x := by
  intro i j type type' k l hne hk hl id hid hid'
  obtain ⟨n, hn, rfl⟩ := (hi.qp i).used type k id hid
  obtain ⟨m, hm, he⟩ := (hi.qp j).used type' l _ hid'
  have hclash : (msqArgs p type ⟨n, n⟩).lMsqId = (msqArgs p type' ⟨m, m⟩).lMsqId := by
    rw [msqArgs_local, msqArgs_local]
    exact he
  obtain ⟨rfl, rfl⟩ := (localMsqId_inj (hi.small i type n hn) (hi.small j type' m hm)).mp hclash
  have hij : i ≠ j := by simpa using hne
  exact hi.apart i j type hij (.inl ⟨k, hk⟩) (.inl ⟨l, hl⟩) hn hm

theorem reach_device {x : MsqDevice} {ok : MsqDevice → DeviceAct → Prop}
    (hx : Reach MsqInit (Acts (msqStep p) ok) x) : DeviceInv x.1 := by
  have hdev : Reach DeviceInit (Acts (deviceStep p) anyAct) x.1 := by
    refine reach_recorded hx ?_ fun _ _ _ => trivial
    rintro x rfl
    rfl
  exact reach_deviceInv hdev

theorem reach_msqDevice {x : MsqDevice}
    (hx : Reach MsqInit (Acts (msqStep p) FreshNumbers) x) : MsqDeviceInv p x.1 x.2 := by
  apply hx.invariant
  · rintro x rfl
    refine ⟨fun i => ⟨?_, ?_, ?_⟩, ?_, fun i j type _ hw => absurd hw (newQp_rests 0 type)⟩
    · intro _ _ _ hc
      cases hc
    · exact fun _ _ hk => absurd rfl hk
    · simp [freshMsq]
    · simp [freshMsq]
  · rintro x y hr hi ⟨a, hok, hs⟩
    obtain ⟨hd, hn⟩ := recording_some.mp hs
    have ht := hi.step (reach_device hr) hok hd
    rwa [hn] at ht

/-- With one PD, the QPs that were moved to RTR were moved there under their own numbers. -/
structure OnePdInv (x : MsqDevice) : Prop where
  one : x.1.pdC ≤ 1
  own : ∀ i type, ∀ n ∈ (x.2 i).under type, i < x.1.qpC ∧ n = (x.1.qps i).lQpn

theorem OnePdInv.fresh {x : MsqDevice} (hi : OnePdInv x) (hd : DeviceInv x.1) {i : Nat}
    {a : QpAct} (hlt : i < x.1.qpC) (hok : OnePd x (.qp i a)) : FreshNumbers x (.qp i a) := by
  cases a with
  | modify attr attrMask =>
    intro hask j type hne hw n hn hn'
    obtain ⟨hj, hnj⟩ := hi.own j type n hn'
    have hni : n = (x.1.qps i).lQpn := by
      rcases List.mem_cons.mp hn with hn | hn
      · rw [hn, QpLife.movesUnder, if_pos (hok hask)]
      · exact (hi.own i type n hn).2
    have hpd : x.1.pdOf i = x.1.pdOf j := by
      have hone := hi.one
      have hpi := (hd.number i hlt).1
      have hpj := (hd.number j hj).1
      omega
    exact hd.apart i hlt j hj hne.symm hpd (hni.symm.trans hnj)
  | _ => trivial

theorem OnePdInv.step {x y : MsqDevice} (hi : OnePdInv x) {a : DeviceAct} (hok : OnePd x a)
    (hs : msqStep p x a = some y) : OnePdInv y := by
  obtain ⟨hd, hn⟩ := recording_some.mp hs
  obtain ⟨t, g⟩ := y
  subst hn
  cases deviceStep_move hd with
  | allocPd =>
    refine ⟨?_, hi.own⟩
    have hz : x.1.pdC = 0 := hok
    simp only [hz]
    omega
  | refused => exact hi
  | created =>
    refine ⟨hi.one, fun i type n hn => ?_⟩
    obtain ⟨hlt, hnum⟩ := hi.own i type n hn
    have hne : i ≠ x.1.qpC := by omega
    refine ⟨Nat.lt_succ_of_lt hlt, ?_⟩
    simp only [Function.update_of_ne hne]
    exact hnum
  | @qp i a qp hlt hq =>
    refine ⟨hi.one, fun j type n hn => ?_⟩
    simp only [noteDevice] at hn ⊢
    by_cases he : j = i
    · subst he
      rw [Function.update_self] at hn ⊢
      rw [(qpStep_name hq).lQpn]
      refine ⟨hlt, ?_⟩
      rcases noteMsq_mem hn with hn | ⟨attr, attrMask, rfl, hask, rfl⟩
      · exact (hi.own j type n hn).2
      · rw [QpLife.movesUnder, if_pos (hok hask)]
    · rw [Function.update_of_ne he] at hn ⊢
      exact hi.own j type n hn

/-- With one PD and `IB_QP_DEST_QPN` in every move to RTR, no two QPs share a number. -/
theorem onePd_fresh {x : MsqDevice} (hx : Reach MsqInit (Acts (msqStep p) OnePd) x) :
    Reach MsqInit (Acts (msqStep p) FreshNumbers) x ∧ OnePdInv x := by
  apply hx.invariant
  · rintro x rfl
    exact ⟨reach_start freshMsq_init, Nat.zero_le 1, by simp [freshMsq]⟩
  · rintro x y hr ⟨hf, hi⟩ ⟨a, hok, hs⟩
    refine ⟨hf.next ⟨a, ?_, hs⟩, hi.step hok hs⟩
    have hd := deviceStep_move (recording_some.mp hs).1
    generalize y.1 = t at hd
    cases hd with
    | qp hlt => exact hi.fresh (reach_device hr) hlt hok
    | _ => trivial

/-- As long as no QP is moved to RTR under a number that another QP at work was moved there
under, the running workers of a device use different local ids; so it is with one PD and
`IB_QP_DEST_QPN` in every move. -/
theorem reach_distinctIds (p : SciIf) (x : MsqDevice) :
    (Reach MsqInit (Acts (msqStep p) FreshNumbers) x → DistinctIds x) ∧
    (Reach MsqInit (Acts (msqStep p) OnePd) x →
      Reach MsqInit (Acts (msqStep p) FreshNumbers) x) :=
  ⟨fun hx => (reach_msqDevice hx).distinct, fun hx => (onePd_fresh hx).1⟩

end

def plentyAllocs : QpAllocs := ⟨true, true, true⟩

def rtrDeviceActs (i : Nat) (attrMask : UInt32) (n : Nat) : List DeviceAct :=
  .qp i (.modify (rtrAttr 100) attrMask) :: List.replicate n (.qp i (.call .thread)) ++
    List.replicate 3 (.qp i (.task .rq 0 fineEnv))

/-- Two QPs of one PD, moved to RTR with their numbers; the RQs create their message queues. -/
def onePdActs : List DeviceAct :=
  [.allocPd, .createQp 0 plentyAllocs 4 4, .createQp 0 plentyAllocs 4 4] ++
    rtrDeviceActs 0 (ibQpState ||| ibQpDestQpn) 17 ++
    rtrDeviceActs 1 (ibQpState ||| ibQpDestQpn) 17

/-- `OnePd`, as a test of the state before the step. -/
def onePd (x : MsqDevice) : DeviceAct → Bool
  | .allocPd => decide (x.1.pdC = 0)
  | .qp _ (.modify attr attrMask) => !attr.asks attrMask .rtr || hasAttr attrMask ibQpDestQpn
  | _ => true

theorem onePd_sound (x : MsqDevice) (a : DeviceAct) (h : onePd x a = true) : OnePd x a := by
  cases a with
  | allocPd =>
    have hz : x.1.pdC = 0 := of_decide_eq_true h
    exact hz
  | createQp => trivial
  | qp i a =>
    cases a with
    | modify attr attrMask =>
      intro hask
      simpa [onePd, hask] using h
    | _ => trivial

def onePdDevice : MsqDevice := afterChecked (msqStep initiatorIf) onePd freshMsq onePdActs

/-- The local ids that a receive worker has called with, and where it is. -/
def MsqDevice.rqUsed (x : MsqDevice) (i k : Nat) : List Int32 × TaskPc :=
  ((x.2 i).used .rq k, (((x.1.qps i).wq .rq).tasks k).pc)

theorem reach_distinctIds_onePd :
    onePdDevice.rqUsed 0 0 = ([200], .top) ∧ onePdDevice.rqUsed 1 0 = ([202], .top) ∧
      Reach MsqInit (Acts (msqStep initiatorIf) FreshNumbers) onePdDevice ∧
      DistinctIds onePdDevice := by
  have hx : Reach MsqInit (Acts (msqStep initiatorIf) OnePd) onePdDevice :=
    reach_afterChecked onePd_sound (reach_start freshMsq_init) onePdActs
  have hf := (reach_distinctIds initiatorIf onePdDevice).2 hx
  exact ⟨by decide, by decide, hf, (reach_distinctIds initiatorIf onePdDevice).1 hf⟩

/-- One QP in each of two PDs: both have number 100. -/
def twoPdDevice : MsqDevice :=
  afterActs (msqStep initiatorIf) freshMsq
    ([.allocPd, .allocPd, .createQp 0 plentyAllocs 4 4, .createQp 1 plentyAllocs 4 4] ++
      rtrDeviceActs 0 (ibQpState ||| ibQpDestQpn) 17 ++
      rtrDeviceActs 1 (ibQpState ||| ibQpDestQpn) 17)

/-- Two QPs of one PD, moved to RTR without `IB_QP_DEST_QPN`: both work under number 0. -/
def unnamedDevice : MsqDevice :=
  afterActs (msqStep initiatorIf) freshMsq
    ([.allocPd, .createQp 0 plentyAllocs 4 4, .createQp 0 plentyAllocs 4 4] ++
      rtrDeviceActs 0 ibQpState 12 ++ rtrDeviceActs 1 ibQpState 12)

/-- The first QP is told its number under its worker, and the second one works under 0 as that
worker still does. -/
def renamedDevice : MsqDevice :=
  afterActs (msqStep initiatorIf) freshMsq
    ([.allocPd, .createQp 0 plentyAllocs 4 4, .createQp 0 plentyAllocs 4 4] ++
      rtrDeviceActs 0 ibQpState 12 ++ rtrDeviceActs 0 (ibQpState ||| ibQpDestQpn) 17 ++
      rtrDeviceActs 1 ibQpState 12)

/-- Receive queues that work at the same time under one id. -/
theorem msqIds_clash :
    (Reach MsqInit (Acts (msqStep initiatorIf) anyAct) twoPdDevice ∧
      twoPdDevice.rqUsed 0 0 = ([200], .top) ∧ twoPdDevice.rqUsed 1 0 = ([200], .top) ∧
      ¬ DistinctIds twoPdDevice) ∧
    (Reach MsqInit (Acts (msqStep initiatorIf) anyAct) unnamedDevice ∧
      unnamedDevice.rqUsed 0 0 = ([0], .top) ∧ unnamedDevice.rqUsed 1 0 = ([0], .top) ∧
      ¬ DistinctIds unnamedDevice) ∧
    (Reach MsqInit (Acts (msqStep initiatorIf) anyAct) renamedDevice ∧
      (renamedDevice.1.qps 0).qpns .rq = ⟨100, 100⟩ ∧ (renamedDevice.1.qps 1).qpns .rq = ⟨0, 0⟩ ∧
      ¬ DistinctIds renamedDevice) := by
  have clash {x : MsqDevice} {id : Int32} (h : x.rqUsed 0 0 = ([id], .top))
      (h' : x.rqUsed 1 0 = ([id], .top)) : ¬ DistinctIds x := by
    intro hd
    obtain ⟨hid, hpc⟩ := Prod.mk.inj h
    obtain ⟨hid', hpc'⟩ := Prod.mk.inj h'
    refine hd 0 1 .rq .rq 0 0 (by simp) ?_ ?_ id (by simp [hid]) (by simp [hid'])
    · rw [hpc]
      decide
    · rw [hpc']
      decide
  have htwo : twoPdDevice.rqUsed 0 0 = ([200], .top) ∧ twoPdDevice.rqUsed 1 0 = ([200], .top) :=
    ⟨by decide, by decide⟩
  have hun : unnamedDevice.rqUsed 0 0 = ([0], .top) ∧ unnamedDevice.rqUsed 1 0 = ([0], .top) :=
    ⟨by decide, by decide⟩
  have hre : renamedDevice.rqUsed 0 0 = ([0], .top) ∧ renamedDevice.rqUsed 1 0 = ([0], .top) :=
    ⟨by decide, by decide⟩
  exact ⟨⟨reach_afterActs freshMsq_init _, htwo.1, htwo.2, clash htwo.1 htwo.2⟩,
    ⟨reach_afterActs freshMsq_init _, hun.1, hun.2, clash hun.1 hun.2⟩,
    ⟨reach_afterActs freshMsq_init _, by decide, by decide, clash hre.1 hre.2⟩⟩

end DisKverbs
