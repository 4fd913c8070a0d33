import DisKverbs.DeviceMsq

namespace DisKverbs

open StepSystem

/-- The own number of the QP is stored as that of its peer. -/
def ModifyPc.numbered : ModifyPc → Prop
  | .rqLQpn | .rqRQpn | .sqLQpn | .sqRQpn => True
  | _ => False

/-- One number of a queue is stored and the other one is not yet. -/
def ModifyPc.storing : ModifyPc → DisWqType → Prop
  | .rqRQpn, .rq => True
  | .sqRQpn, .sq => True
  | _, _ => False

/-- Each queue has one number twice, but while `dis_modify_qp` is between the two stores. -/
structure SameNumbers (s : QpLife) : Prop where
  qp : ∀ attr attrMask pc, s.call = .modify attr attrMask pc → pc.numbered → s.rQpn = s.lQpn
  half : ∀ attr attrMask pc, s.call = .modify attr attrMask pc → ∀ type, pc.storing type →
    (s.qpns type).lQpn = s.lQpn
  wq : ∀ type, (∀ attr attrMask pc, s.call = .modify attr attrMask pc → ¬ pc.storing type) →
    (s.qpns type).rQpn = (s.qpns type).lQpn

section

variable {p : SciIf} {s t : QpLife} {attr : IbQpAttr} {attrMask : UInt32} {pc pc' : ModifyPc}
  {type : DisWqType}

theorem ModifyPc.storing_numbered (h : pc.storing type) : pc.numbered := by
  cases pc <;> cases type <;> simp_all [ModifyPc.storing, ModifyPc.numbered]

theorem afterQpns_quiet (attrMask : UInt32) : ¬ (ModifyPc.afterQpns attrMask).numbered := by
  unfold ModifyPc.afterQpns
  split <;> simp [ModifyPc.numbered]

/-- A step that leaves the numbers alone, with nothing half stored before it or after it. -/
theorem SameNumbers.quiet (hi : SameNumbers s) (hq : t.qpns = s.qpns)
    (hs : ∀ attr attrMask pc, s.call = .modify attr attrMask pc → ∀ type, ¬ pc.storing type)
    (ht : ∀ attr attrMask pc, t.call = .modify attr attrMask pc → ¬ pc.numbered) :
    SameNumbers t := by
  refine ⟨fun attr attrMask pc hc hn => absurd hn (ht _ _ _ hc), fun attr attrMask pc hc type hst =>
    absurd (ModifyPc.storing_numbered hst) (ht _ _ _ hc), fun type _ => ?_⟩
  rw [hq]
  exact hi.wq type fun attr attrMask pc hc => hs attr attrMask pc hc type

theorem SameNumbers.same (hi : SameNumbers s) (hl : t.lQpn = s.lQpn) (hr : t.rQpn = s.rQpn)
    (hq : t.qpns = s.qpns) (hc : t.call = s.call) : SameNumbers t := by
  refine ⟨?_, ?_, ?_⟩
  · rw [hl, hr, hc]
    exact hi.qp
  · rw [hl, hq, hc]
    exact hi.half
  · rw [hq, hc]
    exact hi.wq

theorem SameNumbers.setLQpn (hi : SameNumbers s) (hc : s.call = .modify attr attrMask pc)
    (hn : pc.numbered) (hs : ∀ type', ¬ pc.storing type')
    (hs' : ∀ type', pc'.storing type' ↔ type' = type) :
    SameNumbers { s.setLQpn type with call := .modify attr attrMask pc' } := by
  have hother {type' : DisWqType} (hne : type' ≠ type) :
      ({ s.setLQpn type with call := .modify attr attrMask pc' } : QpLife).qpns type' =
        s.qpns type' := by
    simp [QpLife.qpns, QpLife.setLQpn, QpLife.setWq, hne]
  refine ⟨fun _ _ _ _ _ => hi.qp _ _ _ hc hn, fun _ _ _ hc' type' hst => ?_, fun type' hst => ?_⟩
  · cases hc'
    cases (hs' type').mp hst
    simp [QpLife.qpns, QpLife.setLQpn, QpLife.setWq]
  · have hne : type' ≠ type := fun he => hst attr attrMask pc' rfl ((hs' type').mpr he)
    rw [hother hne]
    refine hi.wq type' fun _ _ _ hc' => ?_
    rw [hc] at hc'
    cases hc'
    exact hs type'

theorem SameNumbers.setRQpn (hi : SameNumbers s) (hc : s.call = .modify attr attrMask pc)
    (hs : ∀ type', pc.storing type' ↔ type' = type) (hs' : ∀ type', ¬ pc'.storing type') :
    SameNumbers { s.setRQpn type with call := .modify attr attrMask pc' } := by
  have hst := (hs type).mpr rfl
  have hqp := hi.qp _ _ _ hc (ModifyPc.storing_numbered hst)
  refine ⟨fun _ _ _ _ _ => hqp, fun _ _ _ hc' type' hst' => ?_, fun type' _ => ?_⟩
  · cases hc'
    exact absurd hst' (hs' type')
  · by_cases he : type' = type
    · subst he
      have hhalf : ((s.wq type').qpn).lQpn = s.lQpn := hi.half _ _ _ hc type' hst
      simp [QpLife.qpns, QpLife.setRQpn, QpLife.setWq, hqp, hhalf]
    · have hother :
          ({ s.setRQpn type with call := .modify attr attrMask pc' } : QpLife).qpns type' =
            s.qpns type' := by
        simp [QpLife.qpns, QpLife.setRQpn, QpLife.setWq, he]
      rw [hother]
      refine hi.wq type' fun _ _ _ hc' => ?_
      rw [hc] at hc'
      cases hc'
      exact fun hst' => he ((hs type').mp hst')

theorem storing_rq (type : DisWqType) : ModifyPc.rqRQpn.storing type ↔ type = .rq := by
  cases type <;> simp [ModifyPc.storing]

theorem storing_sq (type : DisWqType) : ModifyPc.sqRQpn.storing type ↔ type = .sq := by
  cases type <;> simp [ModifyPc.storing]

theorem SameNumbers.modify {out : KthreadCreate} (hi : SameNumbers s)
    (hc : s.call = .modify attr attrMask pc) (h : modifyStep out attr attrMask s pc = some t) :
    SameNumbers t := by
  -- at most one of the two places it is at stores a number
  have quiet {u : QpLife} (hq : u.qpns = s.qpns) (hst : ∀ type, ¬ pc.storing type)
      (hu : ∀ attr attrMask pc', u.call = .modify attr attrMask pc' → ¬ pc'.numbered) :
      SameNumbers u := by
    refine hi.quiet hq (fun _ _ _ hc' => ?_) hu
    rw [hc] at hc'
    cases hc'
    exact hst
  cases modifyStep_access h with
  | direct | number | initSq | ready =>
    exact quiet rfl (fun _ => id) fun _ _ _ hu => by cases hu; exact id
  | unnumbered =>
    exact quiet rfl (fun _ => id) fun _ _ _ hu => by cases hu; exact afterQpns_quiet _
  | back _ hpc =>
    refine quiet rfl (fun type => ?_) fun _ _ _ hu => by cases hu
    rcases hpc with rfl | ⟨_, _, rfl⟩ <;> exact id
  | rQpn =>
    refine ⟨fun _ _ _ _ _ => rfl, fun _ _ _ hu _ hst => ?_, fun type _ => ?_⟩
    · cases hu
      exact hst.elim
    · refine hi.wq type fun _ _ _ hc' => ?_
      rw [hc] at hc'
      cases hc'
      exact id
  | rqLQpn => exact hi.setLQpn hc trivial (fun _ => id) storing_rq
  | rqRQpn => exact hi.setRQpn hc storing_rq fun _ => id
  | sqLQpn => exact hi.setLQpn hc trivial (fun _ => id) storing_sq
  | sqRQpn =>
    exact hi.setRQpn hc storing_sq fun _ hst =>
      afterQpns_quiet attrMask (ModifyPc.storing_numbered hst)
  | mtu => exact quiet rfl (fun _ => id) fun _ _ _ hu => by cases hu; exact id
  | rqMtu | sqMtu =>
    exact quiet (setMtu_qpns s _) (fun _ => id) fun _ _ _ hu => by cases hu; exact id
  | init hq =>
    exact quiet (setWq_qpns (qpInitStep_qpn hq)) (fun _ => id) fun _ _ _ hu => by cases hu; exact id
  | setState => exact quiet rfl (fun _ => id) fun _ _ _ hu => by cases hu

theorem SameNumbers.step (hi : SameNumbers s) {a : QpAct} (h : qpStep p s a = some t) :
    SameNumbers t := by
  cases qpStep_access h with
  | modify hidle =>
    refine hi.quiet rfl (fun _ _ _ hc => ?_) fun _ _ _ hu => by cases hu; exact id
    rw [hidle] at hc
    cases hc
  | destroy hidle =>
    refine hi.quiet rfl (fun _ _ _ hc => ?_) fun _ _ _ hu => by cases hu
    rw [hidle] at hc
    cases hc
  | inModify hc hm => exact hi.modify hc hm
  | inDestroy hc hd =>
    obtain ⟨hne, _, _, _, hq, _⟩ := destroyStep_call hd
    refine hi.quiet hq (fun _ _ _ hc' => ?_) fun _ _ _ hu => absurd hu (hne _ _ _)
    rw [hc] at hc'
    cases hc'
  | task hq =>
    exact hi.same rfl rfl (setWq_qpns (taskStep_move hq).frame.2.2.1) rfl

theorem newQp_sameNumbers (n : UInt32) : SameNumbers (newQp n) :=
  ⟨fun _ _ _ hc => (by cases hc), fun _ _ _ hc => (by cases hc), fun _ _ => rfl⟩

end

/-- What every QP keeps from its creation on, every QP of a device has. -/
theorem reach_deviceQps {p : SciIf} {s : DeviceState} {P : QpLife → Prop}
    (hnew : ∀ n, P (newQp n)) (hstep : ∀ s t a, P s → qpStep p s a = some t → P t)
    (h : Reach DeviceInit (Acts (deviceStep p) anyAct) s) (i : Nat) : P (s.qps i) := by
  apply h.invariant
  · rintro s rfl
    exact hnew 0
  · rintro s t _ hi ⟨a, _, hs⟩
    cases deviceStep_move hs with
    | allocPd | refused => exact hi
    | created =>
      by_cases he : i = s.qpC
      · subst he
        simp only [DeviceState.addQp, Function.update_self]
        exact hnew _
      · simpa [DeviceState.addQp, he] using hi
    | @qp j _ _ _ hq =>
      by_cases he : i = j
      · subst he
        simpa using hstep _ _ _ hi hq
      · simpa [he] using hi

/-- The QP was made, and no `dis_modify_qp` is under way on it. -/
def DeviceState.Rests (s : DeviceState) (i : Nat) : Prop :=
  i < s.qpC ∧ ∀ attr attrMask pc, (s.qps i).call ≠ .modify attr attrMask pc

/-- Both queues of it were told its number. -/
def DeviceState.Ready (s : DeviceState) (i : Nat) : Prop :=
  s.Rests i ∧ ∀ type, (s.qps i).named type = true

/-- The SQ of a QP here looks for the RQ of a QP there, which waits for it: what they connect and
create with, computed from the numbers that are stored in them now. -/
def Meets (a b : SciIf) (s t : DeviceState) (i j : Nat) : Prop :=
  Mirrors (connectMsqArgs a ((s.qps i).wq .sq).qpn) (createMsqArgs b ((t.qps j).wq .rq).qpn)

section

variable {a b : SciIf} {s t : DeviceState} {i j : Nat}

theorem rests_qpn (h : Reach DeviceInit (Acts (deviceStep a) anyAct) s) (hr : s.Rests i)
    (type : DisWqType) :
    ((s.qps i).wq type).qpn = ⟨s.carried i type, s.carried i type⟩ ∧
      (s.carried i type).toNat < 2 ^ 30 := by
  obtain ⟨hl, hsmall⟩ := (reach_deviceInv h).carries type hr.1
  have hsame := reach_deviceQps newQp_sameNumbers (fun _ _ _ hi hs => hi.step hs) h i
  have hrq : ((s.qps i).wq type).qpn.rQpn = ((s.qps i).wq type).qpn.lQpn :=
    hsame.wq type fun _ _ _ hc => absurd hc (hr.2 _ _ _)
  exact ⟨wqQpn_eq hl (hrq.trans hl), hsmall⟩

theorem meets_iff (hs : Reach DeviceInit (Acts (deviceStep a) anyAct) s)
    (ht : Reach DeviceInit (Acts (deviceStep b) anyAct) t) (hi : s.Rests i) (hj : t.Rests j) :
    Meets a b s t i j ↔ a.isInitiator ≠ b.isInitiator ∧ s.carried i .sq = t.carried j .rq := by
  obtain ⟨hqi, hsi⟩ := rests_qpn hs hi .sq
  obtain ⟨hqj, hsj⟩ := rests_qpn ht hj .rq
  have remote (p : SciIf) (n : UInt32) : remoteQpn p ⟨n, n⟩ = n := by
    unfold remoteQpn
    split <;> rfl
  have hodd : oddEnd a .sq = oddEnd b .rq ↔ a.isInitiator ≠ b.isInitiator := by
    cases ha : a.isInitiator <;> cases hb : b.isInitiator <;> simp [oddEnd, ha, hb]
  show Mirrors (msqArgs a .sq ((s.qps i).wq .sq).qpn) (msqArgs b .rq ((t.qps j).wq .rq).qpn) ↔ _
  rw [hqi, hqj, Mirrors, msqArgs_local, msqArgs_local, msqArgs_remote, msqArgs_remote, remote, remote,
    and_self_iff, msqId_inj hsi hsj, hodd]

theorem ready_carried (hi : s.Ready i) (type : DisWqType) : s.carried i type = (s.qps i).lQpn := by
  rw [DeviceState.carried, hi.2 type, if_pos rfl]

theorem ready_unique (h : Reach DeviceInit (Acts (deviceStep a) anyAct) s) (hi : s.Ready i)
    (hj : s.Ready j) (hpd : s.pdOf i = s.pdOf j) (he : (s.qps i).lQpn = (s.qps j).lQpn) : i = j := by
  by_contra hne
  exact (reach_deviceInv h).apart i hi.1.1 j hj.1.1 hne hpd he

end

/-- The drivers of two nodes, each in any run of its own: an SQ meets an RQ exactly if one node is the
initiator, the other one is not, and both queues work under one number, whatever `use_l_qpn` says on
either side and whatever peer was asked for. Queues that meet belong to two QPs that also meet the
other way, and within their PDs no other QP meets them. -/
theorem reach_pairsUp (a b : SciIf) (s t : DeviceState)
    (hs : Reach DeviceInit (Acts (deviceStep a) anyAct) s)
    (ht : Reach DeviceInit (Acts (deviceStep b) anyAct) t) :
    (∀ i j, s.Rests i → t.Rests j → (Meets a b s t i j ↔
      a.isInitiator ≠ b.isInitiator ∧ s.carried i .sq = t.carried j .rq)) ∧
    ∀ i j, s.Ready i → t.Ready j → Meets a b s t i j → Meets b a t s j i ∧
      (∀ j', t.Ready j' → t.pdOf j' = t.pdOf j → Meets a b s t i j' → j' = j) ∧
      ∀ i', s.Ready i' → s.pdOf i' = s.pdOf i → Meets a b s t i' j → i' = i := by
  have number {i j : Nat} (hi : s.Ready i) (hj : t.Ready j) : Meets a b s t i j ↔
      a.isInitiator ≠ b.isInitiator ∧ (s.qps i).lQpn = (t.qps j).lQpn := by
    rw [meets_iff hs ht hi.1 hj.1, ready_carried hi, ready_carried hj]
  refine ⟨fun i j hi hj => meets_iff hs ht hi hj, fun i j hi hj hm => ?_⟩
  obtain ⟨hab, hn⟩ := (number hi hj).mp hm
  refine ⟨?_, fun j' hj' hpd hm' => ?_, fun i' hi' hpd hm' => ?_⟩
  · rw [meets_iff ht hs hj.1 hi.1, ready_carried hi, ready_carried hj]
    exact ⟨hab.symm, hn.symm⟩
  · exact ready_unique ht hj' hj hpd (((number hi hj').mp hm').2.symm.trans hn)
  · exact ready_unique hs hi' hi hpd (((number hi' hj).mp hm').2.trans hn.symm)

/-- A node with two QPs of one PD in RTR, which asked for a peer of another number. -/
def rtrNode (p : SciIf) : DeviceState := afterActs (deviceStep p) freshDevice onePdActs

theorem rtrNode_reach (p : SciIf) : Reach DeviceInit (Acts (deviceStep p) anyAct) (rtrNode p) :=
  reach_afterActs freshDevice_init _

theorem rtrNode_ready : (rtrNode initiatorIf).Ready 1 ∧ (rtrNode responderIf).Ready 1 := by
  have hcall : ((rtrNode initiatorIf).qps 1).call = .idle := rfl
  have hcall' : ((rtrNode responderIf).qps 1).call = .idle := rfl
  refine ⟨⟨⟨by decide, by simp [hcall]⟩, fun type => ?_⟩,
    ⟨⟨by decide, by simp [hcall']⟩, fun type => ?_⟩⟩
  · cases type <;> rfl
  · cases type <;> rfl

theorem reach_pairsUp_second :
    Meets initiatorIf responderIf (rtrNode initiatorIf) (rtrNode responderIf) 1 1 ∧
      Meets responderIf initiatorIf (rtrNode responderIf) (rtrNode initiatorIf) 1 1 ∧
      ∀ j', (rtrNode responderIf).Ready j' →
        (rtrNode responderIf).pdOf j' = (rtrNode responderIf).pdOf 1 →
        Meets initiatorIf responderIf (rtrNode initiatorIf) (rtrNode responderIf) 1 j' → j' = 1 := by
  have hmeets : Meets initiatorIf responderIf (rtrNode initiatorIf) (rtrNode responderIf) 1 1 :=
    ⟨by decide, by decide⟩
  obtain ⟨hback, hone, _⟩ := (reach_pairsUp initiatorIf responderIf (rtrNode initiatorIf)
    (rtrNode responderIf) (rtrNode_reach _) (rtrNode_reach _)).2 1 1 rtrNode_ready.1 rtrNode_ready.2
    hmeets
  exact ⟨hmeets, hback, hone⟩

end DisKverbs
