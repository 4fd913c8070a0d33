import DisKverbs.OneWorker

namespace DisKverbs

open StepSystem

def QpLife.qpns (s : QpLife) (type : DisWqType) : WqQpn := (s.wq type).qpn

/-- Every queue has had its worker made. -/
def QpLife.HasWorkers (s : QpLife) : Prop := ∀ type, ∃ i, ((s.wq type).tasks i).pc ≠ .absent

/-- The caller moves the QP to RTR only with the number of the peer it wants. -/
def AsksFor (peer : UInt32) (_ : QpLife) : QpAct → Prop
  | .modify attr attrMask => hasAttr attrMask ibQpState = true → attr.qpState = .rtr →
      hasAttr attrMask ibQpDestQpn = true ∧ attr.destQpNum = peer
  | _ => True

/-- What `dis_modify_qp` has stored when it is at a place on its way to RTR. -/
def Copied (n rQpn : UInt32) (qpns : DisWqType → WqQpn) (attr : IbQpAttr) (attrMask : UInt32) :
    ModifyPc → Prop
  | .entry => hasAttr attrMask ibQpState = true → attr.qpState = .rtr →
      hasAttr attrMask ibQpDestQpn = true
  | .rQpn | .setState => True
  | .rqLQpn => rQpn = n
  | .rqRQpn => rQpn = n ∧ (qpns .rq).lQpn = n
  | .sqLQpn => rQpn = n ∧ qpns .rq = ⟨n, n⟩
  | .sqRQpn => rQpn = n ∧ qpns .rq = ⟨n, n⟩ ∧ (qpns .sq).lQpn = n
  | .mtu | .rqMtu | .sqMtu | .init _ _ => ∀ type, qpns type = ⟨n, n⟩

/-- The queue of a worker has the QP's own number twice. -/
structure RtrInv (n : UInt32) (s : QpLife) : Prop where
  number : s.lQpn = n
  copied : ∀ attr attrMask pc, s.call = .modify attr attrMask pc →
    Copied n s.rQpn s.qpns attr attrMask pc
  workers : ∀ type i, ((s.wq type).tasks i).pc ≠ .absent → s.qpns type = ⟨n, n⟩

section

variable {p : SciIf} {s t : QpLife} {n : UInt32}

theorem qpInitStep_qpn {out : KthreadCreate} {q : LifeQueue} {pc : QpInitPc}
    {r : LifeQueue × QpInitPc} (h : qpInitStep out q pc = some r) : r.1.qpn = q.qpn := by
  cases qpInitStep_move h with
  | wake => exact (wake_frame _ _).2.2.2
  | _ => rfl

theorem qpExitStep_qpn {q : LifeQueue} {pc : QpExitPc} {r : LifeQueue × QpExitPc}
    (h : qpExitStep q pc = some r) : r.1.qpn = q.qpn ∧
      ∀ i, (r.1.tasks i).pc ≠ .absent → (q.tasks i).pc ≠ .absent := by
  obtain ⟨q', pc'⟩ := r
  rcases qpExitStep_life h with rfl | ⟨i, _, rfl, _⟩
  · exact ⟨rfl, fun _ ha => ha⟩
  · refine ⟨(stop_frame q i).2.2.2, fun j ha => ?_⟩
    rcases stop_pc q i j with he | ⟨rfl, hc, _⟩
    · rwa [← he]
    · rw [hc]
      simp

theorem setWq_qpns {type : DisWqType} {q : LifeQueue} (h : q.qpn = s.qpns type) :
    (s.setWq type q).qpns = s.qpns := by
  funext type'
  exact setWq_forall (P := fun type' q' => q'.qpn = s.qpns type') h (fun _ _ => rfl) type'

theorem wqQpn_eq {q : WqQpn} (hl : q.lQpn = n) (hr : q.rQpn = n) : q = ⟨n, n⟩ := by
  cases q
  cases hl
  cases hr
  rfl

theorem setMtu_qpns (s : QpLife) (type : DisWqType) : (s.setMtu type).qpns = s.qpns :=
  setWq_qpns rfl

theorem setMtu_tasks (s : QpLife) (type type' : DisWqType) :
    ((s.setMtu type).wq type').tasks = (s.wq type').tasks := by
  have h : SameLife (s.wq type) { s.wq type with mtu := s.mtu } := ⟨rfl, rfl, rfl, rfl⟩
  exact (setWq_sameLife h type').2.2.1

theorem afterQpns_copied {rQpn : UInt32} {qpns : DisWqType → WqQpn} {attr : IbQpAttr}
    {attrMask : UInt32} (h : ∀ type, qpns type = ⟨n, n⟩) :
    Copied n rQpn qpns attr attrMask (.afterQpns attrMask) := by
  unfold ModifyPc.afterQpns
  split
  next => exact h
  next => exact h

/-- A step that leaves numbers and threads alone. -/
theorem RtrInv.quiet (hi : RtrInv n s) (hl : t.lQpn = s.lQpn) (hq : t.qpns = s.qpns)
    (ht : ∀ type i, ((t.wq type).tasks i).pc ≠ .absent → ((s.wq type).tasks i).pc ≠ .absent)
    (hc : ∀ attr attrMask pc, t.call = .modify attr attrMask pc →
      Copied n t.rQpn s.qpns attr attrMask pc) : RtrInv n t := by
  refine ⟨hl.trans hi.number, ?_, fun type i ha => ?_⟩
  · rw [hq]
    exact hc
  · rw [hq]
    exact hi.workers type i (ht type i ha)

/-- A step that stores the number in a queue. -/
theorem RtrInv.store (hi : RtrInv n s) {attr : IbQpAttr} {attrMask : UInt32} {type : DisWqType}
    {pc : ModifyPc} (qpn : WqQpn) (hl : t.lQpn = s.lQpn) (hr : t.rQpn = s.rQpn)
    (hw : t.wq = Function.update s.wq type { s.wq type with qpn := qpn })
    (hc : t.call = .modify attr attrMask pc) (hk : s.qpns type = ⟨n, n⟩ → qpn = ⟨n, n⟩)
    (hcop : Copied n s.rQpn (Function.update s.qpns type qpn) attr attrMask pc) : RtrInv n t := by
  have hq : t.qpns = Function.update s.qpns type qpn := by
    funext type'
    unfold QpLife.qpns
    rw [hw]
    by_cases he : type' = type
    · subst he
      simp
    · simp [he]
  refine ⟨hl.trans hi.number, ?_, fun type' i ha => ?_⟩
  · intro attr' attrMask' pc' hc'
    rw [hc] at hc'
    cases hc'
    rw [hq, hr]
    exact hcop
  · rw [hq]
    by_cases he : type' = type
    · subst he
      have hold : ((s.wq type').tasks i).pc ≠ .absent := by simpa [hw] using ha
      simpa using hk (hi.workers type' i hold)
    · have hold : ((s.wq type').tasks i).pc ≠ .absent := by simpa [hw, he] using ha
      simpa [he] using hi.workers type' i hold

theorem RtrInv.modify (hi : RtrInv n s) {out : KthreadCreate} {attr : IbQpAttr}
    {attrMask : UInt32} {pc : ModifyPc} (hc : s.call = .modify attr attrMask pc)
    (h : modifyStep out attr attrMask s pc = some t) : RtrInv n t := by
  have hcop := hi.copied attr attrMask pc hc
  have quiet {u : QpLife} {pc' : ModifyPc} (hl : u.lQpn = s.lQpn) (hq : u.qpns = s.qpns)
      (ht : ∀ type i, ((u.wq type).tasks i).pc ≠ .absent → ((s.wq type).tasks i).pc ≠ .absent)
      (hu : u.call = .modify attr attrMask pc') (hp : Copied n u.rQpn s.qpns attr attrMask pc') :
      RtrInv n u := by
    refine hi.quiet hl hq ht fun attr' attrMask' pc'' he => ?_
    rw [hu] at he
    cases he
    exact hp
  have back {u : QpLife} (hl : u.lQpn = s.lQpn) (hw : u.wq = s.wq) (hu : u.call = .idle) :
      RtrInv n u := by
    refine hi.quiet hl (by unfold QpLife.qpns; rw [hw]) (by rw [hw]; exact fun _ _ ha => ha) ?_
    rw [hu]
    simp
  cases modifyStep_access h with
  | direct | number | ready => exact quiet rfl rfl (fun _ _ ha => ha) rfl trivial
  | unnumbered hst hrtr hd => simp [hcop hst hrtr] at hd
  | back => exact back rfl rfl rfl
  | rQpn => exact quiet rfl rfl (fun _ _ ha => ha) rfl hi.number
  | rqLQpn =>
    refine hi.store ⟨s.lQpn, (s.wq .rq).qpn.rQpn⟩ rfl rfl rfl rfl ?_ ?_
    · exact fun hk => wqQpn_eq hi.number (congrArg WqQpn.rQpn hk)
    · exact ⟨hcop, by simp [hi.number]⟩
  | rqRQpn =>
    obtain ⟨hr, hl⟩ := hcop
    have hnew : (⟨(s.wq .rq).qpn.lQpn, s.rQpn⟩ : WqQpn) = ⟨n, n⟩ := wqQpn_eq hl hr
    refine hi.store ⟨(s.wq .rq).qpn.lQpn, s.rQpn⟩ rfl rfl rfl rfl (fun _ => hnew) ?_
    exact ⟨hr, by simpa using hnew⟩
  | sqLQpn =>
    obtain ⟨hr, hq⟩ := hcop
    refine hi.store ⟨s.lQpn, (s.wq .sq).qpn.rQpn⟩ rfl rfl rfl rfl ?_ ?_
    · exact fun hk => wqQpn_eq hi.number (congrArg WqQpn.rQpn hk)
    · exact ⟨hr, by simpa using hq, by simp [hi.number]⟩
  | sqRQpn =>
    obtain ⟨hr, hq, hl⟩ := hcop
    have hnew : (⟨(s.wq .sq).qpn.lQpn, s.rQpn⟩ : WqQpn) = ⟨n, n⟩ := wqQpn_eq hl hr
    refine hi.store ⟨(s.wq .sq).qpn.lQpn, s.rQpn⟩ rfl rfl rfl rfl (fun _ => hnew) ?_
    refine afterQpns_copied fun type => ?_
    cases type
    · simpa using hnew
    · simpa using hq
  | mtu | initSq => exact quiet rfl rfl (fun _ _ ha => ha) rfl hcop
  | rqMtu | sqMtu =>
    refine quiet rfl (setMtu_qpns s _) (fun type i ha => ?_) rfl hcop
    rwa [setMtu_tasks] at ha
  | @init type pc r hq =>
    have hqpns : (s.setWq type r.1).qpns = s.qpns := setWq_qpns (qpInitStep_qpn hq)
    refine ⟨hi.number, ?_, fun type' i _ => ?_⟩
    · intro attr' attrMask' pc'' hc'
      cases hc'
      exact fun type' => (congrFun hqpns type').trans (hcop type')
    · exact (congrFun hqpns type').trans (hcop type')
  | setState => exact back rfl rfl rfl

end

end DisKverbs
