import DisKverbs.QpLife

namespace DisKverbs

open StepSystem

/-- A thread that was made and has not ended, woken or not. -/
def TaskPc.alive (pc : TaskPc) : Prop := pc ≠ .absent ∧ pc.ended = false

instance (pc : TaskPc) : Decidable pc.alive := inferInstanceAs (Decidable (_ ∧ _))

def LifeQueue.Idle (q : LifeQueue) : Prop := ∀ i, ¬ (q.tasks i).pc.alive

/-- Only the numbers or the MTU of a queue have changed. -/
def SameLife (q q' : LifeQueue) : Prop :=
  q'.wqState = q.wqState ∧ q'.thread = q.thread ∧ q'.tasks = q.tasks ∧ q'.fresh = q.fresh

/-- Between two calls of `dis_qp_init`, or before its first access. -/
def QpInitPc.rests : QpInitPc → Prop
  | .testState | .ret _ => True
  | _ => False

/-- Where `dis_qp_init` is on a queue of a QP. -/
def QpLife.initPc (s : QpLife) (type : DisWqType) : QpInitPc :=
  match s.call with
  | .modify _ _ (.init type' pc) => if type' = type then pc else .ret 0
  | _ => .ret 0

/-- `dis_qp_exit` has returned for a queue of a QP. -/
def QpLife.past (s : QpLife) (type : DisWqType) : Prop :=
  match s.call with
  | .destroy .rq pc => type = .rq ∧ pc = .done
  | .destroy .sq pc => type = .rq ∨ pc = .done
  | .destroyed => True
  | _ => False

/-- The accesses of `dis_modify_qp`, by the place they are made at. -/
inductive ModifyMove (out : KthreadCreate) (attr : IbQpAttr) (attrMask : UInt32) (s : QpLife) :
    ModifyPc → QpLife → Prop
  | direct : hasAttr attrMask ibQpState = true → attr.qpState ≠ .rtr →
      ModifyMove out attr attrMask s .entry { s with call := .modify attr attrMask .setState }
  | number : hasAttr attrMask ibQpState = true → attr.qpState = .rtr →
      hasAttr attrMask ibQpDestQpn = true →
      ModifyMove out attr attrMask s .entry { s with call := .modify attr attrMask .rQpn }
  | unnumbered : hasAttr attrMask ibQpState = true → attr.qpState = .rtr →
      hasAttr attrMask ibQpDestQpn = false →
      ModifyMove out attr attrMask s .entry
        { s with call := .modify attr attrMask (.afterQpns attrMask) }
  | back {pc} (ret : Int) : pc = .entry ∨ (∃ type ret', pc = .init type (.ret ret')) →
      ModifyMove out attr attrMask s pc (s.ret ret)
  | rQpn : ModifyMove out attr attrMask s .rQpn
      { s with rQpn := s.lQpn, call := .modify attr attrMask .rqLQpn }
  | rqLQpn : ModifyMove out attr attrMask s .rqLQpn
      { s.setLQpn .rq with call := .modify attr attrMask .rqRQpn }
  | rqRQpn : ModifyMove out attr attrMask s .rqRQpn
      { s.setRQpn .rq with call := .modify attr attrMask .sqLQpn }
  | sqLQpn : ModifyMove out attr attrMask s .sqLQpn
      { s.setLQpn .sq with call := .modify attr attrMask .sqRQpn }
  | sqRQpn : ModifyMove out attr attrMask s .sqRQpn
      { s.setRQpn .sq with call := .modify attr attrMask (.afterQpns attrMask) }
  | mtu : ModifyMove out attr attrMask s .mtu
      { s with mtu := ibMtuEnumToInt attr.pathMtu, call := .modify attr attrMask .rqMtu }
  | rqMtu : ModifyMove out attr attrMask s .rqMtu
      { s.setMtu .rq with call := .modify attr attrMask .sqMtu }
  | sqMtu : ModifyMove out attr attrMask s .sqMtu
      { s.setMtu .sq with call := .modify attr attrMask (.init .rq .testState) }
  | init {type pc r} : qpInitStep out (s.wq type) pc = some r →
      ModifyMove out attr attrMask s (.init type pc)
        { s.setWq type r.1 with call := .modify attr attrMask (.init type r.2) }
  | initSq {ret} : ModifyMove out attr attrMask s (.init .rq (.ret ret))
      { s with call := .modify attr attrMask (.init .sq .testState) }
  | ready {ret} : ModifyMove out attr attrMask s (.init .sq (.ret ret))
      { s with call := .modify attr attrMask .setState }
  | setState : ModifyMove out attr attrMask s .setState { s.ret 0 with state := attr.qpState }

/-- A step of a QP: a verb begins or goes on, or a thread runs. -/
inductive QpAccess (p : SciIf) (s : QpLife) : QpAct → QpLife → Prop
  | modify {attr attrMask} : s.call = .idle →
      QpAccess p s (.modify attr attrMask) { s with call := .modify attr attrMask .entry }
  | destroy : s.call = .idle →
      QpAccess p s .destroy { s with call := .destroy .rq .testState }
  | inModify {attr attrMask pc out t} : s.call = .modify attr attrMask pc →
      modifyStep out attr attrMask s pc = some t → QpAccess p s (.call out) t
  | inDestroy {type pc out t} : s.call = .destroy type pc →
      destroyStep s type pc = some t → QpAccess p s (.call out) t
  | task {type i env q} : taskStep p type env (s.wq type) i = some q →
      QpAccess p s (.task type i env) (s.setWq type q)

inductive QpMove (p : SciIf) (s : QpLife) : QpAct → QpLife → Prop
  | quiet {a t} : (∀ type, SameLife (s.wq type) (t.wq type)) →
      (∀ type, (s.initPc type).rests ∧ (t.initPc type).rests) →
      (∀ type, t.past type → s.past type) → QpMove p s a t
  | init {attr attrMask type pc out r} : s.call = .modify attr attrMask (.init type pc) →
      qpInitStep out (s.wq type) pc = some r →
      QpMove p s (.call out) { s.setWq type r.1 with call := .modify attr attrMask (.init type r.2) }
  | exit {out type pc r} : s.call = .destroy type pc → qpExitStep (s.wq type) pc = some r →
      QpMove p s (.call out) { s.setWq type r.1 with call := .destroy type r.2 }
  | task {type i env q} : taskStep p type env (s.wq type) i = some q →
      QpMove p s (.task type i env) (s.setWq type q)

section

variable {p : SciIf} {s t : QpLife} {a : QpAct}

theorem sameLife_refl (q : LifeQueue) : SameLife q q := ⟨rfl, rfl, rfl, rfl⟩

theorem setWq_self (s : QpLife) (type : DisWqType) (q : LifeQueue) :
    (s.setWq type q).wq type = q := by
  simp [QpLife.setWq]

theorem setWq_other (s : QpLife) {type type' : DisWqType} (q : LifeQueue) (h : type' ≠ type) :
    (s.setWq type q).wq type' = s.wq type' := by
  simp [QpLife.setWq, h]

/-- What holds of the new queue and of the other one as it was holds of both queues. -/
theorem setWq_forall {P : DisWqType → LifeQueue → Prop} {type : DisWqType} {q : LifeQueue}
    (hq : P type q) (ho : ∀ type', type' ≠ type → P type' (s.wq type')) (type' : DisWqType) :
    P type' ((s.setWq type q).wq type') := by
  by_cases he : type' = type
  · subst he
    rw [setWq_self]
    exact hq
  · rw [setWq_other s q he]
    exact ho type' he

theorem setWq_sameLife {type : DisWqType} {q : LifeQueue} (h : SameLife (s.wq type) q)
    (type' : DisWqType) : SameLife (s.wq type') ((s.setWq type q).wq type') :=
  setWq_forall (P := fun type' q' => SameLife (s.wq type') q') h (fun _ _ => sameLife_refl _) type'

theorem initPc_other {call : QpCall} (h : s.call = call)
    (hc : ∀ attr attrMask type pc, call ≠ .modify attr attrMask (.init type pc))
    (type : DisWqType) : (s.initPc type).rests := by
  unfold QpLife.initPc
  rw [h]
  split
  next => exact absurd rfl (hc _ _ _ _)
  next => trivial

theorem initPc_init {attr : IbQpAttr} {attrMask : UInt32} {type : DisWqType} {pc : QpInitPc}
    (h : s.call = .modify attr attrMask (.init type pc)) (hpc : pc.rests) (type' : DisWqType) :
    (s.initPc type').rests := by
  unfold QpLife.initPc
  rw [h]
  by_cases he : type = type'
  · simpa [he] using hpc
  · simp [he, QpInitPc.rests]

theorem not_past_modify {attr : IbQpAttr} {attrMask : UInt32} {pc : ModifyPc}
    (h : s.call = .modify attr attrMask pc) (type : DisWqType) : ¬ s.past type := by
  simp [QpLife.past, h]

theorem not_past_idle (h : s.call = .idle) (type : DisWqType) : ¬ s.past type := by
  simp [QpLife.past, h]

theorem afterQpns_rests {attr : IbQpAttr} {attrMask : UInt32}
    (h : s.call = .modify attr attrMask (.afterQpns attrMask)) (type : DisWqType) :
    (s.initPc type).rests := by
  unfold ModifyPc.afterQpns at h
  split at h
  next => exact initPc_other h (by simp) type
  next => exact initPc_init h trivial type

theorem QpMove.modify {attr : IbQpAttr} {attrMask : UInt32} {pc : ModifyPc}
    (hr : ∀ type, (s.initPc type).rests) (hc : t.call = .modify attr attrMask pc)
    (hr' : ∀ type, (t.initPc type).rests) (hw : ∀ type, SameLife (s.wq type) (t.wq type)) :
    QpMove p s a t :=
  .quiet hw (fun type => ⟨hr type, hr' type⟩) fun type hp => absurd hp (not_past_modify hc type)

theorem QpMove.back (hr : ∀ type, (s.initPc type).rests) (hc : t.call = .idle)
    (hw : ∀ type, SameLife (s.wq type) (t.wq type)) : QpMove p s a t :=
  .quiet hw (fun type => ⟨hr type, initPc_other hc (by simp) type⟩)
    fun type hp => absurd hp (not_past_idle hc type)

theorem modifyStep_access {out : KthreadCreate} {attr : IbQpAttr} {attrMask : UInt32}
    {pc : ModifyPc} (h : modifyStep out attr attrMask s pc = some t) :
    ModifyMove out attr attrMask s pc t := by
  cases pc with
  | entry =>
    simp only [modifyStep] at h
    split at h
    next hst =>
      split at h
      next hq => cases Option.some.inj h; exact .direct hst (by simp [hq])
      next hq => cases Option.some.inj h; exact .direct hst (by simp [hq])
      next hq =>
        split at h
        next hd => cases Option.some.inj h; exact .number hst hq hd
        next hd => cases Option.some.inj h; exact .unnumbered hst hq (eq_false_of_ne_true hd)
      next hq => cases Option.some.inj h; exact .direct hst (by simp [hq])
      next => cases Option.some.inj h; exact .back _ (.inl rfl)
    next => cases Option.some.inj h; exact .back _ (.inl rfl)
  | rQpn => cases Option.some.inj h; exact .rQpn
  | rqLQpn => cases Option.some.inj h; exact .rqLQpn
  | rqRQpn => cases Option.some.inj h; exact .rqRQpn
  | sqLQpn => cases Option.some.inj h; exact .sqLQpn
  | sqRQpn => cases Option.some.inj h; exact .sqRQpn
  | mtu => cases Option.some.inj h; exact .mtu
  | rqMtu => cases Option.some.inj h; exact .rqMtu
  | sqMtu => cases Option.some.inj h; exact .sqMtu
  | init type pc =>
    unfold modifyStep at h
    split at h
    all_goals try contradiction
    next type' ret he =>
      cases he
      split at h
      next => cases Option.some.inj h; exact .back _ (.inr ⟨_, _, rfl⟩)
      next =>
        split at h
        next => cases Option.some.inj h; exact .initSq
        next => cases Option.some.inj h; exact .ready
    next type' pc' _ he =>
      cases he
      obtain ⟨r, hq, rfl⟩ := Option.map_eq_some_iff.mp h
      exact .init hq
  | setState => cases Option.some.inj h; exact .setState

theorem modifyStep_move {out : KthreadCreate} {attr : IbQpAttr} {attrMask : UInt32}
    {pc : ModifyPc} (hc : s.call = .modify attr attrMask pc)
    (h : modifyStep out attr attrMask s pc = some t) : QpMove p s (.call out) t := by
  have same (type : DisWqType) : SameLife (s.wq type) (s.wq type) := sameLife_refl _
  cases modifyStep_access h with
  | direct | number | rQpn | mtu =>
    exact .modify (initPc_other hc (by simp)) rfl (initPc_other rfl (by simp)) same
  | unnumbered => exact .modify (initPc_other hc (by simp)) rfl (afterQpns_rests rfl) same
  | back ret hp =>
    rcases hp with rfl | ⟨type, ret', rfl⟩
    · exact .back (initPc_other hc (by simp)) rfl same
    · exact .back (initPc_init hc trivial) rfl same
  | rqLQpn | rqRQpn | sqLQpn | rqMtu =>
    exact .modify (initPc_other hc (by simp)) rfl (initPc_other rfl (by simp))
      (setWq_sameLife (sameLife_refl _))
  | sqRQpn =>
    exact .modify (initPc_other hc (by simp)) rfl (afterQpns_rests rfl)
      (setWq_sameLife (sameLife_refl _))
  | sqMtu =>
    exact .modify (initPc_other hc (by simp)) rfl (initPc_init rfl trivial)
      (setWq_sameLife (sameLife_refl _))
  | init hq => exact .init hc hq
  | initSq => exact .modify (initPc_init hc trivial) rfl (initPc_init rfl trivial) same
  | ready => exact .modify (initPc_init hc trivial) rfl (initPc_other rfl (by simp)) same
  | setState => exact .back (initPc_other hc (by simp)) rfl same

theorem destroyStep_move {out : KthreadCreate} {type : DisWqType} {pc : QpExitPc}
    (hc : s.call = .destroy type pc) (h : destroyStep s type pc = some t) :
    QpMove p s (.call out) t := by
  have hr := initPc_other hc (by simp)
  unfold destroyStep at h
  split at h
  next =>
    cases Option.some.inj h
    refine .quiet (fun _ => sameLife_refl _) (fun type => ⟨hr type, ?_⟩) fun type hp => ?_
    · exact initPc_other rfl (by simp) type
    · simp only [QpLife.past, hc]
      simpa [QpLife.past] using hp
  next =>
    cases Option.some.inj h
    refine .quiet (fun _ => sameLife_refl _) (fun type => ⟨hr type, ?_⟩) fun type hp => ?_
    · exact initPc_other rfl (by simp) type
    · simp [QpLife.past, hc]
  next =>
    obtain ⟨r, hq, rfl⟩ := Option.map_eq_some_iff.mp h
    exact .exit hc hq

theorem qpStep_access (h : qpStep p s a = some t) : QpAccess p s a t := by
  cases a with
  | modify attr attrMask =>
    simp only [qpStep] at h
    split at h
    next hc => cases Option.some.inj h; exact .modify hc
    next => simp at h
  | destroy =>
    simp only [qpStep] at h
    split at h
    next hc => cases Option.some.inj h; exact .destroy hc
    next => simp at h
  | call out =>
    simp only [qpStep] at h
    split at h
    next hc => exact .inModify hc h
    next hc => exact .inDestroy hc h
    next => simp at h
  | task type i env =>
    obtain ⟨q, hq, rfl⟩ := Option.map_eq_some_iff.mp h
    exact .task hq

theorem qpStep_move (h : qpStep p s a = some t) : QpMove p s a t := by
  cases qpStep_access h with
  | modify hc =>
    exact .modify (initPc_other hc (by simp)) rfl (initPc_other rfl (by simp))
      fun _ => sameLife_refl _
  | destroy hc =>
    refine .quiet (fun _ => sameLife_refl _) (fun type => ⟨initPc_other hc (by simp) type, ?_⟩)
      fun type hp => ?_
    · exact initPc_other rfl (by simp) type
    · simp [QpLife.past] at hp
  | inModify hc hm => exact modifyStep_move hc hm
  | inDestroy hc hd => exact destroyStep_move hc hd
  | task hq => exact .task hq

end

end DisKverbs
