import DisKverbs.QpMoves

namespace DisKverbs

open StepSystem

/-- The QP's two queues have no more than one live worker each, and none once the QP is
destroyed. -/
structure OneWorker (s : QpLife) : Prop where
  one : ∀ type i j, ((s.wq type).tasks i).pc.alive → ((s.wq type).tasks j).pc.alive → i = j
  none : s.call = .destroyed → ∀ type, (s.wq type).Idle

/-- No call of `dis_qp_init` starts on a queue that has its worker. -/
def StartsOnce (s : QpLife) : QpAct → Prop
  | .call _ => ∀ attr attrMask type, s.call = .modify attr attrMask (.init type .testState) →
      FirstStart (s.wq type)
  | _ => True

structure QpInv (s : QpLife) : Prop where
  phase : ∀ type, LifePhase (s.initPc type) (s.wq type)
  past : ∀ type, s.past type → (s.wq type).Idle

section

variable {p : SciIf} {s t : QpLife} {q q' : LifeQueue} {pc pc' : QpInitPc} {i : Nat}

theorem LifePhase.same (h : LifePhase pc q) (hq : SameLife q q') : LifePhase pc q' := by
  obtain ⟨hs, hth, ht, hf⟩ := hq
  rcases h with h | h
  · exact .inl ⟨ht ▸ h.tasks, hf.trans h.fresh, hth ▸ h.thread, hs.trans h.state⟩
  · exact .inr ⟨h.init, ht ▸ h.other, ht ▸ h.made, hf.trans h.fresh, hth.trans h.thread,
      by rw [hs, ht]; exact h.state⟩

theorem LifePhase.rest (h : LifePhase pc q) (hpc : pc.rests) (hpc' : pc'.rests) :
    LifePhase pc' q := by
  have vac {pc : QpInitPc} (hp : pc.rests) : pc.vacantState = .uninitialized ∧ pc.staffs := by
    cases pc <;> first | exact ⟨rfl, trivial⟩ | exact hp.elim
  rcases h with h | h
  · refine .inl ⟨h.tasks, h.fresh, h.thread, ?_⟩
    rw [(vac hpc').1, h.state, (vac hpc).1]
  · exact .inr ⟨(vac hpc').2, h.other, h.made, h.fresh, h.thread, h.state⟩

/-- What `dis_qp_exit` takes for the end of the worker is its end. -/
theorem LifePhase.idle (h : LifePhase pc q)
    (hs : q.wqState = .uninitialized ∨ q.wqState = .exited) : q.Idle := by
  rcases h with h | h
  · intro i ha
    exact ha.1 (h.tasks i)
  · have hgone : (q.tasks 0).pc = .gone := by
      rcases hs with hs | hs
      · exact absurd (status_vacant (h.state.symm.trans hs)) h.made
      · have hst := h.state.symm.trans hs
        cases hp : (q.tasks 0).pc <;> simp [hp, TaskPc.status] at hst ⊢
    intro i ha
    by_cases hi : i = 0
    · subst hi
      simp [TaskPc.alive, hgone, TaskPc.ended] at ha
    · exact ha.1 (h.other i hi)

theorem LifePhase.one (h : LifePhase pc q) {i j : Nat} (hi : (q.tasks i).pc.alive)
    (hj : (q.tasks j).pc.alive) : i = j := by
  rcases h with h | h
  · exact absurd (h.tasks i) hi.1
  · rw [h.only hi.1, h.only hj.1]

theorem TaskMove.alive (h : TaskMove q i q') : (q.tasks i).pc.alive := ⟨h.present, h.not_ended⟩

/-- A queue without a worker has no steps of one. -/
theorem LifeQueue.Idle.same (h : q.Idle) (hq : SameLife q q') : q'.Idle := by
  intro i
  rw [hq.2.2.1]
  exact h i

theorem qpExitStep_life {pc pc' : QpExitPc} (h : qpExitStep q pc = some (q', pc')) :
    q' = q ∨ ∃ i, q.thread = .task i ∧ q' = q.stop i ∧ pc' = .join i := by
  cases pc with
  | stop =>
    simp only [qpExitStep] at h
    split at h
    next i hi => cases Option.some.inj h; exact .inr ⟨i, hi, rfl, rfl⟩
    next => simp at h
  | join i =>
    simp only [qpExitStep] at h
    split at h
    next => cases Option.some.inj h; exact .inl rfl
    next => simp at h
  | done => simp [qpExitStep] at h
  | _ => cases Option.some.inj h; exact .inl rfl

theorem qpExitStep_done {pc : QpExitPc} (h : qpExitStep q pc = some (q', .done)) :
    q' = q ∧ (q.wqState = .uninitialized ∨ q.wqState = .exited) := by
  cases pc with
  | testState =>
    obtain ⟨rfl, hd⟩ := Prod.mk.inj (Option.some.inj h)
    split at hd
    next hs => exact ⟨rfl, hs⟩
    next => simp at hd
  | stop =>
    simp only [qpExitStep] at h
    split at h <;> simp at h
  | join i =>
    simp only [qpExitStep] at h
    split at h <;> simp at h
  | wake => simp [qpExitStep] at h
  | loop =>
    obtain ⟨rfl, hd⟩ := Prod.mk.inj (Option.some.inj h)
    split at hd
    next hs => exact ⟨rfl, .inr hs⟩
    next => simp at hd
  | done => simp [qpExitStep] at h

theorem QpInv.move {a : QpAct} (hi : QpInv s) (hok : StartsOnce s a) (h : QpMove p s a t) :
    QpInv t := by
  cases h with
  | quiet hw hr hp =>
    refine ⟨fun type => ?_, fun type ht => (hi.past type (hp type ht)).same (hw type)⟩
    exact ((hi.phase type).same (hw type)).rest (hr type).1 (hr type).2
  | @init attr attrMask type pc out r hc hs =>
    refine ⟨fun type' => ?_, fun type' hp => absurd hp (not_past_modify rfl type')⟩
    refine setWq_forall (P := fun type' q => LifePhase (QpLife.initPc _ type') q) ?_ ?_ type'
    · have hphase := hi.phase type
      simp only [QpLife.initPc, hc, if_true] at hphase ⊢
      refine hphase.init (fun hpc => ?_) hs
      subst hpc
      exact hok attr attrMask type hc
    · intro type' he
      have hne : ¬ type = type' := fun hx => he hx.symm
      have hphase := hi.phase type'
      simp only [QpLife.initPc, hc, if_neg hne] at hphase ⊢
      exact hphase
  | @exit out type pc r hc hs =>
    obtain ⟨q, pc'⟩ := r
    have hphase (type' : DisWqType) : LifePhase (.ret 0) (s.wq type') := by
      simpa [QpLife.initPc, hc] using hi.phase type'
    have hnew : LifePhase (.ret 0) q := by
      rcases qpExitStep_life hs with rfl | ⟨i, ht, rfl, _⟩
      · exact hphase type
      · exact (hphase type).stop ht
    refine ⟨setWq_forall (P := fun _ q => LifePhase (.ret 0) q) hnew fun type' _ => hphase type', ?_⟩
    refine setWq_forall (P := fun type' q => QpLife.past _ type' → q.Idle) ?_ ?_
    · intro hp
      have hd : pc' = .done := by
        cases type <;> simpa [QpLife.past] using hp
      subst hd
      obtain ⟨rfl, hst⟩ := qpExitStep_done hs
      exact (hphase type).idle hst
    · intro type' he hp
      refine hi.past type' ?_
      cases type with
      | rq =>
        simp only [QpLife.past] at hp
        exact absurd hp.1 he
      | sq =>
        cases type' with
        | sq => exact absurd rfl he
        | rq => simp [QpLife.past, hc]
  | @task type i env q hs =>
    have hm := taskStep_move hs
    refine ⟨?_, ?_⟩
    · exact setWq_forall (P := fun type' q => LifePhase (s.initPc type') q)
        ((hi.phase type).task hm) fun type' _ => hi.phase type'
    · refine setWq_forall (P := fun type' q => s.past type' → q.Idle) ?_ fun type' _ => hi.past type'
      intro hp
      exact absurd hm.alive (hi.past type hp i)

theorem QpInv.oneWorker (h : QpInv s) : OneWorker s := by
  refine ⟨fun type i j => (h.phase type).one, fun hd type => h.past type ?_⟩
  simp [QpLife.past, hd]

theorem newQp_inv (lQpn : UInt32) : QpInv (newQp lQpn) := by
  refine ⟨fun type => ?_, fun type hp => by simp [newQp, QpLife.past] at hp⟩
  exact zeroLife_phase.rest trivial trivial

theorem reach_qpInv {lQpn : UInt32}
    (h : Reach (QpInit lQpn) (Acts (qpStep p) StartsOnce) s) : QpInv s := by
  apply h.invariant
  · rintro s rfl
    exact newQp_inv lQpn
  · rintro s t _ hi ⟨a, hok, hs⟩
    exact hi.move hok (qpStep_move hs)

/-- As long as no queue that has its worker is initialised again, every sequence of calls
keeps at most one worker for each queue, and the last call leaves none. -/
theorem reach_oneWorker (p : SciIf) (lQpn : UInt32) (s : QpLife)
    (h : Reach (QpInit lQpn) (Acts (qpStep p) StartsOnce) s) : OneWorker s :=
  (reach_qpInv h).oneWorker

end

/-- `StartsOnce`, as a test of the state before the step. -/
def startsOnce (s : QpLife) : QpAct → Bool
  | .call _ =>
    match s.call with
    | .modify _ _ (.init type .testState) =>
      decide ((s.wq type).wqState ≠ .initialized ∧ (s.wq type).wqState ≠ .running)
    | _ => true
  | _ => true

theorem startsOnce_sound (s : QpLife) (a : QpAct) (h : startsOnce s a = true) :
    StartsOnce s a := by
  cases a with
  | call out =>
    intro attr attrMask type hc
    simp only [startsOnce, hc] at h
    simpa [FirstStart] using h
  | _ => trivial

def rtrAttr (destQpNum : UInt32) : IbQpAttr := ⟨.rtr, destQpNum, .mtu4096⟩

/-- A whole call that moves the QP to RTR, with the peer's number. -/
def rtrActs (destQpNum : UInt32) : List QpAct :=
  .modify (rtrAttr destQpNum) (ibQpState ||| ibQpDestQpn) :: List.replicate 17 (.call .thread)

def taskActs (type : DisWqType) (i n : Nat) : List QpAct :=
  List.replicate n (.task type i fineEnv)

def exitActs (type : DisWqType) (i n : Nat) : List QpAct :=
  List.replicate 2 (.call .thread) ++ taskActs type i n ++ List.replicate 4 (.call .thread)

/-- To RTR, the workers connect, and the QP is destroyed. -/
def lifeActs : List QpAct :=
  rtrActs 100 ++ taskActs .rq 0 3 ++ taskActs .sq 0 3 ++ [.destroy] ++ exitActs .rq 0 3 ++
    exitActs .sq 0 3

theorem reach_oneWorker_life :
    OneWorker (afterChecked (qpStep initiatorIf) startsOnce (newQp 100) lifeActs) :=
  reach_oneWorker initiatorIf 100 _
    (reach_afterChecked startsOnce_sound (reach_start (newQp_init 100)) lifeActs)

/-- To RTR twice, and both pairs of workers connect. -/
def twiceActs : List QpAct :=
  rtrActs 100 ++ taskActs .rq 0 3 ++ taskActs .sq 0 3 ++ rtrActs 100 ++ taskActs .rq 1 3 ++
    taskActs .sq 1 3

def twiceQp : QpLife := afterActs (qpStep initiatorIf) (newQp 100) twiceActs

def survivedQp : QpLife :=
  afterActs (qpStep initiatorIf) (newQp 100)
    (twiceActs ++ [.destroy] ++ exitActs .rq 1 3 ++ exitActs .sq 1 3)

/-- The second move to RTR starts a second worker on each queue, and the first ones survive
the QP. -/
theorem second_start :
    Reach (QpInit 100) (Acts (qpStep initiatorIf) anyAct) twiceQp ∧
      (∀ type, ((twiceQp.wq type).tasks 0).pc = .top ∧ ((twiceQp.wq type).tasks 1).pc = .top) ∧
      ¬ OneWorker twiceQp ∧
      Reach (QpInit 100) (Acts (qpStep initiatorIf) anyAct) survivedQp ∧
      survivedQp.call = .destroyed ∧ (∀ type, ((survivedQp.wq type).tasks 0).pc = .top) ∧
      ¬ OneWorker survivedQp := by
  have htwo : ∀ type, ((twiceQp.wq type).tasks 0).pc = .top ∧
      ((twiceQp.wq type).tasks 1).pc = .top := by
    intro type
    cases type
    · exact ⟨by decide, by decide⟩
    · exact ⟨by decide, by decide⟩
  have hlive : ∀ type, ((survivedQp.wq type).tasks 0).pc = .top := by
    intro type
    cases type
    · decide
    · decide
  have hdead : survivedQp.call = .destroyed := by rfl
  refine ⟨reach_afterActs (newQp_init 100) _, htwo, fun h => ?_, reach_afterActs (newQp_init 100) _, hdead, hlive,
    fun h => ?_⟩
  · have := h.one .rq 0 1 (by rw [(htwo .rq).1]; decide) (by rw [(htwo .rq).2]; decide)
    simp at this
  · exact h.none hdead .rq 0 (by rw [hlive .rq]; decide)

end DisKverbs
