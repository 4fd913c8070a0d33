import DisKverbs.QpStates

namespace DisKverbs

open StepSystem

/-- Steps of a QP that is not told to go to RTR. -/
def BeforeRtr (_ : QpLife) : QpAct → Prop
  | .modify attr _ => attr.qpState ≠ .rtr
  | .destroy => False
  | _ => True

/-- `t` is where a call to RTR begins on the QP `s`, which was never told to go there. -/
structure RtrCalled (p : SciIf) (lQpn : UInt32) (s t : QpLife) : Prop where
  before : Reach (QpInit lQpn) (Acts (qpStep p) BeforeRtr) s
  call : ∃ attr attrMask, attr.qpState = .rtr ∧ hasAttr attrMask ibQpState = true ∧
    qpStep p s (.modify attr attrMask) = some t

/-- The steps during the call and after its return; `kthread_create` never returns NULL. -/
def CallAct (_ : QpLife) : QpAct → Prop
  | .call out => out ≠ .null
  | .task .. => True
  | _ => False

/-- No creation of a thread is answered with an error pointer. -/
def MakesThread (s : QpLife) : QpAct → Prop
  | .call out => ∀ attr attrMask type, s.call = .modify attr attrMask (.init type .create) →
      out ≠ .errPtr
  | _ => True

/-- `wq->thread` names a thread that was made. -/
def LifeQueue.HasThread (q : LifeQueue) : Prop :=
  ∃ i, q.thread = .task i ∧ (q.tasks i).pc ≠ .absent

/-- A call to RTR that fails is undone and one that succeeds leaves both queues with a thread;
no error pointer is taken for one. -/
structure RtrSafe (s t : QpLife) : Prop where
  failed : ∀ ret, t.rets = s.rets ++ [ret] → ret ≠ 0 →
    t.state = s.state ∧ t.wq = s.wq ∧ ∀ type, (t.wq type).Idle
  ready : t.rets = s.rets ++ [0] → ∀ type, (t.wq type).HasThread
  noErr : ∀ type, (t.wq type).thread ≠ .errPtr

/-- The queue while `dis_qp_init` is on it and threads can be made. -/
def QpInitPc.Fits : QpInitPc → LifeQueue → Prop
  | .testState, q | .setState, q | .create, q => q.Unused
  | .undo, _ => False
  | .wake, q => q.HasThread
  | .ret n, q => n = 0 ∧ q.HasThread

def ModifyPc.Stage (attrMask : UInt32) (wq : DisWqType → LifeQueue) : ModifyPc → Prop
  | .entry => hasAttr attrMask ibQpState = true ∧ ∀ type, (wq type).Unused
  | .init .rq pc => pc.Fits (wq .rq) ∧ (wq .sq).Unused
  | .init .sq pc => (wq .rq).HasThread ∧ pc.Fits (wq .sq)
  | .setState => ∀ type, (wq type).HasThread
  | _ => ∀ type, (wq type).Unused

/-- How far a call to RTR has come that began with the returns `rets`. -/
def RtrStage (rets : List Int) (t : QpLife) : Prop :=
  match t.call with
  | .modify attr attrMask pc => t.rets = rets ∧ attr.qpState = .rtr ∧ pc.Stage attrMask t.wq
  | .idle => t.rets = rets ++ [0] ∧ ∀ type, (t.wq type).HasThread
  | _ => False

section

variable {p : SciIf} {s t u : QpLife} {q q' : LifeQueue} {i : Nat} {rets : List Int}
  {out : KthreadCreate}

/-- A thread never becomes absent again. -/
theorem LifeQueue.HasThread.move (h : q.HasThread) (hm : TaskMove q i q') : q'.HasThread := by
  obtain ⟨j, hj, hpc⟩ := h
  have hset : ∀ pc, pc ≠ .absent → (q.setTask i pc).HasThread := by
    intro pc hne
    refine ⟨j, hj, ?_⟩
    by_cases he : j = i
    · subst he
      simpa [LifeQueue.setTask] using hne
    · simpa [LifeQueue.setTask, he] using hpc
  cases hm with
  | stay => exact ⟨j, hj, hpc⟩
  | skip | enter => exact hset _ (by simp)
  | serve _ hv => exact hset _ (by rintro rfl; exact hv)
  | running | exited => exact hset _ (by simp)

theorem LifeQueue.HasThread.wake (h : q.HasThread) : (q.wake i).HasThread := by
  obtain ⟨j, hj, hpc⟩ := h
  unfold LifeQueue.wake
  split
  next =>
    refine ⟨j, hj, ?_⟩
    by_cases he : j = i
    · subst he
      simp [LifeQueue.setTask]
    · simpa [LifeQueue.setTask, he] using hpc
  next => exact ⟨j, hj, hpc⟩

theorem QpInitPc.Fits.move {pc : QpInitPc} (h : pc.Fits q) (hm : TaskMove q i q') : pc.Fits q' := by
  cases pc with
  | testState | setState | create => exact absurd hm.alive (h.idle i)
  | undo => exact h
  | wake => exact LifeQueue.HasThread.move h hm
  | ret n => exact ⟨h.1, h.2.move hm⟩

/-- `dis_qp_init` on an unused queue succeeds as long as threads can be made. -/
theorem QpInitPc.Fits.step {pc : QpInitPc} {r : LifeQueue × QpInitPc} (h : pc.Fits q)
    (hs : qpInitStep out q pc = some r) (hnull : out ≠ .null)
    (herr : pc = .create → out ≠ .errPtr) : r.2.Fits r.1 := by
  cases pc with
  | testState =>
    cases Option.some.inj hs
    rw [if_neg h.state]
    exact h
  | setState =>
    cases Option.some.inj hs
    exact ⟨by simp, h.idle, h.thread⟩
  | create =>
    cases out with
    | thread =>
      cases Option.some.inj hs
      exact ⟨q.fresh, rfl, by simp⟩
    | errPtr => exact absurd rfl (herr rfl)
    | null => exact absurd rfl hnull
  | undo => exact h.elim
  | wake =>
    obtain ⟨i, hi, hpc⟩ := h
    simp only [qpInitStep, hi] at hs
    cases Option.some.inj hs
    exact ⟨rfl, LifeQueue.HasThread.wake ⟨i, hi, hpc⟩⟩
  | ret n => simp [qpInitStep] at hs

theorem ModifyPc.Stage.task {attrMask : UInt32} {pc : ModifyPc} {type : DisWqType}
    (h : pc.Stage attrMask t.wq) (hm : TaskMove (t.wq type) i q) :
    pc.Stage attrMask (t.setWq type q).wq := by
  have unused : ∀ type', (t.wq type').Unused → ((t.setWq type q).wq type').Unused := by
    intro type' hu
    by_cases he : type' = type
    · subst he
      exact absurd hm.alive (hu.idle i)
    · rwa [setWq_other t q he]
  have threads : ∀ type', (t.wq type').HasThread → ((t.setWq type q).wq type').HasThread := by
    intro type' ht
    by_cases he : type' = type
    · subst he
      rw [setWq_self]
      exact ht.move hm
    · rwa [setWq_other t q he]
  have fits : ∀ type' (ipc : QpInitPc), ipc.Fits (t.wq type') →
      ipc.Fits ((t.setWq type q).wq type') := by
    intro type' ipc hf
    by_cases he : type' = type
    · subst he
      rw [setWq_self]
      exact hf.move hm
    · rwa [setWq_other t q he]
  cases pc with
  | entry => exact ⟨h.1, fun type' => unused type' (h.2 type')⟩
  | init kind ipc =>
    cases kind with
    | rq => exact ⟨fits _ _ h.1, unused _ h.2⟩
    | sq => exact ⟨threads _ h.1, fits _ _ h.2⟩
  | setState => exact fun type' => threads type' (h type')
  | _ => exact fun type' => unused type' (h type')

theorem afterQpns_stage {attrMask : UInt32} {wq : DisWqType → LifeQueue}
    (h : ∀ type, (wq type).Unused) : (ModifyPc.afterQpns attrMask).Stage attrMask wq := by
  unfold ModifyPc.afterQpns
  split
  next => exact h
  next => exact ⟨h .rq, h .sq⟩

theorem RtrStage.call {attr : IbQpAttr} {attrMask : UInt32} {pc : ModifyPc}
    (h : RtrStage rets t) (hc : t.call = .modify attr attrMask pc) (hnull : out ≠ .null)
    (herr : MakesThread t (.call out)) (hm : modifyStep out attr attrMask t pc = some u) :
    RtrStage rets u := by
  simp only [RtrStage, hc] at h
  obtain ⟨hrets, hrtr, hstage⟩ := h
  have same : ∀ {q : LifeQueue} {type : DisWqType}, SameLife (t.wq type) q →
      (∀ type, (t.wq type).Unused) → ∀ type', ((t.setWq type q).wq type').Unused :=
    fun hq hu type' => (hu type').same (setWq_sameLife hq type')
  by_cases hret : ∃ type ret, pc = .init type (.ret ret)
  · obtain ⟨type, ret, rfl⟩ := hret
    rcases modifyStep_ret hm with ⟨hne, _⟩ | ⟨_, rfl, rfl⟩ | ⟨_, rfl, rfl⟩
    · cases type with
      | rq => exact absurd hstage.1.1 hne
      | sq => exact absurd hstage.2.1 hne
    · exact ⟨hrets, hrtr, hstage.1.2, hstage.2⟩
    · refine ⟨hrets, hrtr, fun type => ?_⟩
      cases type with
      | rq => exact hstage.1
      | sq => exact hstage.2.2
  · cases modifyStep_access hm with
    | direct _ hne => exact absurd hrtr hne
    | number => exact ⟨hrets, hrtr, hstage.2⟩
    | unnumbered => exact ⟨hrets, hrtr, afterQpns_stage hstage.2⟩
    | back ret hp =>
      rcases hp with rfl | ⟨type, ret', rfl⟩
      · simp only [modifyStep, hstage.1, hrtr, if_true] at hm
        split at hm <;> simp [QpLife.ret] at hm
      · exact absurd ⟨type, ret', rfl⟩ hret
    | rQpn | mtu => exact ⟨hrets, hrtr, hstage⟩
    | rqLQpn | rqRQpn | sqLQpn | rqMtu =>
      exact ⟨hrets, hrtr, same (sameLife_refl _) hstage⟩
    | sqRQpn => exact ⟨hrets, hrtr, afterQpns_stage (same (sameLife_refl _) hstage)⟩
    | sqMtu =>
      have hu : ∀ type, ((t.setMtu .sq).wq type).Unused := same (sameLife_refl _) hstage
      exact ⟨hrets, hrtr, hu .rq, hu .sq⟩
    | @init type ipc r hq =>
      have hcreate : ipc = .create → out ≠ .errPtr := by
        rintro rfl
        exact herr attr attrMask type hc
      cases type with
      | rq => exact ⟨hrets, hrtr, hstage.1.step hq hnull hcreate, hstage.2⟩
      | sq => exact ⟨hrets, hrtr, hstage.1, hstage.2.step hq hnull hcreate⟩
    | initSq | ready => exact absurd ⟨_, _, rfl⟩ hret
    | setState =>
      refine ⟨?_, hstage⟩
      show t.rets ++ [0] = rets ++ [0]
      rw [hrets]

theorem RtrStage.step {a : QpAct} (h : RtrStage rets t) (ha : CallAct t a) (hok : MakesThread t a)
    (hs : qpStep p t a = some u) : RtrStage rets u := by
  cases qpStep_access hs with
  | modify | destroy => exact ha.elim
  | inModify hc hm => exact h.call hc ha hok hm
  | inDestroy hc => simp [RtrStage, hc] at h
  | @task type i env q hq =>
    have hm := taskStep_move hq
    unfold RtrStage at h ⊢
    show match t.call with | .modify attr attrMask pc => _ | .idle => _ | _ => _
    split at h
    next hc => exact ⟨h.1, h.2.1, h.2.2.task hm⟩
    next hc =>
      have hready : ModifyPc.setState.Stage 0 (t.setWq type q).wq := ModifyPc.Stage.task h.2 hm
      exact ⟨h.1, hready⟩
    next => exact h

theorem QpInitPc.Fits.noErr {pc : QpInitPc} (h : pc.Fits q) : q.thread ≠ .errPtr := by
  cases pc with
  | testState | setState | create =>
    rw [h.thread]
    simp
  | undo => exact h.elim
  | wake =>
    obtain ⟨i, hi, _⟩ := h
    simp [hi]
  | ret n =>
    obtain ⟨_, i, hi, _⟩ := h
    simp [hi]

theorem ModifyPc.Stage.noErr {attrMask : UInt32} {pc : ModifyPc} {wq : DisWqType → LifeQueue}
    (h : pc.Stage attrMask wq) (type : DisWqType) : (wq type).thread ≠ .errPtr := by
  have unused : (wq type).Unused → (wq type).thread ≠ .errPtr := by
    intro hu
    rw [hu.thread]
    simp
  have threads : (wq type).HasThread → (wq type).thread ≠ .errPtr := by
    rintro ⟨i, hi, _⟩
    simp [hi]
  cases pc with
  | entry => exact unused (h.2 type)
  | init kind ipc =>
    cases kind <;> cases type
    · exact h.2.noErr
    · exact threads h.1
    · exact unused h.2
    · exact h.1.noErr
  | setState => exact threads (h type)
  | _ => exact unused (h type)

/-- A call that cannot fail has nothing to undo. -/
theorem RtrStage.safe (h : RtrStage s.rets t) : RtrSafe s t := by
  unfold RtrStage at h
  split at h
  next hc =>
    have hlen : ∀ ret, t.rets ≠ s.rets ++ [ret] := by
      intro ret he
      rw [h.1] at he
      simpa using congrArg List.length he
    exact ⟨fun ret he => absurd he (hlen ret), fun he => absurd he (hlen 0),
      fun type => h.2.2.noErr type⟩
  next hc =>
    refine ⟨?_, fun _ => h.2, ?_⟩
    · intro ret he hne
      rw [h.1] at he
      exact absurd (by simpa using he.symm) hne
    · have hready : ModifyPc.setState.Stage 0 t.wq := h.2
      exact fun type => hready.noErr type
  next => exact h.elim

/-- A QP that was never told to go to RTR has the queues it was made with. -/
def Untouched (s : QpLife) : Prop :=
  s.wq = (fun _ => zeroLife) ∧
    (s.call = .idle ∨ ∃ attr attrMask pc, s.call = .modify attr attrMask pc ∧
      attr.qpState ≠ .rtr ∧ (pc = .entry ∨ pc = .setState))

theorem reach_untouched {lQpn : UInt32}
    (h : Reach (QpInit lQpn) (Acts (qpStep p) BeforeRtr) s) : Untouched s := by
  apply h.invariant
  · rintro s rfl
    exact ⟨rfl, .inl rfl⟩
  · rintro s t _ ⟨hwq, hcall⟩ ⟨a, ha, hs⟩
    cases qpStep_access hs with
    | @modify attr attrMask => exact ⟨hwq, .inr ⟨attr, attrMask, .entry, rfl, ha, .inl rfl⟩⟩
    | destroy => exact ha.elim
    | inModify hc hm =>
      rcases hcall with hidle | ⟨attr, attrMask, pc, hmod, hne, hpc⟩
      · rw [hidle] at hc
        cases hc
      · rw [hmod] at hc
        cases hc
        rcases hpc with rfl | rfl
        · cases modifyStep_access hm with
          | direct => exact ⟨hwq, .inr ⟨_, _, .setState, rfl, hne, .inr rfl⟩⟩
          | number _ hrtr | unnumbered _ hrtr => exact absurd hrtr hne
          | back => exact ⟨hwq, .inl rfl⟩
        · cases modifyStep_access hm with
          | back ret hp => exact ⟨hwq, .inl rfl⟩
          | setState => exact ⟨hwq, .inl rfl⟩
    | inDestroy hc =>
      rcases hcall with hidle | ⟨_, _, _, hmod, _⟩
      · rw [hidle] at hc
        cases hc
      · rw [hmod] at hc
        cases hc
    | @task type i env q hq =>
      have halive := (taskStep_move hq).alive
      rw [hwq] at halive
      exact absurd rfl halive.1

theorem RtrCalled.stage {lQpn : UInt32} (h : RtrCalled p lQpn s t) : RtrStage s.rets t := by
  obtain ⟨attr, attrMask, hrtr, hmask, hs⟩ := h.call
  cases qpStep_access hs with
  | modify hc =>
    refine ⟨rfl, hrtr, hmask, fun type => ?_⟩
    show (s.wq type).Unused
    rw [(reach_untouched h.before).1]
    exact ⟨by simp [zeroLife], fun i halive => halive.1 rfl, rfl⟩

theorem reach_here {step : QpLife → QpLife → Prop} (s : QpLife) : Reach (· = s) step s :=
  reach_start rfl

theorem reach_rtrStage (ht : RtrStage rets t)
    (h : Reach (· = t) (Acts (qpStep p) fun s a => CallAct s a ∧ MakesThread s a) u) :
    RtrStage rets u := by
  apply h.invariant
  · rintro u rfl
    exact ht
  · rintro u v _ hi ⟨a, ⟨ha, hok⟩, hs⟩
    exact hi.step ha hok hs

/-- A creation answered with an error pointer is recorded as the thread of the queue. -/
theorem errPtr_recorded {a : QpAct} (hs : qpStep p t a = some u) (hsafe : RtrSafe s u) :
    MakesThread t a := by
  cases a with
  | call out =>
    rintro attr attrMask type hc rfl
    simp only [qpStep, hc, modifyStep, qpInitStep] at hs
    obtain rfl := Option.some.inj hs
    exact hsafe.noErr type (by simp [setWq_self])
  | _ => trivial

end

/-- A call to RTR keeps its promise in every run as long as threads can be made; the first
error pointer breaks it. -/
theorem reach_rtrSafe (p : SciIf) (lQpn : UInt32) (s t u : QpLife) (hcall : RtrCalled p lQpn s t)
    (h : Reach (· = t) (Acts (qpStep p) fun s a => CallAct s a ∧ MakesThread s a) u) :
    RtrSafe s u ∧ ∀ a v, CallAct u a → qpStep p u a = some v →
      (RtrSafe s v ↔ MakesThread u a) := by
  have hstage := reach_rtrStage hcall.stage h
  refine ⟨hstage.safe, fun a v ha hs => ⟨errPtr_recorded hs, fun hok => ?_⟩⟩
  exact (hstage.step ha hok hs).safe

def callAct (_ : QpLife) : QpAct → Bool
  | .call .null => false
  | .call _ => true
  | .task .. => true
  | _ => false

theorem callAct_sound (s : QpLife) (a : QpAct) (h : callAct s a = true) : CallAct s a := by
  cases a with
  | call out =>
    rintro rfl
    cases h
  | task => trivial
  | _ => cases h

def makesThread (_ : QpLife) : QpAct → Bool
  | .call .thread => true
  | .task .. => true
  | _ => false

theorem makesThread_sound (s : QpLife) (a : QpAct) (h : makesThread s a = true) :
    CallAct s a ∧ MakesThread s a := by
  cases a with
  | call out =>
    cases out with
    | thread => exact ⟨by simp [CallAct], fun _ _ _ _ => by simp⟩
    | _ => cases h
  | task => exact ⟨trivial, trivial⟩
  | _ => cases h

/-- A new QP at the start of a call to RTR. -/
def calledQp : QpLife :=
  { newQp 100 with call := .modify (rtrAttr 100) (ibQpState ||| ibQpDestQpn) .entry }

theorem calledQp_called : RtrCalled initiatorIf 100 (newQp 100) calledQp :=
  ⟨reach_start (newQp_init 100), rtrAttr 100, ibQpState ||| ibQpDestQpn, rfl, by decide, rfl⟩

/-- The call, with the receive worker running before the SQ is initialised. -/
def bothActs : List QpAct :=
  List.replicate 11 (.call .thread) ++ taskActs .rq 0 3 ++ List.replicate 6 (.call .thread)

def bothQp : QpLife := afterChecked (qpStep initiatorIf) makesThread calledQp bothActs

theorem reach_rtrSafe_both : bothQp.rets = [0] ∧ RtrSafe (newQp 100) bothQp ∧
    ∀ a v, CallAct bothQp a → qpStep initiatorIf bothQp a = some v →
      (RtrSafe (newQp 100) v ↔ MakesThread bothQp a) :=
  ⟨by decide, reach_rtrSafe initiatorIf 100 (newQp 100) calledQp bothQp calledQp_called
    (reach_afterChecked makesThread_sound (reach_here calledQp) bothActs)⟩

/-- No thread can be made for the SQ. -/
def errPtrQp : QpLife :=
  afterChecked (qpStep initiatorIf) callAct calledQp
    (List.replicate 13 (.call .thread) ++ [.call .errPtr])

/-- The call is about to wake the error pointer it has recorded, and the RQ has its thread. -/
theorem errPtr_taken :
    Reach (· = calledQp) (Acts (qpStep initiatorIf) CallAct) errPtrQp ∧
      (errPtrQp.wq .sq).thread = .errPtr ∧ (errPtrQp.wq .rq).thread = .task 0 ∧
      ((errPtrQp.wq .rq).tasks 0).pc = .woken ∧ ¬ RtrSafe (newQp 100) errPtrQp := by
  have herr : (errPtrQp.wq .sq).thread = .errPtr := by decide
  exact ⟨reach_afterChecked callAct_sound (reach_here calledQp) _, herr, by decide, by decide,
    fun h => h.noErr .sq herr⟩

end DisKverbs
