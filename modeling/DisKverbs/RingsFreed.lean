import DisKverbs.QpRings

namespace DisKverbs

open CircBuf RingMachine StepSystem

/-- What a step that is no access of `dis_wq_consume_all` leaves of the first thread. -/
structure KeepsTask (q q' : LifeQueue) : Prop where
  stop : (q'.tasks 0).shouldStop = (q.tasks 0).shouldStop ∨ (q'.tasks 0).shouldStop = true
  drain : (q.tasks 0).pc = .drain → (q'.tasks 0).pc = .drain
  absent : (q'.tasks 0).pc = .absent → (q'.tasks 0).shouldStop = false

/-- Nobody has asked a thread to stop that was not made. -/
def Unstopped (q : LifeQueue) : Prop := (q.tasks 0).pc = .absent → (q.tasks 0).shouldStop = false

section

variable {p : SciIf} {q q' : LifeQueue} {pc pc' : QpInitPc} {i : Nat}

theorem keepsTask_same (hu : Unstopped q) (h : q'.tasks = q.tasks) : KeepsTask q q' := by
  refine ⟨.inl (by rw [h]), fun hd => by rw [h]; exact hd, ?_⟩
  rw [h]
  exact hu

/-- A change that at most wakes the thread, and stops it. -/
theorem keepsTask_woken (hm : (q.tasks 0).pc ≠ .absent)
    (ht : ((q'.tasks 0).pc = (q.tasks 0).pc ∨
      (0 : Nat) = 0 ∧ (q.tasks 0).pc = .created ∧ (q'.tasks 0).pc = .woken))
    (hs : (q'.tasks 0).shouldStop = (q.tasks 0).shouldStop ∨ (q'.tasks 0).shouldStop = true) :
    KeepsTask q q' := by
  refine ⟨hs, fun hd => ?_, fun ha => ?_⟩
  · rcases ht with he | ⟨_, hc, _⟩
    · exact he.trans hd
    · simp [hd] at hc
  · rcases ht with he | ⟨_, _, hw⟩
    · exact absurd (he.symm.trans ha) hm
    · simp [hw] at ha

theorem LifePhase.keepsTask_init {out : KthreadCreate} (h : LifePhase pc q) (hu : Unstopped q)
    (hs : qpInitStep out q pc = some (q', pc')) : KeepsTask q q' := by
  cases qpInitStep_move hs with
  | thread =>
    rcases h with h | h
    · have ha := h.tasks 0
      refine ⟨.inl ?_, fun hd => ?_, fun _ => ?_⟩
      · simp [h.fresh, hu ha]
      · simp [hd] at ha
      · simp [h.fresh]
    · exact h.init.elim
  | @wake i hi =>
    rcases h with h | h
    · exact absurd hi (h.thread i)
    · obtain rfl := h.named hi
      exact keepsTask_woken h.made (wake_pc q 0 0) (.inl (wake_shouldStop q 0 0))
  | _ => exact keepsTask_same hu rfl

theorem LifePhase.keepsTask_exit {pc : QpInitPc} {epc epc' : QpExitPc} (h : LifePhase pc q)
    (hu : Unstopped q) (hs : qpExitStep q epc = some (q', epc')) : KeepsTask q q' := by
  rcases qpExitStep_life hs with rfl | ⟨i, hi, rfl, _⟩
  · exact keepsTask_same hu rfl
  · rcases h with h | h
    · exact absurd hi (h.thread i)
    · obtain rfl := h.named hi
      exact keepsTask_woken h.made (stop_pc q 0 0) (.inr (stop_shouldStop q 0))

/-- A thread does not change what others asked of it. -/
theorem TaskMove.own (hm : TaskMove q i q') :
    (q'.tasks i).shouldStop = (q.tasks i).shouldStop ∧ (q'.tasks i).pc ≠ .absent := by
  have hne := hm.present
  cases hm with
  | stay _ => exact ⟨rfl, hne⟩
  | @serve pc _ hv' =>
    refine ⟨by simp, fun ha => ?_⟩
    rw [setTask_self] at ha
    subst ha
    exact hv'
  | _ => exact ⟨by simp, by simp⟩

theorem TaskMove.keepsTask (hm : TaskMove q i q') (hu : Unstopped q)
    (hd : (q.tasks i).pc ≠ .drain) : KeepsTask q q' := by
  by_cases hi : i = 0
  · subst hi
    obtain ⟨hs, ha⟩ := hm.own
    exact ⟨.inl hs, fun hp => absurd hp hd, fun hp => absurd hp ha⟩
  · obtain ⟨_, _, _, ho⟩ := hm.frame
    have hzero := ho 0 (fun h => hi h.symm)
    refine ⟨.inl (by rw [hzero]), fun hp => by rw [hzero]; exact hp, ?_⟩
    rw [hzero]
    exact hu

variable {s t : QpLife}

theorem QpMove.keepsTask {a : QpAct} (hi : QpInv s) (hu : ∀ type, Unstopped (s.wq type))
    (hd : ∀ type i env, a = .task type i env → ((s.wq type).tasks i).pc ≠ .drain)
    (h : QpMove p s a t) (type : DisWqType) : KeepsTask (s.wq type) (t.wq type) := by
  have changed {type' : DisWqType} {q : LifeQueue} (hk : KeepsTask (s.wq type') q) :
      ∀ type, KeepsTask (s.wq type) ((s.setWq type' q).wq type) :=
    setWq_forall (P := fun type q => KeepsTask (s.wq type) q) hk fun type _ =>
      keepsTask_same (hu type) rfl
  cases h with
  | quiet hw _ _ => exact keepsTask_same (hu type) (hw type).2.2.1
  | @init attr attrMask type' pc out r hc hs =>
    refine changed ?_ type
    have hphase := hi.phase type'
    simp only [QpLife.initPc, hc, if_true] at hphase
    exact hphase.keepsTask_init (hu type') hs
  | @exit out type' pc r hc hs =>
    refine changed ?_ type
    exact (hi.phase type').keepsTask_exit (hu type') hs
  | @task type' i env q hs =>
    refine changed ?_ type
    exact (taskStep_move hs).keepsTask (hu type') (hd type' i env rfl)

end

/-- No call of `dis_qp_init` starts on a queue that has its worker. -/
def RingsOnce (s : QpRings) : QpRingsAct → Prop
  | .life a => StartsOnce s.life a
  | _ => True

/-- When the QP is released, its rings hold no WQE that needs a page map. -/
def RingsDrained (s : QpRings) : QpRingsAct → Prop
  | .life (.call out) => StartsOnce s.life (.call out) ∧
      (s.life.call = .destroy .sq .done → ∀ type, (s.ring type).NoneLarge)
  | _ => True

/-- Once `dis_destroy_qp` has returned, every page map of the QP has been freed. -/
def QpRings.MapsFreed (s : QpRings) : Prop :=
  s.life.call = .destroyed → ∀ type, (s.ring type).MapsFreed

/-- Each ring is in a state that its queue reaches with one worker. -/
structure RingsInv (cfg : QpCfg) (s : QpRings) : Prop where
  seen : ∀ type, Reach WqInit (Acts (wqStep (cfg.wq type)) anyAct) (s.seen type 0)
  unstopped : ∀ type, Unstopped (s.life.wq type)
  rest : ∀ type, ((s.life.wq type).tasks 0).pc ≠ .drain → (s.pc type 0).freed = 0
  idle : s.life.call.ending = true → ∀ type, (s.ring type).poster = .idle

section

variable {p : SciIf} {cfg : QpCfg} {lQpn : UInt32} {s t : QpRings}

theorem reach_ringsLife (h : Reach (QpRingsInit lQpn) (Acts (qpRingsStep p cfg) RingsOnce) s) :
    Reach (QpInit lQpn) (Acts (qpStep p) StartsOnce) s.life := by
  apply h.project QpRings.life
  · exact fun s hi => hi.1
  · rintro s t _ _ ⟨a, hok, hs⟩
    cases qpRingsStep_move hs with
    | life hl _ _ => exact .inr ⟨_, hok, hl⟩
    | drain hd hw =>
      rcases drained_life (p := p) hd hw with he | ⟨env, he⟩
      · exact .inl he
      · exact .inr ⟨.task _ _ env, trivial, he⟩
    | post _ _ | poster _ => exact .inl rfl

theorem modifyStep_call {out : KthreadCreate} {attr : IbQpAttr} {attrMask : UInt32}
    {pc : ModifyPc} {s t : QpLife} (h : modifyStep out attr attrMask s pc = some t) :
    t.call.ending = false := by
  cases modifyStep_access h <;> rfl

/-- Only the call of `dis_destroy_qp` begins the end of a QP. -/
theorem qpStep_ending {a : QpAct} {s t : QpLife} (h : qpStep p s a = some t)
    (ht : t.call.ending = true) : s.call.ending = true ∨ a = .destroy := by
  cases qpStep_access h with
  | modify _ => simp [QpCall.ending] at ht
  | destroy _ => exact .inr rfl
  | inModify _ hm => simp [modifyStep_call hm] at ht
  | inDestroy hc _ => exact .inl (by rw [hc]; rfl)
  | task _ => exact .inl ht

/-- The release of the QP is the last access of `dis_destroy_qp`. -/
theorem qpStep_destroyed {a : QpAct} {s t : QpLife} (h : qpStep p s a = some t)
    (ht : t.call = .destroyed) : s.call = .destroyed ∨
      s.call = .destroy .sq .done ∧ (∃ out, a = .call out) ∧ t.wq = s.wq := by
  cases qpStep_access h with
  | modify _ => simp at ht
  | destroy _ => simp at ht
  | inModify _ hm =>
    have hover := modifyStep_call hm
    simp [ht, QpCall.ending] at hover
  | inDestroy hc hd =>
    unfold destroyStep at hd
    split at hd
    next =>
      cases Option.some.inj hd
      simp at ht
    next =>
      cases Option.some.inj hd
      exact .inr ⟨hc, ⟨_, rfl⟩, rfl⟩
    next =>
      obtain ⟨r, _, rfl⟩ := Option.map_eq_some_iff.mp hd
      simp at ht
  | task _ => exact .inl ht

/-- Only the first thread is ever alive. -/
theorem QpInv.alive {s : QpLife} (hi : QpInv s) {type : DisWqType} {i : Nat}
    (h : ((s.wq type).tasks i).pc ≠ .absent) : i = 0 := by
  rcases hi.phase type with hv | hst
  · exact absurd (hv.tasks i) h
  · exact hst.only h

/-- A post does not read what belongs to the thread. -/
theorem posterStep_seen {cfg : WqCfg} {buf : Option (Nat → Iovec)} (w : WqState) (pc : WorkerPc)
    (stop : Bool) : posterStep cfg buf { w with worker := pc, shouldStop := stop } =
      (posterStep cfg buf w).map fun t => { t with worker := pc, shouldStop := stop } := by
  obtain ⟨head, tail, slots, poster, worker, shouldStop, fresh, rets, posted, retired, frees⟩ := w
  cases poster with
  | idle => rfl
  | gotHead req head =>
    simp only [posterStep]
    split <;> rfl
  | fill req head prog owned start =>
    cases prog with
    | ret r => cases r <;> rfl
    | load k => rfl
    | store v k => rfl
    | ask k => cases buf <;> rfl

/-- A step of the posting context is one in the eyes of every thread. -/
theorem setRing_seen {type type' : DisWqType} {w : WqState}
    (h : ∃ a, wqStep (cfg.wq type) (s.seen type 0) a =
      some { w with worker := s.pc type 0, shouldStop := ((s.life.wq type).tasks 0).shouldStop })
    (hr : Reach WqInit (Acts (wqStep (cfg.wq type')) anyAct) (s.seen type' 0)) :
    Reach WqInit (Acts (wqStep (cfg.wq type')) anyAct) ((s.setRing type w).seen type' 0) := by
  by_cases he : type' = type
  · subst he
    obtain ⟨a, ha⟩ := h
    have hnext := hr.next ⟨a, trivial, ha⟩
    simpa only [QpRings.setRing, QpRings.seen, Function.update_self] using hnext
  · simpa only [QpRings.setRing, QpRings.seen, Function.update_of_ne he] using hr

theorem RingsInv.life (hi : RingsInv cfg s) (hq : QpInv s.life) {a : QpAct} {life : QpLife}
    (h : qpStep p s.life a = some life)
    (hdestroy : a = .destroy → ∀ type, (s.ring type).poster = .idle)
    (hd : ∀ type i env, a = .task type i env → ((s.life.wq type).tasks i).pc ≠ .drain) :
    RingsInv cfg { s with life := life } := by
  have hkeep := (qpStep_move h).keepsTask hq hi.unstopped hd
  refine ⟨fun type => ?_, fun type => (hkeep type).absent, fun type hne => ?_, fun ho => ?_⟩
  · rcases (hkeep type).stop with hs | hs
    · have he : QpRings.seen { s with life := life } type 0 = s.seen type 0 := by
        simp only [QpRings.seen, hs]
      rw [he]
      exact hi.seen type
    · refine (hi.seen type).next ⟨.stop, trivial, ?_⟩
      simp only [QpRings.seen, hs, wqStep]
  · exact hi.rest type fun hp => hne ((hkeep type).drain hp)
  · rcases qpStep_ending h ho with hover | he
    · exact hi.idle hover
    · exact hdestroy he

theorem drained_seen {type : DisWqType} {i : Nat} {w : WqState}
    (hs : w.shouldStop = (s.seen type i).shouldStop) : (s.drained type i w).seen type i = w := by
  have hstop : (((s.drained type i w).life.wq type).tasks i).shouldStop = w.shouldStop := by
    rw [hs, QpRings.drained, setWq_self, setTask_self]
    rfl
  rw [QpRings.seen, hstop]
  simp only [QpRings.drained, Function.update_self]

theorem drained_other {type type' : DisWqType} {i j : Nat} {w : WqState} (he : type' ≠ type) :
    (s.drained type i w).seen type' j = s.seen type' j ∧
      (s.drained type i w).life.wq type' = s.life.wq type' := by
  have hlife : (s.drained type i w).life.wq type' = s.life.wq type' := setWq_other s.life _ he
  refine ⟨?_, hlife⟩
  rw [QpRings.seen, hlife]
  simp only [QpRings.drained, QpRings.seen, Function.update_of_ne he]

theorem next_freed {pc : WorkerPc} (h : pc.next ≠ .drain) : pc.freed = 0 := by
  cases pc with
  | retire => exact absurd rfl h
  | _ => rfl

theorem next_present (pc : WorkerPc) : pc.next ≠ .absent := by
  cases pc <;> simp [WorkerPc.next]

theorem RingsInv.drain (hi : RingsInv cfg s) (hq : QpInv s.life) {type : DisWqType} {i : Nat}
    {out : Option UInt32} {w : WqState} (hd : ((s.life.wq type).tasks i).pc = .drain)
    (h : workerStep (cfg.wq type) out (s.seen type i) = some w) :
    RingsInv cfg (s.drained type i w) := by
  obtain rfl : i = 0 := hq.alive (by rw [hd]; simp)
  have hseen := drained_seen (s := s) (workerStep_stop h).1
  have htask : ((s.drained type 0 w).life.wq type).tasks 0 =
      ⟨w.worker.next, ((s.life.wq type).tasks 0).shouldStop⟩ := by
    rw [QpRings.drained, setWq_self, setTask_self]
  refine ⟨fun type' => ?_, fun type' => ?_, fun type' hne => ?_, fun ho type' => ?_⟩
  · by_cases he : type' = type
    · subst he
      rw [hseen]
      exact (hi.seen type').next ⟨.worker out, trivial, h⟩
    · rw [(drained_other he).1]
      exact hi.seen type'
  · by_cases he : type' = type
    · subst he
      intro ha
      rw [htask] at ha
      exact absurd ha (next_present _)
    · rw [(drained_other (j := 0) he).2]
      exact hi.unstopped type'
  · by_cases he : type' = type
    · subst he
      rw [htask] at hne
      simp only [QpRings.drained, Function.update_self]
      exact next_freed hne
    · rw [(drained_other (j := 0) he).2] at hne
      simp only [QpRings.drained, Function.update_of_ne he]
      exact hi.rest type' hne
  · have hp := hi.idle ho type'
    by_cases he : type' = type
    · subst he
      simp only [QpRings.drained, Function.update_self]
      exact (workerStep_move h).frame.1.trans hp
    · simp only [QpRings.drained, Function.update_of_ne he]
      exact hp

theorem RingsInv.move (hi : RingsInv cfg s) (hq : QpInv s.life) {a : QpRingsAct}
    (h : QpRingsMove p cfg s a t) : RingsInv cfg t := by
  cases h with
  | life hl hdestroy hd => exact hi.life hq hl hdestroy hd
  | drain hd hw => exact hi.drain hq hd hw
  | @post type req w hover hs =>
    obtain ⟨hp, rfl⟩ := wqStep_start hs
    refine ⟨fun type' => setRing_seen ⟨.start req, ?_⟩ (hi.seen type'), hi.unstopped, hi.rest,
      fun ho => ?_⟩
    · simp only [wqStep, QpRings.seen, hp]
    · exact absurd (hover.symm.trans ho) (by simp)
  | @poster type buf w hs =>
    refine ⟨fun type' => setRing_seen ⟨.poster buf, ?_⟩ (hi.seen type'), hi.unstopped, hi.rest,
      fun ho => ?_⟩
    · show posterStep _ _ _ = _
      rw [QpRings.seen, posterStep_seen, hs]
      rfl
    · have hp := hi.idle ho type
      simp [posterStep, hp] at hs

theorem reach_ringsInv (h : Reach (QpRingsInit lQpn) (Acts (qpRingsStep p cfg) RingsOnce) s) :
    RingsInv cfg s := by
  apply h.invariant
  · rintro s ⟨hlife, hring, hpc⟩
    have hseen : ∀ type, s.seen type 0 = s.ring type := by
      intro type
      rw [QpRings.seen, hring type, hpc type 0, hlife]
      rfl
    refine ⟨fun type => ?_, fun type => ?_, fun type _ => ?_, fun _ type => ?_⟩
    · rw [hseen]
      exact reach_start (hring type)
    · rw [hlife]
      exact fun _ => rfl
    · rw [hpc]
      rfl
    · rw [hring type]
  · rintro s t hr hi ⟨a, _, hs⟩
    exact hi.move (reach_qpInv (reach_ringsLife hr)) (qpRingsStep_move hs)

/-- After `dis_destroy_qp` nothing happens to the QP. -/
theorem destroyed_stuck (hi : RingsInv cfg s) (hq : QpInv s.life)
    (hd : s.life.call = .destroyed) {a : QpRingsAct} : ¬ QpRingsMove p cfg s a t := by
  have hidle : ∀ type i, ¬ ((s.life.wq type).tasks i).pc.alive := by
    intro type
    exact hq.past type (by simp [QpLife.past, hd])
  intro h
  cases h with
  | life hl _ _ =>
    cases qpStep_access hl with
    | modify hc | destroy hc => simp [hd] at hc
    | inModify hc _ | inDestroy hc _ => simp [hd] at hc
    | task hs => exact hidle _ _ (taskStep_move hs).alive
  | drain hdrain _ => exact hidle _ _ (by rw [hdrain]; decide)
  | post hover _ => simp [hd, QpCall.ending] at hover
  | @poster type buf w hs =>
    have hp := hi.idle (by simp [hd, QpCall.ending]) type
    simp [posterStep, hp] at hs

/-- What `dis_destroy_qp` leaves behind are the page maps of the WQEs that it left in the
rings. -/
theorem RingsInv.mapsFreed_iff (hi : RingsInv cfg s) (hq : QpInv s.life)
    (hd : s.life.call = .destroyed) (type : DisWqType) :
    (s.ring type).MapsFreed ↔ (s.ring type).NoneLarge := by
  have hover : s.life.call.ending = true := by rw [hd]; rfl
  have hrest : (s.pc type 0).freed = 0 := by
    refine hi.rest type fun hp => ?_
    exact hq.past type (by simp [QpLife.past, hd]) 0 (by rw [hp]; decide)
  have hiff : (s.seen type 0).MapsFreed ↔ (s.seen type 0).NoneLarge :=
    DisKverbs.mapsFreed_iff (hi.seen type) (hi.idle hover type) hrest
  exact hiff

theorem RingsDrained.once {a : QpRingsAct} (h : RingsDrained s a) : RingsOnce s a := by
  cases a with
  | life a =>
    cases a with
    | call out => exact h.1
    | _ => trivial
  | _ => trivial

theorem reach_once (h : Reach (QpRingsInit lQpn) (Acts (qpRingsStep p cfg) RingsDrained) s) :
    Reach (QpRingsInit lQpn) (Acts (qpRingsStep p cfg) RingsOnce) s :=
  h.project id (fun _ hi => hi) fun _ _ _ _ ⟨a, hok, hs⟩ => .inr ⟨a, hok.once, hs⟩

/-- A step keeps the QP without a leak exactly if it does not release a QP with one. -/
theorem mapsFreed_next (h : Reach (QpRingsInit lQpn) (Acts (qpRingsStep p cfg) RingsOnce) s)
    {a : QpRingsAct} (hok : RingsOnce s a) (hs : qpRingsStep p cfg s a = some t) :
    t.MapsFreed ↔ RingsDrained s a := by
  have hi := reach_ringsInv h
  have hq := reach_qpInv (reach_ringsLife h)
  have ht := h.next ⟨a, hok, hs⟩
  have hm := qpRingsStep_move hs
  by_cases hd : t.life.call = .destroyed
  · have hleft : t.MapsFreed ↔ ∀ type, (t.ring type).NoneLarge := by
      have hiff := (reach_ringsInv ht).mapsFreed_iff (reach_qpInv (reach_ringsLife ht)) hd
      exact ⟨fun hf type => (hiff type).mp (hf hd type), fun hn _ type => (hiff type).mpr (hn type)⟩
    cases hm with
    | life hl _ _ =>
      rcases qpStep_destroyed hl hd with hs' | ⟨hlast, ⟨out, rfl⟩, _⟩
      · exact absurd (qpRingsStep_move hs) (destroyed_stuck hi hq hs')
      · rw [hleft]
        exact ⟨fun hn => ⟨hok, fun _ => hn⟩, fun hr => hr.2 hlast⟩
    | drain _ _ | post _ _ | poster _ =>
      exact absurd (qpRingsStep_move hs) (destroyed_stuck hi hq hd)
  · refine ⟨fun _ => ?_, fun _ hd' => absurd hd' hd⟩
    cases hm with
    | @life a life hl _ _ =>
      cases a with
      | call out =>
        refine ⟨hok, fun hlast => ?_⟩
        simp only [qpStep, hlast, destroyStep, Option.some.injEq] at hl
        exact absurd (by rw [← hl]) hd
      | _ => trivial
    | _ => trivial

end

/-- The page maps of a QP are all freed as long as its rings hold no WQE with one when the QP is
released, and then only. -/
theorem reach_mapsFreed (p : SciIf) (cfg : QpCfg) (lQpn : UInt32) (s : QpRings)
    (h : Reach (QpRingsInit lQpn) (Acts (qpRingsStep p cfg) RingsDrained) s) :
    s.MapsFreed ∧ ∀ a t, RingsOnce s a → qpRingsStep p cfg s a = some t →
      (t.MapsFreed ↔ RingsDrained s a) := by
  refine ⟨?_, fun a t hok hs => mapsFreed_next (reach_once h) hok hs⟩
  apply h.invariant
  · rintro s ⟨hlife, _, _⟩ hd
    rw [hlife] at hd
    simp [newQp] at hd
  · rintro s t hr _ ⟨a, hok, hs⟩
    exact (mapsFreed_next (reach_once hr) hok.once hs).mpr hok

instance (s : WqState) : Decidable s.NoneLarge :=
  inferInstanceAs (Decidable (∀ e ∈ s.posted.drop s.retired.length, ¬ e.req.Large))

/-- `RingsDrained`, as a test of the state before the step. -/
def ringsDrained (s : QpRings) : QpRingsAct → Bool
  | .life (.call out) => startsOnce s.life (.call out) &&
      match s.life.call with
      | .destroy .sq .done => decide ((s.ring .sq).NoneLarge ∧ (s.ring .rq).NoneLarge)
      | _ => true
  | _ => true

theorem ringsDrained_sound (s : QpRings) (a : QpRingsAct) (h : ringsDrained s a = true) :
    RingsDrained s a := by
  cases a with
  | life a =>
    cases a with
    | call out =>
      obtain ⟨hstart, hlast⟩ := Bool.and_eq_true_iff.mp h
      refine ⟨startsOnce_sound _ _ hstart, fun hd type => ?_⟩
      simp only [hd, decide_eq_true_eq] at hlast
      cases type with
      | sq => exact hlast.1
      | rq => exact hlast.2
    | _ => trivial
  | _ => trivial

def twoSlotQp : QpCfg := ⟨sciLib64, fun _ => twoSlots, 1, fun | .sq => 2 | .rq => 3⟩

def freshRings : QpRings := ⟨newQp 100, fun _ => freshWq, fun _ _ => .top⟩

theorem freshRings_init : QpRingsInit 100 freshRings :=
  ⟨newQp_init 100, fun _ => freshWq_init, fun _ _ => rfl⟩

/-- To RTR, the workers connect, and a large WR is posted to the SQ. -/
def postLargeActs : List QpRingsAct :=
  (rtrActs 100 ++ taskActs .rq 0 3 ++ taskActs .sq 0 3).map .life ++
    .post .sq ⟨twoPageTable, largeWr⟩ :: List.replicate 30 (.poster .sq (some fun _ => default))

/-- The QP is destroyed; the SQ's worker takes `n` steps to end. -/
def destroyRingsActs (n : Nat) : List QpRingsAct :=
  (.destroy :: exitActs .rq 0 3 ++ exitActs .sq 0 n).map .life

/-- The SQ's worker sends the WR and waits for the next one when the QP is destroyed. -/
def sentActs : List QpRingsAct :=
  postLargeActs ++ [.life (.task .sq 0 fineEnv)] ++ List.replicate 11 (.drain .sq 0 (some 0)) ++
    destroyRingsActs 4

def sentRings : QpRings :=
  afterChecked (qpRingsStep initiatorIf twoSlotQp) ringsDrained freshRings sentActs

theorem reach_mapsFreed_sent : sentRings.life.call = .destroyed ∧ (sentRings.ring .sq).fresh = 1 ∧
    sentRings.MapsFreed :=
  ⟨by rfl, by decide, (reach_mapsFreed initiatorIf twoSlotQp 100 sentRings
    (reach_afterChecked ringsDrained_sound (reach_start freshRings_init) sentActs)).1⟩

def unsentRings : QpRings :=
  afterActs (qpRingsStep initiatorIf twoSlotQp) freshRings (postLargeActs ++ destroyRingsActs 3)

/-- The post was accepted, and the worker stopped before it came to it. -/
theorem unsent_leaks :
    Reach (QpRingsInit 100) (Acts (qpRingsStep initiatorIf twoSlotQp) anyAct) unsentRings ∧
      unsentRings.life.call = .destroyed ∧ (unsentRings.ring .sq).rets = [0] ∧
      (unsentRings.ring .sq).fresh = 1 ∧ (unsentRings.ring .sq).frees = [] ∧
      ¬ unsentRings.MapsFreed := by
  have hd : unsentRings.life.call = .destroyed := by rfl
  have hfresh : (unsentRings.ring .sq).fresh = 1 := by decide
  have hfrees : (unsentRings.ring .sq).frees = [] := by decide
  refine ⟨reach_afterActs freshRings_init _, hd, by decide, hfresh, hfrees, fun h => ?_⟩
  have hmem := h hd .sq 0 (by rw [hfresh]; decide)
  rw [hfrees] at hmem
  simp at hmem

end DisKverbs
