import DisKverbs.Device
import DisKverbs.QpStates

namespace DisKverbs

open StepSystem

/-- What came of the numbers of a QP: those its queues were moved to RTR under, and the local
ids that each of its threads has created or connected a message queue with. -/
structure QpMsq where
  under : DisWqType → List UInt32
  used : DisWqType → Nat → List Int32

/-- The number a move to RTR puts a queue to work under: the QP's own if the mask has
`IB_QP_DEST_QPN`, and else the one that the queue has. -/
def QpLife.movesUnder (s : QpLife) (attrMask : UInt32) (type : DisWqType) : UInt32 :=
  if hasAttr attrMask ibQpDestQpn then s.lQpn else (s.qpns type).lQpn

def QpMsq.move (m : QpMsq) (s : QpLife) (attrMask : UInt32) : QpMsq :=
  { m with under := fun type => s.movesUnder attrMask type :: m.under type }

def QpMsq.use (m : QpMsq) (type : DisWqType) (k : Nat) (id : Int32) : QpMsq :=
  { m with
    used := Function.update m.used type
      (Function.update (m.used type) k (m.used type k ++ [id])) }

/-- The next access of the thread is a call of `dis_wq_init`. -/
def Task.calls (t : Task) : Bool := decide (t.pc = .connect) && !t.shouldStop

/-- The numbers of a queue are read when its worker makes the call. -/
def noteMsq (p : SciIf) (s : QpLife) (a : QpAct) (m : QpMsq) : QpMsq :=
  match a with
  | .modify attr attrMask => if attr.asks attrMask .rtr then m.move s attrMask else m
  | .task type k _ =>
    if ((s.wq type).tasks k).calls then m.use type k (msqArgs p type (s.qpns type)).lMsqId else m
  | _ => m

/-- A queue has a worker or may be given one by the call under way. -/
def QpLife.AtWork (s : QpLife) (type : DisWqType) : Prop :=
  (∃ k, ((s.wq type).tasks k).pc.alive) ∨ s.call.toRtr

/-- What the numbers have to do with the place of `dis_modify_qp`. -/
def ModifyPc.Numbers (s : QpLife) (m : QpMsq) (attr : IbQpAttr) (attrMask : UInt32) :
    ModifyPc → Prop
  | .entry => attr.asks attrMask .rtr = true →
      ∀ type, s.movesUnder attrMask type ∈ m.under type
  | .rQpn | .rqLQpn => ∀ type, s.lQpn ∈ m.under type
  | .rqRQpn | .sqLQpn => (∀ type, s.lQpn ∈ m.under type) ∧ (s.qpns .rq).lQpn ∈ m.under .rq
  | .setState => True
  | _ => ∀ type, (s.qpns type).lQpn ∈ m.under type

/-- A queue whose worker was made works under a number that it was moved to RTR under, and so
did every call that its workers have made. -/
structure MsqInv (p : SciIf) (s : QpLife) (m : QpMsq) : Prop where
  call : ∀ attr attrMask pc, s.call = .modify attr attrMask pc → pc.Numbers s m attr attrMask
  made : ∀ type k, ((s.wq type).tasks k).pc ≠ .absent → (s.qpns type).lQpn ∈ m.under type
  used : ∀ type k, ∀ id ∈ m.used type k, ∃ n ∈ m.under type,
    id = msqId (oddEnd p type) n.toInt32

section

variable {p : SciIf} {s t : QpLife} {m : QpMsq} {a : QpAct}

theorem alive_of_wake {q q' : LifeQueue} {i j : Nat} (h : (q'.tasks j).pc = (q.tasks j).pc ∨
    j = i ∧ (q.tasks i).pc = .created ∧ (q'.tasks j).pc = .woken) (ha : (q'.tasks j).pc.alive) :
    (q.tasks j).pc.alive := by
  rcases h with he | ⟨rfl, hc, _⟩
  · rwa [he] at ha
  · rw [hc]
    decide

/-- What holds of a thread's place after a change of one queue held of it before, if this is so
for the threads of that queue. -/
theorem setWq_task {P : TaskPc → Prop} {type : DisWqType} {q : LifeQueue} {k : Nat}
    (h : P (q.tasks k).pc → P ((s.wq type).tasks k).pc) (type' : DisWqType)
    (hp : P (((s.setWq type q).wq type').tasks k).pc) : P ((s.wq type').tasks k).pc := by
  revert hp
  exact setWq_forall (P := fun type' q => P (q.tasks k).pc → P ((s.wq type').tasks k).pc) h
    (fun _ _ => id) type'

/-- A queue comes to work only by a call that is asked to move its QP to RTR. -/
theorem qpStep_atWork {type : DisWqType} (hs : qpStep p s a = some t) (hw : t.AtWork type) :
    s.AtWork type ∨ asksRtr a = true := by
  rcases hw with ⟨k, hk⟩ | hr
  · cases qpStep_move hs with
    | quiet hsame =>
      refine .inl (.inl ⟨k, ?_⟩)
      rwa [(hsame type).2.2.1] at hk
    | init hc =>
      have hr : s.call.toRtr := by rw [hc]; trivial
      exact .inl (.inr hr)
    | @exit _ type' pc r _ hx =>
      refine .inl (.inl ⟨k, setWq_task (fun ha => ?_) type hk⟩)
      rcases qpExitStep_life hx with he | ⟨i, _, he, _⟩
      · rwa [he] at ha
      · rw [he] at ha
        exact alive_of_wake (stop_pc _ i k) ha
    | @task type' i env q hq =>
      have hm := taskStep_move hq
      refine .inl (.inl ⟨k, setWq_task (fun ha => ?_) type hk⟩)
      by_cases hki : k = i
      · rw [hki]
        exact hm.alive
      · rwa [hm.frame.2.2.2 k hki] at ha
  · exact (qpStep_toRtr hs hr).imp_left .inr

theorem noteMsq_under {type : DisWqType} {n : UInt32} (h : n ∈ m.under type) :
    n ∈ (noteMsq p s a m).under type := by
  unfold noteMsq
  split
  · split
    · exact List.mem_cons_of_mem _ h
    · exact h
  · split <;> exact h
  · exact h

/-- Numbers are noted only when a move to RTR is asked for. -/
theorem noteMsq_asked (h : asksRtr a = false) : (noteMsq p s a m).under = m.under := by
  unfold noteMsq
  split
  next attr attrMask =>
    have hask : ¬ attr.asks attrMask .rtr = true := by simpa [asksRtr] using h
    rw [if_neg hask]
  next => split <;> rfl
  next => rfl

theorem noteMsq_move (h : asksRtr a = true) : ∃ attr attrMask, a = .modify attr attrMask ∧
    attr.asks attrMask .rtr = true ∧ noteMsq p s a m = m.move s attrMask := by
  cases a with
  | modify attr attrMask => exact ⟨attr, attrMask, rfl, h, if_pos h⟩
  | _ => cases h

/-- A number is noted when a move to RTR under it is asked for. -/
theorem noteMsq_mem {type : DisWqType} {n : UInt32} (h : n ∈ (noteMsq p s a m).under type) :
    n ∈ m.under type ∨ ∃ attr attrMask, a = .modify attr attrMask ∧
      attr.asks attrMask .rtr = true ∧ n = s.movesUnder attrMask type := by
  cases hask : asksRtr a with
  | false => exact .inl (by rwa [noteMsq_asked hask] at h)
  | true =>
    obtain ⟨attr, attrMask, ha, hr, hm⟩ := noteMsq_move (p := p) (s := s) (m := m) hask
    rw [hm] at h
    rcases List.mem_cons.mp h with hn | hn
    · exact .inr ⟨attr, attrMask, ha, hr, hn⟩
    · exact .inl hn

/-- A step that leaves the record alone. -/
theorem MsqInv.keep (hi : MsqInv p s m)
    (hc : ∀ attr attrMask pc, t.call = .modify attr attrMask pc → pc.Numbers t m attr attrMask)
    (hm : ∀ type k, ((t.wq type).tasks k).pc ≠ .absent →
      (t.qpns type).lQpn ∈ m.under type) : MsqInv p t m := ⟨hc, hm, hi.used⟩

theorem afterQpns_numbers {attr : IbQpAttr} {attrMask : UInt32}
    (h : ∀ type, (t.qpns type).lQpn ∈ m.under type) :
    (ModifyPc.afterQpns attrMask).Numbers t m attr attrMask := by
  unfold ModifyPc.afterQpns
  split
  next => exact h
  next => exact h

/-- A step of `dis_modify_qp` that makes no thread. -/
theorem MsqInv.modified (hi : MsqInv p s m) {attr : IbQpAttr} {attrMask : UInt32} {pc : ModifyPc}
    (hc : t.call = .modify attr attrMask pc) (hpc : pc.Numbers t m attr attrMask)
    (hw : ∀ type, SameLife (s.wq type) (t.wq type))
    (hq : ∀ type, (t.qpns type).lQpn = (s.qpns type).lQpn ∨ (t.qpns type).lQpn ∈ m.under type) :
    MsqInv p t m := by
  refine hi.keep (fun attr' attrMask' pc' hc' => ?_) fun type k hk => ?_
  · rw [hc] at hc'
    cases hc'
    exact hpc
  · rw [(hw type).2.2.1] at hk
    rcases hq type with hq | hq
    · rw [hq]
      exact hi.made type k hk
    · exact hq

theorem MsqInv.modify (hi : MsqInv p s m) {attr : IbQpAttr} {attrMask : UInt32} {pc : ModifyPc}
    {out : KthreadCreate} (hc : s.call = .modify attr attrMask pc)
    (hm : modifyStep out attr attrMask s pc = some t) : MsqInv p t m := by
  have same (type : DisWqType) : SameLife (s.wq type) (s.wq type) := sameLife_refl _
  have hnum := hi.call attr attrMask pc hc
  have entry (hst : hasAttr attrMask ibQpState = true) (hrtr : attr.qpState = .rtr)
      (hpc : pc = .entry) (type : DisWqType) : s.movesUnder attrMask type ∈ m.under type := by
    subst hpc
    exact hnum (by simp [IbQpAttr.asks, hst, hrtr]) type
  cases modifyStep_access hm with
  | direct | ready => exact hi.modified rfl trivial same fun _ => .inl rfl
  | number hst hrtr hd =>
    refine hi.modified rfl (fun type => ?_) same fun _ => .inl rfl
    simpa [QpLife.movesUnder, hd] using entry hst hrtr rfl type
  | unnumbered hst hrtr hd =>
    have hall : ∀ type, (s.qpns type).lQpn ∈ m.under type := by
      intro type
      simpa [QpLife.movesUnder, hd] using entry hst hrtr rfl type
    exact hi.modified rfl (afterQpns_numbers hall) same fun _ => .inl rfl
  | back | setState => exact hi.keep (by simp [QpLife.ret]) hi.made
  | rQpn | mtu | initSq => exact hi.modified rfl hnum same fun _ => .inl rfl
  | rqLQpn =>
    have hrq : ((s.setLQpn .rq).qpns .rq).lQpn ∈ m.under .rq := by
      rw [setLQpn_lQpn]
      exact hnum .rq
    have hone : ∀ type, ((s.setLQpn .rq).qpns type).lQpn = (s.qpns type).lQpn ∨
        ((s.setLQpn .rq).qpns type).lQpn ∈ m.under type := by
      intro type
      rw [setLQpn_lQpn]
      split
      · exact .inr (hnum type)
      · exact .inl rfl
    exact hi.modified rfl ⟨hnum, hrq⟩ (setWq_sameLife (same _)) hone
  | rqRQpn =>
    refine hi.modified rfl ⟨hnum.1, ?_⟩ (setWq_sameLife (same _)) fun type => .inl ?_
    · exact (setRQpn_lQpn s .rq .rq) ▸ hnum.2
    · exact setRQpn_lQpn s .rq type
  | sqLQpn =>
    have hall : ∀ type, ((s.setLQpn .sq).qpns type).lQpn ∈ m.under type := by
      intro type
      rw [setLQpn_lQpn]
      cases type with
      | rq => exact hnum.2
      | sq => exact hnum.1 .sq
    exact hi.modified rfl hall (setWq_sameLife (same _)) fun type => .inr (hall type)
  | sqRQpn =>
    have hall : ∀ type, ((s.setRQpn .sq).qpns type).lQpn ∈ m.under type := by
      intro type
      rw [setRQpn_lQpn]
      exact hnum type
    exact hi.modified rfl (afterQpns_numbers hall) (setWq_sameLife (same _))
      fun type => .inr (hall type)
  | rqMtu | sqMtu =>
    have hall : ∀ kind type, ((s.setMtu kind).qpns type).lQpn ∈ m.under type := by
      intro kind type
      rw [setMtu_qpns]
      exact hnum type
    exact hi.modified rfl (hall _) (setWq_sameLife (same _)) fun type => .inr (hall _ type)
  | @init type pc' r hq =>
    have hqpns : (s.setWq type r.1).qpns = s.qpns := setWq_qpns (qpInitStep_qpn hq)
    have hall : ∀ type', ((s.setWq type r.1).qpns type').lQpn ∈ m.under type' := by
      intro type'
      rw [hqpns]
      exact hnum type'
    refine hi.keep (fun attr' attrMask' pc' hc' => ?_) fun type' _ _ => hall type'
    cases hc'
    exact hall

theorem ModifyPc.Numbers.same {pc : ModifyPc} {attr : IbQpAttr} {attrMask : UInt32}
    (h : pc.Numbers s m attr attrMask) (hl : t.lQpn = s.lQpn) (hq : t.qpns = s.qpns) :
    pc.Numbers t m attr attrMask := by
  have hmove : t.movesUnder = s.movesUnder := by
    funext attrMask type
    rw [QpLife.movesUnder, QpLife.movesUnder, hl, hq]
  cases pc with
  | setState => trivial
  | _ => simpa only [ModifyPc.Numbers, hl, hq, hmove] using h

/-- A call of `dis_wq_init` takes its ids from a number that the queue was moved under. -/
theorem MsqInv.use (hi : MsqInv p s m) {type : DisWqType} (k : Nat)
    (hn : (s.qpns type).lQpn ∈ m.under type) :
    MsqInv p s (m.use type k (msqArgs p type (s.qpns type)).lMsqId) := by
  refine ⟨hi.call, hi.made, fun type' k' id hid => ?_⟩
  by_cases ht : type' = type
  · subst ht
    by_cases hk : k' = k
    · subst hk
      simp only [QpMsq.use, Function.update_self, List.mem_append, List.mem_singleton] at hid
      rcases hid with hid | rfl
      · exact hi.used type' k' id hid
      · exact ⟨_, hn, msqArgs_local⟩
    · exact hi.used type' k' id (by simpa [QpMsq.use, hk] using hid)
  · exact hi.used type' k' id (by simpa [QpMsq.use, ht] using hid)

theorem MsqInv.asked (hi : MsqInv p s m) (attr : IbQpAttr)
    (attrMask : UInt32) : MsqInv p { s with call := .modify attr attrMask .entry }
      (noteMsq p s (.modify attr attrMask) m) := by
  refine ⟨fun attr' attrMask' pc hc => ?_, fun type k hk => noteMsq_under (hi.made type k hk),
    fun type k id hid => ?_⟩
  · cases hc
    intro hask type
    rw [noteMsq, if_pos hask]
    exact List.mem_cons_self
  · have hused : (noteMsq p s (.modify attr attrMask) m).used = m.used := by
      simp only [noteMsq]
      split <;> rfl
    rw [hused] at hid
    obtain ⟨n, hn, he⟩ := hi.used type k id hid
    exact ⟨n, noteMsq_under hn, he⟩

theorem MsqInv.step (hi : MsqInv p s m) (hs : qpStep p s a = some t) :
    MsqInv p t (noteMsq p s a m) := by
  cases qpStep_access hs with
  | modify => exact hi.asked _ _
  | destroy => exact hi.keep (by simp) hi.made
  | inModify hc hm => exact hi.modify hc hm
  | inDestroy hc hd =>
    obtain ⟨hne, _, _, _, hq, ht⟩ := destroyStep_call hd
    refine hi.keep (fun attr attrMask pc he => absurd he (hne attr attrMask pc)) fun type k hk => ?_
    rw [hq]
    exact hi.made type k (ht type k hk)
  | @task type i env q hq =>
    have hm := taskStep_move hq
    obtain ⟨_, _, hqpn, ho⟩ := hm.frame
    have hqpns : (s.setWq type q).qpns = s.qpns := setWq_qpns hqpn
    have hnum : (s.qpns type).lQpn ∈ m.under type := hi.made type i hm.present
    have hmade : ∀ type' k, (((s.setWq type q).wq type').tasks k).pc ≠ .absent →
        ((s.wq type').tasks k).pc ≠ .absent := by
      intro type' k
      refine setWq_task (P := fun pc => pc ≠ .absent) (fun hk => ?_) type'
      by_cases hki : k = i
      · rw [hki]
        exact hm.present
      · rwa [ho k hki] at hk
    have hi' : MsqInv p (s.setWq type q) m := by
      refine hi.keep (fun attr attrMask pc he => ?_) fun type' k hk => ?_
      · exact (hi.call attr attrMask pc he).same rfl hqpns
      · rw [hqpns]
        exact hi.made type' k (hmade type' k hk)
    simp only [noteMsq]
    split
    · rw [← hqpns] at hnum ⊢
      exact hi'.use i hnum
    · exact hi'

end

end DisKverbs
