import DisKverbs.OneWorker

namespace DisKverbs

open StepSystem

/-- What the calls on a QP came to: the queues on which `dis_qp_init` returned success, and
whether RTR was ever asked for and whether such a call returned 0. -/
structure QpHistory where
  inited : DisWqType → Bool
  rtrAsked : Bool
  rtrDone : Bool

abbrev TrackedQp := QpLife × QpHistory

/-- The call stores a state in the QP, unless it fails. -/
def IbQpAttr.asks (attr : IbQpAttr) (attrMask : UInt32) (state : IbQpState) : Bool :=
  hasAttr attrMask ibQpState && decide (attr.qpState = state)

/-- The step is the return of success from a call of `dis_qp_init` on the queue. -/
def initSucceeds (s : QpLife) : QpAct → DisWqType → Bool
  | .call out, type =>
    match s.call with
    | .modify _ _ (.init type' pc) =>
      decide (type' = type ∧ (qpInitStep out (s.wq type) pc).map Prod.snd = some (.ret 0))
    | _ => false
  | _, _ => false

def asksRtr : QpAct → Bool
  | .modify attr attrMask => attr.asks attrMask .rtr
  | _ => false

/-- The step is the return of 0 from a call to RTR. -/
def rtrSucceeds (s : QpLife) : QpAct → Bool
  | .call _ =>
    match s.call with
    | .modify attr _ .setState => decide (attr.qpState = .rtr)
    | _ => false
  | _ => false

def noteCall (s : QpLife) (a : QpAct) (h : QpHistory) : QpHistory :=
  { inited := fun type => h.inited type || initSucceeds s a type
    rtrAsked := h.rtrAsked || asksRtr a
    rtrDone := h.rtrDone || rtrSucceeds s a }

def trackStep (p : SciIf) : TrackedQp → QpAct → Option TrackedQp := recording (qpStep p) noteCall

def newTracked (lQpn : UInt32) : TrackedQp := (newQp lQpn, ⟨fun _ => false, false, false⟩)

def TrackInit (lQpn : UInt32) (x : TrackedQp) : Prop := x = newTracked lQpn

/-- What `qp->state` says of the workers: in RTR and RTS both queues have been initialised, and a
QP in RESET has no worker. -/
structure StateHolds (x : TrackedQp) : Prop where
  ready : x.1.state = .rtr ∨ x.1.state = .rts → ∀ type, x.2.inited type = true
  reset : x.1.state = .reset → ∀ type, (x.1.wq type).Idle

/-- A call of `dis_modify_qp` is under way. -/
def QpCall.modifying : QpCall → Prop
  | .modify .. => True
  | _ => False

/-- RTS is asked for only after a call to RTR that returned 0, and RESET only before every call
to RTR. -/
def InOrder (x : TrackedQp) : QpAct → Prop
  | .modify attr attrMask => (attr.asks attrMask .rts = true → x.2.rtrDone = true) ∧
      (attr.asks attrMask .reset = true → x.2.rtrAsked = false)
  | _ => True

/-- RTR is asked for only when the QP has left RESET. -/
def LeftReset (x : TrackedQp) : QpAct → Prop
  | .modify attr attrMask => attr.asks attrMask .rtr = true → x.1.state ≠ .reset
  | _ => True

/-- `kthread_create` does not answer NULL for the SQ of a QP in RESET. -/
def SqThread (x : TrackedQp) : QpAct → Prop
  | .call .null => ∀ attr attrMask, x.1.call = .modify attr attrMask (.init .sq .create) →
      x.1.state ≠ .reset
  | _ => True

/-- A queue for which no thread was made. -/
structure LifeQueue.Unused (q : LifeQueue) : Prop where
  state : q.wqState ≠ .exited
  idle : q.Idle
  thread : q.thread = .null

/-- The places at which a QP in RESET may have a worker on a queue. -/
def QpCall.staffs : QpCall → DisWqType → Prop
  | .modify _ _ (.init .rq pc), type => type = .rq ∧ (pc = .wake ∨ pc = .ret 0)
  | .modify _ _ (.init .sq pc), type => type = .rq ∨ pc = .wake ∨ pc = .ret 0
  | .modify attr _ .setState, _ => attr.qpState = .rtr
  | _, _ => False

/-- The call under way is one to RTR and its `dis_qp_init` has succeeded on a queue. -/
def QpCall.started : QpCall → DisWqType → Prop
  | .modify _ _ (.init .rq pc), type => type = .rq ∧ pc = .ret 0
  | .modify _ _ (.init .sq pc), type => type = .rq ∨ pc = .ret 0
  | .modify attr _ .setState, _ => attr.qpState = .rtr
  | _, _ => False

/-- `dis_qp_init` does not fail on the SQ. -/
def QpCall.sqFine : QpCall → Prop
  | .modify _ _ (.init .sq .undo) => False
  | .modify _ _ (.init .sq (.ret ret)) => ret = 0
  | _ => True

/-- The call is one that the condition on the calls admits. -/
structure Admitted (h : QpHistory) (attr : IbQpAttr) : Prop where
  rtr : attr.qpState = .rtr → h.rtrAsked = true
  rts : attr.qpState = .rts → h.rtrDone = true
  reset : attr.qpState = .reset → h.rtrAsked = false

/-- Only a call to RTR comes to the places between its first test and its store of the state. -/
def QpCall.Told (h : QpHistory) : QpCall → Prop
  | .modify attr attrMask .entry => hasAttr attrMask ibQpState = true → Admitted h attr
  | .modify attr _ .setState => Admitted h attr
  | .modify attr _ _ => attr.qpState = .rtr ∧ h.rtrAsked = true
  | _ => True

/-- The call under way moves the QP to RTR, unless it fails. -/
def QpCall.toRtr : QpCall → Prop
  | .modify attr attrMask .entry => attr.asks attrMask .rtr = true
  | .modify attr _ .setState => attr.qpState = .rtr
  | .modify .. => True
  | _ => False

structure TrackInv (x : TrackedQp) : Prop where
  ready : x.1.state = .rtr ∨ x.1.state = .rts → ∀ type, x.2.inited type = true
  done : x.2.rtrDone = true → ∀ type, x.2.inited type = true
  told : x.1.call.Told x.2
  started : ∀ type, x.1.call.started type → x.2.inited type = true
  unused : x.1.state = .reset ∨ x.2.rtrAsked = false →
    ∀ type, ¬ x.1.call.staffs type → (x.1.wq type).Unused
  sqFine : x.1.state = .reset → x.1.call.sqFine

section

variable {p : SciIf} {s t : QpLife} {h : QpHistory} {a : QpAct} {out : KthreadCreate}
  {attr : IbQpAttr} {attrMask : UInt32} {q q' : LifeQueue}

theorem noteCall_grows {type : DisWqType} (hi : h.inited type = true) :
    (noteCall s a h).inited type = true := by
  simp [noteCall, hi]

theorem noteCall_init {type : DisWqType} {pc : QpInitPc} {r : LifeQueue × QpInitPc}
    (hc : s.call = .modify attr attrMask (.init type pc))
    (hs : qpInitStep out (s.wq type) pc = some r) (hr : r.2 = .ret 0) :
    (noteCall s (.call out) h).inited type = true := by
  simp [noteCall, initSucceeds, hc, hs, hr]

@[simp] theorem noteCall_asked (s : QpLife) (out : KthreadCreate) (h : QpHistory) :
    (noteCall s (.call out) h).rtrAsked = h.rtrAsked := by
  simp [noteCall, asksRtr]

theorem Admitted.call (ha : Admitted h attr) : Admitted (noteCall s (.call out) h) attr := by
  refine ⟨fun hs => ?_, fun hs => ?_, fun hs => ?_⟩
  · rw [noteCall_asked]
    exact ha.rtr hs
  · simp [noteCall, ha.rts hs]
  · rw [noteCall_asked]
    exact ha.reset hs

theorem LifeQueue.Unused.same (hu : q.Unused) (hq : SameLife q q') : q'.Unused := by
  refine ⟨?_, hu.idle.same hq, ?_⟩
  · rw [hq.1]
    exact hu.state
  · rw [hq.2.1]
    exact hu.thread

/-- `dis_qp_init` makes no thread before it comes to wake one. -/
theorem LifeQueue.Unused.init {pc : QpInitPc} {r : LifeQueue × QpInitPc} (hu : q.Unused)
    (hs : qpInitStep out q pc = some r) (hw : r.2 ≠ .wake) (hr : r.2 ≠ .ret 0) : r.1.Unused := by
  cases qpInitStep_move hs with
  | refused | free => exact hu
  | claim | undo => exact ⟨by simp, hu.idle, hu.thread⟩
  | thread | errPtr => exact absurd rfl hw
  | null => exact ⟨hu.state, hu.idle, rfl⟩
  | wake => exact absurd rfl hr

/-- `dis_qp_init` does not fail on a queue without a thread for which one can be made. -/
theorem qpInitStep_fine {pc : QpInitPc} {r : LifeQueue × QpInitPc}
    (hu : pc = .testState → q.Unused) (hnull : pc = .create → out ≠ .null) (hundo : pc ≠ .undo)
    (hs : qpInitStep out q pc = some r) : r.2 ≠ .undo ∧ ∀ ret, r.2 = .ret ret → ret = 0 := by
  cases qpInitStep_move hs with
  | refused hx => exact absurd hx (hu rfl).state
  | null =>
    have hout : out = .null := by
      cases out with
      | null => rfl
      | _ => simp [qpInitStep] at hs
    exact absurd hout (hnull rfl)
  | undo => exact absurd rfl hundo
  | wake => exact ⟨by simp, fun ret hr => (QpInitPc.ret.inj hr).symm⟩
  | _ => exact ⟨by simp, by simp⟩

/-- `dis_modify_qp` after one of its calls of `dis_qp_init` has returned. -/
theorem modifyStep_ret {type : DisWqType} {ret : Int}
    (h : modifyStep out attr attrMask s (.init type (.ret ret)) = some t) :
    (ret ≠ 0 ∧ t = s.ret (-42)) ∨
      (ret = 0 ∧ type = .rq ∧ t = { s with call := .modify attr attrMask (.init .sq .testState) }) ∨
      (ret = 0 ∧ type = .sq ∧ t = { s with call := .modify attr attrMask .setState }) := by
  by_cases hr : ret = 0
  · subst hr
    cases type with
    | rq => cases Option.some.inj h; exact .inr (.inl ⟨rfl, rfl, rfl⟩)
    | sq => cases Option.some.inj h; exact .inr (.inr ⟨rfl, rfl, rfl⟩)
  · have hfail : modifyStep out attr attrMask s (.init type (.ret ret)) = some (s.ret (-42)) :=
      if_pos hr
    exact .inl ⟨hr, Option.some.inj (h.symm.trans hfail)⟩

/-- A step of `dis_destroy_qp` gives no thread to a queue that has none. -/
theorem destroyStep_unused {type : DisWqType} {pc : QpExitPc}
    (h : destroyStep s type pc = some t) :
    t.state = s.state ∧ (t.call = .destroyed ∨ ∃ type' pc', t.call = .destroy type' pc') ∧
      ∀ type', (s.wq type').Unused → (t.wq type').Unused := by
  unfold destroyStep at h
  split at h
  next => cases Option.some.inj h; exact ⟨rfl, .inr ⟨_, _, rfl⟩, fun _ => id⟩
  next => cases Option.some.inj h; exact ⟨rfl, .inl rfl, fun _ => id⟩
  next =>
    obtain ⟨r, hr, rfl⟩ := Option.map_eq_some_iff.mp h
    refine ⟨rfl, .inr ⟨_, _, rfl⟩, ?_⟩
    refine setWq_forall (P := fun type' q => (s.wq type').Unused → q.Unused) (fun hu => ?_)
      fun _ _ => id
    rcases qpExitStep_life hr with he | ⟨i, ht, _⟩
    · rw [he]
      exact hu
    · rw [hu.thread] at ht
      cases ht

theorem afterQpns_told (hr : attr.qpState = .rtr) (ha : h.rtrAsked = true) :
    (QpCall.modify attr attrMask (.afterQpns attrMask)).Told h := by
  unfold ModifyPc.afterQpns
  split
  next => exact ⟨hr, ha⟩
  next => exact ⟨hr, ha⟩

theorem afterQpns_fresh (type : DisWqType) :
    ¬ (QpCall.modify attr attrMask (.afterQpns attrMask)).started type ∧
      (QpCall.modify attr attrMask (.afterQpns attrMask)).sqFine := by
  unfold ModifyPc.afterQpns
  split
  next => exact ⟨id, trivial⟩
  next => exact ⟨by simp [QpCall.started], trivial⟩

/-- `dis_qp_init` has succeeded on both queues when a call to RTR returns 0. -/
theorem TrackInv.doneNext (hi : TrackInv (s, h)) (hd : (noteCall s a h).rtrDone = true)
    (type : DisWqType) : (noteCall s a h).inited type = true := by
  apply noteCall_grows
  rcases Bool.or_eq_true_iff.mp hd with hd | hd
  · exact hi.done hd type
  · unfold rtrSucceeds at hd
    split at hd
    next =>
      split at hd
      next hc =>
        have hrtr := of_decide_eq_true hd
        exact hi.started type (by rw [hc]; exact hrtr)
      next => cases hd
    next => cases hd

/-- A step of `dis_modify_qp` before its first call of `dis_qp_init`. -/
theorem TrackInv.direct (hi : TrackInv (s, h)) (hs : ∀ type, ¬ s.call.staffs type)
    (hst : t.state = s.state) (hw : ∀ type, SameLife (s.wq type) (t.wq type))
    (htold : t.call.Told (noteCall s (.call out) h))
    (hstart : ∀ type, ¬ t.call.started type ∧ t.call.sqFine) :
    TrackInv (t, noteCall s (.call out) h) := by
  refine ⟨fun hr type => ?_, fun hd => hi.doneNext hd, htold, fun type hx => ?_,
    fun hr type _ => ?_, fun _ => (hstart .rq).2⟩
  · exact noteCall_grows (hi.ready (hst ▸ hr) type)
  · exact absurd hx (hstart type).1
  · rw [noteCall_asked] at hr
    exact (hi.unused (hst ▸ hr) type (hs type)).same (hw type)

/-- A return of `dis_modify_qp` that stores nothing. -/
theorem TrackInv.ret (hi : TrackInv (s, h)) (ret : Int)
    (hs : s.state = .reset ∨ h.rtrAsked = false → ∀ type, ¬ s.call.staffs type) :
    TrackInv (s.ret ret, noteCall s (.call out) h) := by
  refine ⟨fun hr type => noteCall_grows (hi.ready hr type), fun hd => hi.doneNext hd, trivial,
    fun _ hx => hx.elim, fun hr type _ => ?_, fun _ => trivial⟩
  rw [noteCall_asked] at hr
  exact hi.unused hr type (hs hr type)

section

variable {type : DisWqType} {pc : QpInitPc} {r : LifeQueue × QpInitPc}

theorem TrackInv.initStarted (hi : TrackInv (s, h))
    (hc : s.call = .modify attr attrMask (.init type pc))
    (hs : qpInitStep out (s.wq type) pc = some r) {type' : DisWqType}
    (hstart : (QpCall.modify attr attrMask (.init type r.2)).started type') :
    (noteCall s (.call out) h).inited type' = true := by
  cases type with
  | rq =>
    obtain ⟨rfl, hr⟩ := hstart
    exact noteCall_init hc hs hr
  | sq =>
    have hrq : h.inited .rq = true := hi.started .rq (by rw [hc]; exact .inl rfl)
    cases type' with
    | rq => exact noteCall_grows hrq
    | sq => exact noteCall_init hc hs (hstart.resolve_left (by simp))

theorem TrackInv.initUnused (hi : TrackInv (s, h))
    (hc : s.call = .modify attr attrMask (.init type pc))
    (hs : qpInitStep out (s.wq type) pc = some r)
    (hr : s.state = .reset ∨ h.rtrAsked = false) :
    ∀ type', ¬ (QpCall.modify attr attrMask (.init type r.2)).staffs type' →
      ((s.setWq type r.1).wq type').Unused := by
  have hpc : pc ≠ .wake ∧ pc ≠ .ret 0 ∨ r.2 = .ret 0 := by
    cases qpInitStep_move hs with
    | wake => exact .inr rfl
    | _ => exact .inl ⟨by simp, by simp⟩
  have hunused := hi.unused hr
  rw [hc] at hunused
  cases type with
  | rq =>
    refine setWq_forall (P := fun type' q => ¬ QpCall.staffs _ type' → q.Unused) ?_ ?_
    · intro hn
      have hw : r.2 ≠ .wake := fun he => hn ⟨rfl, .inl he⟩
      have hr0 : r.2 ≠ .ret 0 := fun he => hn ⟨rfl, .inr he⟩
      obtain ⟨hpw, hpr⟩ := hpc.resolve_right hr0
      exact (hunused .rq fun hx => hx.2.elim hpw hpr).init hs hw hr0
    · intro type' hne _
      exact hunused type' fun hx => hne hx.1
  | sq =>
    refine setWq_forall (P := fun type' q => ¬ QpCall.staffs _ type' → q.Unused) ?_ ?_
    · intro hn
      have hw : r.2 ≠ .wake := fun he => hn (.inr (.inl he))
      have hr0 : r.2 ≠ .ret 0 := fun he => hn (.inr (.inr he))
      obtain ⟨hpw, hpr⟩ := hpc.resolve_right hr0
      refine (hunused .sq fun hx => ?_).init hs hw hr0
      rcases hx with hx | hx | hx
      · cases hx
      · exact hpw hx
      · exact hpr hx
    · intro type' hne hn
      cases type' with
      | rq => exact absurd (.inl rfl) hn
      | sq => exact absurd rfl hne

/-- Where a thread can be made for the SQ, `dis_qp_init` does not fail on it in RESET. -/
theorem TrackInv.initFine (hi : TrackInv (s, h))
    (hc : s.call = .modify attr attrMask (.init type pc)) (hok : SqThread (s, h) (.call out))
    (hs : qpInitStep out (s.wq type) pc = some r) (hr : s.state = .reset) :
    (QpCall.modify attr attrMask (.init type r.2)).sqFine := by
  cases type with
  | rq => trivial
  | sq =>
    have hfine := hi.sqFine hr
    have hunused := hi.unused (.inl hr) .sq
    rw [hc] at hfine hunused
    have hnull : pc = .create → out ≠ .null := by
      intro he hn
      subst he hn
      exact hok attr attrMask hc hr
    have hnew := qpInitStep_fine (fun he => hunused (by rw [he]; simp [QpCall.staffs])) hnull
      (fun he => by rw [he] at hfine; exact hfine) hs
    obtain ⟨q, pc'⟩ := r
    cases pc' with
    | undo => exact absurd rfl hnew.1
    | ret ret => exact hnew.2 ret rfl
    | _ => trivial

theorem TrackInv.init (hi : TrackInv (s, h))
    (hc : s.call = .modify attr attrMask (.init type pc)) (hok : SqThread (s, h) (.call out))
    (hs : qpInitStep out (s.wq type) pc = some r) :
    TrackInv ({ s.setWq type r.1 with call := .modify attr attrMask (.init type r.2) },
      noteCall s (.call out) h) := by
  have htold : attr.qpState = .rtr ∧ h.rtrAsked = true := by
    have htold := hi.told
    rwa [hc] at htold
  refine ⟨fun hr type' => noteCall_grows (hi.ready hr type'), fun hd => hi.doneNext hd, ?_,
    fun type' => hi.initStarted hc hs, fun hr => ?_, hi.initFine hc hok hs⟩
  · exact ⟨htold.1, (noteCall_asked s out h).trans htold.2⟩
  · rw [noteCall_asked] at hr
    exact hi.initUnused hc hs hr

end

theorem TrackInv.modify (hi : TrackInv (s, h)) {pc : ModifyPc}
    (hc : s.call = .modify attr attrMask pc) (hok : SqThread (s, h) (.call out))
    (hm : modifyStep out attr attrMask s pc = some t) :
    TrackInv (t, noteCall s (.call out) h) := by
  have same (type : DisWqType) : SameLife (s.wq type) (s.wq type) := sameLife_refl _
  have htold := hi.told
  rw [hc] at htold
  by_cases hret : ∃ type ret, pc = .init type (.ret ret)
  · obtain ⟨type, ret, rfl⟩ := hret
    obtain ⟨hrtr, hasked⟩ := htold
    have htold' : attr.qpState = .rtr ∧ (noteCall s (.call out) h).rtrAsked = true :=
      ⟨hrtr, (noteCall_asked s out h).trans hasked⟩
    rcases modifyStep_ret hm with ⟨hne, rfl⟩ | ⟨rfl, rfl, rfl⟩ | ⟨rfl, rfl, rfl⟩
    · refine hi.ret _ fun hr type' => ?_
      rw [hc]
      cases type with
      | rq => simp [QpCall.staffs, hne]
      | sq =>
        -- it is not the SQ that fails in RESET
        rcases hr with hr | hr
        · have hfine := hi.sqFine hr
          rw [hc] at hfine
          exact absurd hfine hne
        · rw [hr] at hasked
          cases hasked
    · have hrq : h.inited .rq = true := hi.started .rq (by rw [hc]; exact ⟨rfl, rfl⟩)
      refine ⟨fun hr type => noteCall_grows (hi.ready hr type), fun hd => hi.doneNext hd, htold',
        ?_, fun hr type hn => ?_, fun _ => trivial⟩
      · intro type hstart
        have hname : type = .rq := by simpa [QpCall.started] using hstart
        rw [hname]
        exact noteCall_grows hrq
      · rw [noteCall_asked] at hr
        refine hi.unused hr type fun hx => ?_
        rw [hc] at hx
        exact hn (.inl hx.1)
    · have hall (type : DisWqType) : h.inited type = true :=
        hi.started type (by rw [hc]; exact .inr rfl)
      refine ⟨fun _ type => noteCall_grows (hall type), fun _ type => noteCall_grows (hall type),
        ?_, fun type _ => noteCall_grows (hall type), fun _ type hn => absurd hrtr hn,
        fun _ => trivial⟩
      exact ⟨fun _ => htold'.2, fun hx => by simp [hrtr] at hx, fun hx => by simp [hrtr] at hx⟩
  · cases modifyStep_access hm with
    | direct hst hne =>
      exact hi.direct (by rw [hc]; exact fun _ => id) rfl same (htold hst).call
        fun _ => ⟨hne, trivial⟩
    | number hst hrtr =>
      exact hi.direct (by rw [hc]; exact fun _ => id) rfl same
        ⟨hrtr, (htold hst).call.rtr hrtr⟩ fun _ => ⟨id, trivial⟩
    | rQpn | mtu =>
      exact hi.direct (by rw [hc]; exact fun _ => id) rfl same
        ⟨htold.1, (noteCall_asked s out h).trans htold.2⟩ fun _ => ⟨id, trivial⟩
    | unnumbered hst hrtr =>
      exact hi.direct (by rw [hc]; exact fun _ => id) rfl same
        (afterQpns_told hrtr ((htold hst).call.rtr hrtr)) afterQpns_fresh
    | back ret hp =>
      rcases hp with rfl | ⟨type, ret', rfl⟩
      · exact hi.ret ret fun _ => by rw [hc]; exact fun _ => id
      · exact absurd ⟨type, ret', rfl⟩ hret
    | rqLQpn | rqRQpn | sqLQpn | rqMtu =>
      exact hi.direct (by rw [hc]; exact fun _ => id) rfl (setWq_sameLife (same _))
        ⟨htold.1, (noteCall_asked s out h).trans htold.2⟩ fun _ => ⟨id, trivial⟩
    | sqRQpn =>
      exact hi.direct (by rw [hc]; exact fun _ => id) rfl (setWq_sameLife (same _))
        (afterQpns_told htold.1 ((noteCall_asked s out h).trans htold.2)) afterQpns_fresh
    | sqMtu =>
      exact hi.direct (by rw [hc]; exact fun _ => id) rfl (setWq_sameLife (same _))
        ⟨htold.1, (noteCall_asked s out h).trans htold.2⟩
        fun _ => ⟨by simp [QpCall.started], trivial⟩
    | init hq => exact hi.init hc hok hq
    | initSq | ready => exact absurd ⟨_, _, rfl⟩ hret
    | setState =>
      refine ⟨fun hs type => ?_, fun hd => hi.doneNext hd, trivial, fun _ hx => hx.elim,
        fun hs type _ => ?_, fun _ => trivial⟩
      · rcases hs with hs | hs
        · exact noteCall_grows (hi.started type (by rw [hc]; exact hs))
        · exact noteCall_grows (hi.done (htold.rts hs) type)
      · have hasked : h.rtrAsked = false := by
          rcases hs with hs | hs
          · exact htold.reset hs
          · rwa [noteCall_asked] at hs
        refine hi.unused (.inr hasked) type fun hx => ?_
        rw [hc] at hx
        rw [htold.rtr hx] at hasked
        cases hasked

theorem TrackInv.step (hi : TrackInv (s, h)) (hord : InOrder (s, h) a) (hok : SqThread (s, h) a)
    (hs : qpStep p s a = some t) : TrackInv (t, noteCall s a h) := by
  cases qpStep_access hs with
  | @modify attr attrMask hc =>
    refine ⟨fun hr type => noteCall_grows (hi.ready hr type), fun hd => hi.doneNext hd, ?_,
      fun _ hx => hx.elim, fun hr type _ => ?_, fun _ => trivial⟩
    · intro hst
      refine ⟨fun hq => ?_, fun hq => ?_, fun hq => ?_⟩
      · simp [noteCall, asksRtr, IbQpAttr.asks, hst, hq]
      · have hdone : h.rtrDone = true := hord.1 (by simp [IbQpAttr.asks, hst, hq])
        simp [noteCall, hdone]
      · have hasked : h.rtrAsked = false := hord.2 (by simp [IbQpAttr.asks, hst, hq])
        simp [noteCall, asksRtr, IbQpAttr.asks, hq, hasked]
    · refine hi.unused (hr.imp_right fun hr => ?_) type (by rw [hc]; exact id)
      exact (Bool.or_eq_false_iff.mp hr).1
  | destroy hc =>
    refine ⟨fun hr type => noteCall_grows (hi.ready hr type), fun hd => hi.doneNext hd, trivial,
      fun _ hx => hx.elim, fun hr type _ => ?_, fun _ => trivial⟩
    refine hi.unused (hr.imp_right fun hr => ?_) type (by rw [hc]; exact id)
    exact (Bool.or_eq_false_iff.mp hr).1
  | inModify hc hm => exact hi.modify hc hok hm
  | @inDestroy _ _ out _ hc hd =>
    obtain ⟨hst, hcall, hunused⟩ := destroyStep_unused hd
    have hend : t.call.Told (noteCall s (.call out) h) ∧ t.call.sqFine ∧
        ∀ type, ¬ t.call.started type := by
      rcases hcall with hcall | ⟨type', pc', hcall⟩
      · rw [hcall]
        exact ⟨trivial, trivial, fun _ => id⟩
      · rw [hcall]
        exact ⟨trivial, trivial, fun _ => id⟩
    obtain ⟨htold, hfine, hstart⟩ := hend
    refine ⟨fun hr type => noteCall_grows (hi.ready (hst ▸ hr) type), fun hd => hi.doneNext hd,
      htold, fun type hx => absurd hx (hstart type), fun hr type _ => ?_, fun _ => hfine⟩
    refine hunused type (hi.unused ?_ type (by rw [hc]; exact id))
    rw [← hst]
    exact hr.imp_right fun hr => (Bool.or_eq_false_iff.mp hr).1
  | @task type i env q hq =>
    have halive := (taskStep_move hq).alive
    refine ⟨fun hr type => noteCall_grows (hi.ready hr type), fun hd => hi.doneNext hd, ?_,
      fun type' hx => noteCall_grows (hi.started type' hx), fun hr type' hn => ?_, hi.sqFine⟩
    · have hsame : noteCall s (.task type i env) h = h := by
        simp [noteCall, initSucceeds, asksRtr, rtrSucceeds]
      rw [hsame]
      exact hi.told
    · have hunused := hi.unused (hr.imp_right fun hr => (Bool.or_eq_false_iff.mp hr).1)
      refine setWq_forall (P := fun type' q => ¬ s.call.staffs type' → q.Unused) ?_
        (fun type' _ => hunused type') type' hn
      -- a queue without a worker takes no step
      intro hn
      exact absurd halive ((hunused type hn).idle i)

theorem newTracked_inv (lQpn : UInt32) : TrackInv (newTracked lQpn) := by
  refine ⟨by simp [newTracked, newQp], by simp [newTracked], trivial, fun _ hx => hx.elim, ?_,
    fun _ => trivial⟩
  intro _ type _
  exact ⟨by simp [newTracked, newQp, zeroLife], fun i halive => halive.1 rfl, rfl⟩

theorem reach_trackInv {lQpn : UInt32} {x : TrackedQp} (hx : Reach (TrackInit lQpn)
    (Acts (trackStep p) fun y a => InOrder y a ∧ SqThread y a) x) : TrackInv x := by
  apply hx.invariant
  · rintro x rfl
    exact newTracked_inv lQpn
  · rintro x y _ hi ⟨a, ⟨hord, hok⟩, hs⟩
    obtain ⟨hq, hn⟩ := recording_some.mp hs
    have ht := hi.step hord hok hq
    rw [hn] at ht
    exact ht

theorem TrackInv.holds {x : TrackedQp} (hi : TrackInv x)
    (hn : x.1.state = .reset → ∀ type, ¬ x.1.call.staffs type) : StateHolds x :=
  ⟨hi.ready, fun hr type => (hi.unused (.inl hr) type (hn hr type)).idle⟩

/-- A call that may have given a queue its worker moves the QP to RTR. -/
theorem staffs_toRtr {call : QpCall} {type : DisWqType} (hs : call.staffs type) : call.toRtr := by
  cases call with
  | modify attr attrMask pc =>
    cases pc with
    | init => trivial
    | setState => exact hs
    | _ => exact hs.elim
  | _ => exact hs.elim

theorem modifyStep_toRtr {pc : ModifyPc} (hm : modifyStep out attr attrMask s pc = some t)
    (hr : t.call.toRtr) : (QpCall.modify attr attrMask pc).toRtr := by
  cases modifyStep_access hm with
  | direct _ hne => exact absurd hr hne
  | number hst hrtr | unnumbered hst hrtr => simp [QpCall.toRtr, IbQpAttr.asks, hst, hrtr]
  | back | setState => exact hr.elim
  | _ => trivial

/-- The QP keeps its state until a call stores it. -/
theorem qpStep_state (hs : qpStep p s a = some t) (hr : t.call.toRtr) : t.state = s.state := by
  cases qpStep_access hs with
  | inModify _ hm =>
    cases modifyStep_access hm with
    | setState => exact hr.elim
    | _ => rfl
  | inDestroy _ hd => exact (destroyStep_unused hd).1
  | _ => rfl

/-- Only a call that is asked to move the QP to RTR goes on to do so. -/
theorem qpStep_toRtr (hs : qpStep p s a = some t) (hr : t.call.toRtr) :
    s.call.toRtr ∨ asksRtr a = true := by
  cases qpStep_access hs with
  | modify => exact .inr hr
  | destroy => exact hr.elim
  | inModify hc hm => exact .inl (by rw [hc]; exact modifyStep_toRtr hm hr)
  | inDestroy _ hd =>
    rcases (destroyStep_unused hd).2.1 with hcall | ⟨_, _, hcall⟩
    · rw [hcall] at hr
      exact hr.elim
    · rw [hcall] at hr
      exact hr.elim
  | task => exact .inl hr

/-- No call to RTR is under way on a QP in RESET. -/
theorem LeftReset.step (hi : s.state = .reset → ¬ s.call.toRtr) (hok : LeftReset (s, h) a)
    (hs : qpStep p s a = some t) : t.state = .reset → ¬ t.call.toRtr := by
  intro hst hr
  rcases qpStep_toRtr hs hr with hr' | hask
  · exact hi ((qpStep_state hs hr).symm.trans hst) hr'
  · cases a with
    | modify => exact hok hask ((qpStep_state hs hr).symm.trans hst)
    | _ => cases hask

/-- Where no call to RTR is under way in RESET, no thread is made in RESET. -/
theorem sqThread_of_left (hn : s.state = .reset → ¬ s.call.toRtr) : SqThread (s, h) a := by
  unfold SqThread
  split
  next =>
    intro attr attrMask hc hr
    exact hn hr (by rw [hc]; trivial)
  next => trivial

theorem reach_leftReset {lQpn : UInt32} {x : TrackedQp} (hx : Reach (TrackInit lQpn)
    (Acts (trackStep p) fun y a => InOrder y a ∧ LeftReset y a) x) :
    TrackInv x ∧ (x.1.state = .reset → ¬ x.1.call.toRtr) := by
  apply hx.invariant
  · rintro x rfl
    exact ⟨newTracked_inv lQpn, fun _ => id⟩
  · rintro x y _ ⟨hi, hn⟩ ⟨a, ⟨hord, hleft⟩, hs⟩
    obtain ⟨hq, hnote⟩ := recording_some.mp hs
    have ht := hi.step hord (sqThread_of_left hn) hq
    rw [hnote] at ht
    exact ⟨ht, hleft.step hn hq⟩

/-- As long as the calls come in order, `qp->state` is true of the workers whenever no call of
`dis_modify_qp` is under way, and also during the calls if RTR is not asked for in RESET. -/
theorem reach_stateHolds (p : SciIf) (lQpn : UInt32) (x : TrackedQp) :
    (Reach (TrackInit lQpn) (Acts (trackStep p) fun y a => InOrder y a ∧ SqThread y a) x →
      ¬ x.1.call.modifying → StateHolds x) ∧
    (Reach (TrackInit lQpn) (Acts (trackStep p) fun y a => InOrder y a ∧ LeftReset y a) x →
      StateHolds x) := by
  refine ⟨fun hx hcall => (reach_trackInv hx).holds fun _ type hs => ?_, fun hx => ?_⟩
  · cases hc : x.1.call with
    | modify attr attrMask pc => exact hcall (by rw [hc]; trivial)
    | _ => rw [hc] at hs; exact hs
  · obtain ⟨hi, hn⟩ := reach_leftReset hx
    exact hi.holds fun hr type hs => hn hr (staffs_toRtr hs)

end

/-- A test that only steps which the conditions admit pass. -/
def inOrder (x : TrackedQp) : QpAct → Bool
  | .modify attr attrMask => (!attr.asks attrMask .rts || x.2.rtrDone) &&
      (!attr.asks attrMask .reset || !x.2.rtrAsked)
  | .call .null => false
  | _ => true

theorem inOrder_sound (x : TrackedQp) (a : QpAct) (h : inOrder x a = true) :
    InOrder x a ∧ SqThread x a := by
  cases a with
  | modify attr attrMask =>
    simp only [inOrder, Bool.and_eq_true, Bool.or_eq_true, Bool.not_eq_true'] at h
    refine ⟨⟨fun hr => ?_, fun hr => ?_⟩, trivial⟩
    · exact h.1.resolve_left (by simp [hr])
    · exact h.2.resolve_left (by simp [hr])
  | call out =>
    cases out with
    | null => cases h
    | _ => exact ⟨trivial, trivial⟩
  | _ => exact ⟨trivial, trivial⟩

def leftReset (x : TrackedQp) (a : QpAct) : Bool :=
  inOrder x a && (!asksRtr a || decide (x.1.state ≠ .reset))

theorem leftReset_sound (x : TrackedQp) (a : QpAct) (h : leftReset x a = true) :
    InOrder x a ∧ LeftReset x a := by
  obtain ⟨hord, hleft⟩ := Bool.and_eq_true_iff.mp h
  refine ⟨(inOrder_sound x a hord).1, ?_⟩
  cases a with
  | modify attr attrMask =>
    intro hr
    simpa [asksRtr, hr] using hleft
  | _ => trivial

/-- A whole call that stores a state and does nothing else. -/
def storeActs (state : IbQpState) : List QpAct :=
  .modify ⟨state, 0, .mtu4096⟩ ibQpState :: List.replicate 2 (.call .thread)

/-- Straight from RESET to RTR, and to RTS. -/
def directActs : List QpAct := rtrActs 100 ++ storeActs .rts

theorem newTracked_init (lQpn : UInt32) : TrackInit lQpn (newTracked lQpn) := rfl

def readyActs : List QpAct := storeActs .init ++ directActs

def directQp : TrackedQp :=
  afterChecked (trackStep initiatorIf) inOrder (newTracked 100) directActs

def readyQp : TrackedQp :=
  afterChecked (trackStep initiatorIf) leftReset (newTracked 100) readyActs

theorem reach_stateHolds_ready :
    (directQp.1.state = .rts ∧ StateHolds directQp) ∧
      readyQp.1.state = .rts ∧ StateHolds readyQp := by
  refine ⟨⟨by decide, ?_⟩, by decide, ?_⟩
  · have hcall : directQp.1.call = .idle := by rfl
    exact (reach_stateHolds initiatorIf 100 _).1
      (reach_afterChecked inOrder_sound (reach_start (newTracked_init 100)) directActs)
      (by rw [hcall]; exact id)
  · exact (reach_stateHolds initiatorIf 100 _).2
      (reach_afterChecked leftReset_sound (reach_start (newTracked_init 100)) readyActs)

/-- Straight to RTS. -/
def unstartedQp : TrackedQp := afterActs (trackStep initiatorIf) (newTracked 100) (storeActs .rts)

/-- To RTR, the receive worker connects, and back to RESET. -/
def unstoppedQp : TrackedQp :=
  afterActs (trackStep initiatorIf) (newTracked 100)
    (rtrActs 100 ++ taskActs .rq 0 3 ++ storeActs .reset)

/-- To RTR, but no thread can be made for the SQ; the receive worker connects. -/
def halfStartedQp : TrackedQp :=
  afterActs (trackStep initiatorIf) (newTracked 100)
    (.modify (rtrAttr 100) ibQpState :: List.replicate 6 (.call .thread) ++
      List.replicate 5 (.call .null) ++ taskActs .rq 0 3)

/-- A QP in RTS without workers, and two QPs in RESET with a worker, with no call under way. -/
theorem states_untrue :
    (Reach (TrackInit 100) (Acts (trackStep initiatorIf) anyAct) unstartedQp ∧
      unstartedQp.1.call = .idle ∧ unstartedQp.1.state = .rts ∧
      (∀ type, unstartedQp.2.inited type = false) ∧ ¬ StateHolds unstartedQp) ∧
    (Reach (TrackInit 100) (Acts (trackStep initiatorIf) anyAct) unstoppedQp ∧
      unstoppedQp.1.call = .idle ∧ unstoppedQp.1.state = .reset ∧ unstoppedQp.1.rets = [0, 0] ∧
      ((unstoppedQp.1.wq .rq).tasks 0).pc = .top ∧ ¬ StateHolds unstoppedQp) ∧
    (Reach (TrackInit 100) (Acts (trackStep initiatorIf) anyAct) halfStartedQp ∧
      halfStartedQp.1.call = .idle ∧ halfStartedQp.1.state = .reset ∧
      halfStartedQp.1.rets = [-42] ∧ ((halfStartedQp.1.wq .rq).tasks 0).pc = .top ∧
      ¬ StateHolds halfStartedQp) := by
  have hrts : unstartedQp.1.state = .rts := by decide
  have hnone : ∀ type, unstartedQp.2.inited type = false := by
    intro type
    cases type
    · decide
    · decide
  have hreset : unstoppedQp.1.state = .reset := by decide
  have htop : ((unstoppedQp.1.wq .rq).tasks 0).pc = .top := by decide
  have hstill : halfStartedQp.1.state = .reset := by decide
  have halone : ((halfStartedQp.1.wq .rq).tasks 0).pc = .top := by decide
  refine ⟨⟨reach_afterActs (newTracked_init 100) _, by rfl, hrts, hnone, fun h => ?_⟩,
    ⟨reach_afterActs (newTracked_init 100) _, by rfl, hreset, by decide, htop, fun h => ?_⟩,
    ⟨reach_afterActs (newTracked_init 100) _, by rfl, hstill, by decide, halone, fun h => ?_⟩⟩
  · have hrq := h.ready (.inr hrts) .rq
    rw [hnone .rq] at hrq
    cases hrq
  · exact h.reset hreset .rq 0 (by rw [htop]; decide)
  · exact h.reset hstill .rq 0 (by rw [halone]; decide)

end DisKverbs
