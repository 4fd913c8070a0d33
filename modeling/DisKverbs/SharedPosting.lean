import DisKverbs.WqSpec
import DisKverbs.WorkerProgress

namespace DisKverbs

open CellProg CircBuf RingMachine StepSystem

/-- A work queue that many contexts post to, with no lock around their posts. Each context has a
place of its own in the posting function; `queue.poster` is nobody's. `consumed` lists what the
slots held when the worker retired them. Of two posts that fill one slot, a cursor into a page map
reads the map that the slot has now. -/
structure SharedWq (ι : Type) where
  queue : WqState
  posters : ι → PosterPc
  consumed : List DisWqe

def PosterPc.Filling : PosterPc → Prop
  | .fill .. => True
  | _ => False

section

variable {ι : Type} [DecidableEq ι] (cfg : WqCfg)

/-- The queue as the posting context `i` finds it. -/
def SharedWq.seat (s : SharedWq ι) (i : ι) : WqState := { s.queue with poster := s.posters i }

def SharedWq.unseat (s : SharedWq ι) (i : ι) (q : WqState) : SharedWq ι :=
  { s with
    queue := { q with poster := s.queue.poster }
    posters := Function.update s.posters i q.poster }

def SharedWq.noted (s : SharedWq ι) : List DisWqe :=
  match s.queue.worker with
  | .retire tail _ => s.consumed ++ [s.queue.slots tail]
  | _ => s.consumed

inductive SharedAct (ι : Type)
  | start (i : ι) (req : PostReq)
  | poster (i : ι) (buf : Option (Nat → Iovec))
  | worker (out : Option UInt32)
  | stop

/-- Any context may load head, load tail, write a slot or store head at any time. -/
def sharedStep (s : SharedWq ι) : SharedAct ι → Option (SharedWq ι)
  | .start i req => (wqStep cfg (s.seat i) (.start req)).map (s.unseat i)
  | .poster i buf => (wqStep cfg (s.seat i) (.poster buf)).map (s.unseat i)
  | .worker out => (wqStep cfg s.queue (.worker out)).map fun q =>
    { s with queue := q, consumed := s.noted }
  | .stop => (wqStep cfg s.queue .stop).map fun q => { s with queue := q }

def SharedInit (s : SharedWq ι) : Prop :=
  WqInit s.queue ∧ (∀ i, s.posters i = .idle) ∧ s.consumed = []

/-- A post that passes its full test does so while no other post fills a slot, and head still is
what the post loaded. -/
def Alone (s : SharedWq ι) : SharedAct ι → Prop
  | .poster i _ => ∀ req head, s.posters i = .gotHead req head →
    ¬ circSpace head s.queue.tail cfg.ring.size < 1 →
    head = s.queue.head ∧ ∀ j, ¬ (s.posters j).Filling
  | _ => True

def WorkerOnly : SharedWq ι → SharedAct ι → Prop
  | _, .worker _ => True
  | _, _ => False

/-- Every accepted WR occupies a slot of its own, which holds the WQE its post built until the
worker has consumed it; the worker consumes each once, in the order of acceptance, and unless it
is stopped it can go on until it has consumed them all. -/
structure OwnSlots (s : SharedWq ι) : Prop where
  accepted : s.queue.posted.length = s.queue.rets.count 0
  wqes : ∀ e ∈ s.queue.posted, Runs (Owned e.owned) (cfg.body e.req) e.start (some e.used) e.wqe
  apart : ∀ i j, s.queue.retired.length ≤ i → i < j → j < s.queue.posted.length →
    i % cfg.ring.size ≠ j % cfg.ring.size
  slots : ∀ i e, s.queue.retired.length ≤ i → s.queue.posted[i]? = some e →
    (s.queue.slots (i % cfg.ring.size)).eraseLen = e.wqe.eraseLen
  queue : (s.queue.queue cfg).map DisWqe.eraseLen = s.queue.outstanding.map DisWqe.eraseLen
  consumed : s.consumed.map DisWqe.eraseLen =
    (s.queue.posted.take s.queue.retired.length).map fun e => e.wqe.eraseLen
  served : s.queue.shouldStop = false → s.queue.worker ≠ .exited →
    ∃ t, Relation.ReflTransGen (Acts (sharedStep cfg) WorkerOnly) s t ∧
      t.consumed.map DisWqe.eraseLen = s.queue.posted.map fun e => e.wqe.eraseLen

end

/-- The queue with another poster and another list of return values: what the worker cannot see. -/
def WqState.posting (q : WqState) (pc : PosterPc) (rets : List Int) : WqState :=
  { q with poster := pc, rets := rets }

theorem workerStep_posting {cfg : WqCfg} {out : Option UInt32} {q t : WqState} (pc : PosterPc)
    (rets : List Int) (h : workerStep cfg out q = some t) :
    workerStep cfg out (q.posting pc rets) = some (t.posting pc rets) := by
  have hw : (q.posting pc rets).worker = q.worker := rfl
  unfold workerStep at h ⊢
  rw [hw]
  cases hq : q.worker with
  | exited => simp [hq] at h
  | gotHead head =>
    simp only [hq] at h ⊢
    by_cases hc : circCnt head q.tail cfg.ring.size < 1
    · rw [if_pos hc] at h
      cases Option.some.inj h
      exact if_pos hc
    · rw [if_neg hc] at h
      cases ht : cfg.type with
      | sq | rq =>
        simp only [ht] at h ⊢
        cases Option.some.inj h
        exact if_neg hc
  | sendCall | recvCall =>
    cases out with
    | none | some n => simp only [hq] at h ⊢; cases Option.some.inj h; rfl
  | _ => simp only [hq] at h ⊢; cases Option.some.inj h; rfl

theorem fillStep_posting {cfg : WqCfg} {buf : Option (Nat → Iovec)} {q t : WqState}
    (rets : List Int) (hq : q.poster.Filling) (h : posterStep cfg buf q = some t) :
    ∃ rets', posterStep cfg buf (q.posting q.poster rets) = some (t.posting t.poster rets') := by
  cases hp : q.poster with
  | fill req head prog owned start =>
    cases prog with
    | load k | store w k =>
      simp only [posterStep, WqState.posting, hp] at h ⊢
      cases Option.some.inj h
      exact ⟨_, rfl⟩
    | ask k =>
      cases buf with
      | none | some entries =>
        simp only [posterStep, WqState.posting, hp] at h ⊢
        cases Option.some.inj h
        exact ⟨_, rfl⟩
    | ret used =>
      cases used with
      | none | some used =>
        simp only [posterStep, WqState.posting, hp] at h ⊢
        cases Option.some.inj h
        exact ⟨_, rfl⟩
  | _ => simp [hp, PosterPc.Filling] at hq

section

variable {ι : Type} [DecidableEq ι] {cfg : WqCfg} {s t : SharedWq ι}

inductive SharedMove (cfg : WqCfg) (s : SharedWq ι) : SharedAct ι → SharedWq ι → Prop
  | start {i req} : s.posters i = .idle → SharedMove cfg s (.start i req)
      { s with posters := Function.update s.posters i (.gotHead req s.queue.head) }
  | poster {i buf q} : posterStep cfg buf (s.seat i) = some q →
      SharedMove cfg s (.poster i buf) (s.unseat i q)
  | worker {out q} : workerStep cfg out s.queue = some q →
      SharedMove cfg s (.worker out) { s with queue := q, consumed := s.noted }
  | stop : SharedMove cfg s .stop { s with queue := { s.queue with shouldStop := true } }

theorem sharedStep_move {a : SharedAct ι} (h : sharedStep cfg s a = some t) :
    SharedMove cfg s a t := by
  cases a with
  | start i req =>
    obtain ⟨q, hq, rfl⟩ := Option.map_eq_some_iff.mp h
    obtain ⟨hp, rfl⟩ := wqStep_start hq
    exact .start hp
  | poster i buf =>
    obtain ⟨q, hq, rfl⟩ := Option.map_eq_some_iff.mp h
    exact .poster hq
  | worker out =>
    obtain ⟨q, hq, rfl⟩ := Option.map_eq_some_iff.mp h
    exact .worker hq
  | stop =>
    cases Option.some.inj h
    exact .stop

/-- At most one context fills a slot, and `pc` is where it is. -/
def Leads (s : SharedWq ι) (pc : PosterPc) : Prop :=
  (pc = .idle ∧ ∀ j, ¬ (s.posters j).Filling) ∨
    ∃ i, pc = s.posters i ∧ pc.Filling ∧ ∀ j, (s.posters j).Filling → j = i

/-- What a shared queue does looks to its slots like the posts of one context. -/
def OnePoster (cfg : WqCfg) (s : SharedWq ι) : Prop :=
  ∃ pc rets, Leads s pc ∧ Reach WqInit (Acts (wqStep cfg) anyAct) (s.queue.posting pc rets)

/-- A context that fills nothing may move to another such place. -/
theorem Leads.update {pc pc' : PosterPc} (h : Leads s pc) {i : ι} (hi : ¬ (s.posters i).Filling)
    (hpc : ¬ pc'.Filling) (hp : t.posters = Function.update s.posters i pc') : Leads t pc := by
  have same (j : ι) : (t.posters j).Filling ↔ (s.posters j).Filling := by
    rw [hp]
    exact update_outside PosterPc.Filling hi hpc j
  rcases h with ⟨rfl, hnone⟩ | ⟨k, rfl, hk, hone⟩
  · exact .inl ⟨rfl, fun j hj => hnone j ((same j).mp hj)⟩
  · have hne : k ≠ i := fun he => hi (he ▸ hk)
    refine .inr ⟨k, ?_, hk, fun j hj => hone j ((same j).mp hj)⟩
    rw [hp, Function.update_of_ne hne]

/-- The context that fills a slot may go on or stop filling. -/
theorem leads_own {pc : PosterPc} {i : ι} (hone : ∀ j, (s.posters j).Filling → j = i)
    (hpc : pc = .idle ∨ pc.Filling) (hp : t.posters = Function.update s.posters i pc) :
    Leads t pc := by
  rcases hpc with rfl | hpc
  · refine .inl ⟨rfl, ?_⟩
    rw [hp]
    exact none_update PosterPc.Filling hone id
  · refine .inr ⟨i, by rw [hp, Function.update_self], hpc, fun j hj => ?_⟩
    rw [hp] at hj
    exact only_update PosterPc.Filling hone hj

theorem PosterMove.idle_or_filling {q q' : WqState} (h : PosterMove cfg q q') :
    q'.poster = .idle ∨ q'.poster.Filling := by
  cases h with
  | full | abandon | publish => exact .inl rfl
  | reserve | load | store | noMem | alloc => exact .inr trivial

theorem OnePoster.poster (h : OnePoster cfg s) {i : ι} {buf : Option (Nat → Iovec)} {q : WqState}
    (hok : Alone cfg s (.poster i buf)) (hs : posterStep cfg buf (s.seat i) = some q) :
    OnePoster cfg (s.unseat i q) := by
  obtain ⟨pc, rets, hl, hr⟩ := h
  cases hp : s.posters i with
  | idle => simp [posterStep, SharedWq.seat, hp] at hs
  | gotHead req head =>
    have hi : ¬ (s.posters i).Filling := by rw [hp]; exact id
    simp only [posterStep, SharedWq.seat, hp] at hs
    by_cases hc : circSpace head s.queue.tail cfg.ring.size < 1
    · rw [if_pos hc] at hs
      cases Option.some.inj hs
      exact ⟨pc, rets, hl.update hi id rfl, hr⟩
    · rw [if_neg hc] at hs
      cases Option.some.inj hs
      obtain ⟨rfl, hnone⟩ := hok req head hp hc
      have hidle : pc = .idle := by
        rcases hl with hl | ⟨k, rfl, hk, _⟩
        · exact hl.1
        · exact absurd hk (hnone k)
      subst hidle
      have hstart : wqStep cfg (s.queue.posting .idle rets) (.start req) =
          some (s.queue.posting (.gotHead req s.queue.head) rets) := rfl
      have hfill : wqStep cfg (s.queue.posting (.gotHead req s.queue.head) rets) (.poster buf) =
          some (s.queue.posting (.fill req s.queue.head (cfg.body req) []
            (s.queue.slots s.queue.head)) rets) := if_neg hc
      refine ⟨_, rets, ?_, (hr.next ⟨_, trivial, hstart⟩).next ⟨_, trivial, hfill⟩⟩
      exact leads_own (fun j hj => absurd hj (hnone j)) (.inr trivial) rfl
  | fill req head prog owned start =>
    have hi : (s.posters i).Filling := by rw [hp]; trivial
    have hone : ∀ j, (s.posters j).Filling → j = i := by
      rcases hl with hl | ⟨k, _, _, hone⟩
      · exact absurd hi (hl.2 i)
      · intro j hj
        rw [hone j hj, hone i hi]
    have hpc : pc = s.posters i := by
      rcases hl with hl | ⟨k, rfl, hk, _⟩
      · exact absurd hi (hl.2 i)
      · rw [hone k hk]
    subst hpc
    obtain ⟨rets', hstep⟩ := fillStep_posting rets (q := s.seat i) hi hs
    refine ⟨q.poster, rets', ?_, hr.next ⟨.poster buf, trivial, hstep⟩⟩
    exact leads_own hone (posterStep_move hs).idle_or_filling rfl

theorem OnePoster.move (h : OnePoster cfg s) {a : SharedAct ι} (hok : Alone cfg s a)
    (hm : SharedMove cfg s a t) : OnePoster cfg t := by
  cases hm with
  | @start i req hp =>
    obtain ⟨pc, rets, hl, hr⟩ := h
    have hi : ¬ (s.posters i).Filling := by rw [hp]; exact id
    exact ⟨pc, rets, hl.update hi id rfl, hr⟩
  | poster hs => exact h.poster hok hs
  | @worker out q hs =>
    obtain ⟨pc, rets, hl, hr⟩ := h
    exact ⟨pc, rets, hl, hr.next ⟨.worker out, trivial, workerStep_posting pc rets hs⟩⟩
  | stop =>
    obtain ⟨pc, rets, hl, hr⟩ := h
    exact ⟨pc, rets, hl, hr.next ⟨.stop, trivial, rfl⟩⟩

theorem reach_onePoster (h : Reach SharedInit (Acts (sharedStep cfg) (Alone cfg)) s) :
    OnePoster cfg s := by
  apply h.invariant
  · rintro s ⟨hq, hp, _⟩
    refine ⟨.idle, [], .inl ⟨rfl, fun j hj => ?_⟩, reach_start ?_⟩
    · rw [hp j] at hj
      exact hj
    · rw [hq]
      rfl
  · rintro s t _ hi ⟨a, hok, hs⟩
    exact hi.move hok (sharedStep_move hs)

omit [DecidableEq ι] in
theorem OnePoster.bounds (h : OnePoster cfg s) : WqBounds cfg s.queue := by
  obtain ⟨pc, rets, _, hbase⟩ := h
  obtain ⟨hle, hroom, hhead, htail⟩ := wqBounds (reach_wqRing hbase)
  exact ⟨hle, hroom, hhead, htail⟩

theorem PosterMove.counts {q q' : WqState} (h : PosterMove cfg q q')
    (hq : q.posted.length = q.rets.count 0) : q'.posted.length = q'.rets.count 0 := by
  cases h with
  | full | abandon | publish => simpa using hq
  | reserve | load | store | noMem | alloc => exact hq

theorem reach_accepted {ok : SharedWq ι → SharedAct ι → Prop}
    (h : Reach SharedInit (Acts (sharedStep cfg) ok) s) :
    s.queue.posted.length = s.queue.rets.count 0 := by
  apply h.invariant
  · rintro s ⟨hq, _⟩
    rw [hq]
    rfl
  · rintro s t _ hi ⟨a, _, hs⟩
    cases sharedStep_move hs with
    | start | stop => exact hi
    | poster hq => exact (posterStep_move hq).counts hi
    | worker hq =>
      obtain ⟨_, hposted, _, hrets, _⟩ := (workerStep_move hq).frame
      simp only
      rw [hposted, hrets]
      exact hi

/-- What the worker has consumed so far, up to the lengths that it stores itself. -/
def ConsumedInTurn (s : SharedWq ι) : Prop :=
  s.consumed.map DisWqe.eraseLen =
    (s.queue.posted.take s.queue.retired.length).map fun e => e.wqe.eraseLen

theorem PosterMove.appends {q q' : WqState} (h : PosterMove cfg q q') :
    q'.retired = q.retired ∧ ∃ es, q'.posted = q.posted ++ es := by
  cases h with
  | publish => exact ⟨rfl, _, rfl⟩
  | _ => exact ⟨rfl, [], (List.append_nil _).symm⟩

theorem WorkerMove.retires {q q' : WqState} (h : WorkerMove cfg q q') :
    q'.retired = q.retired ∧ (∀ tail status, q.worker ≠ .retire tail status) ∨
      ∃ tail status, q.worker = .retire tail status ∧ q'.retired = q.retired ++ [status] := by
  cases h with
  | retire hw => exact .inr ⟨_, _, hw, rfl⟩
  | rest hw => exact .inl ⟨rfl, fun tail status he => by rw [he] at hw; simp at hw⟩
  | peek hw | empty hw | acquire hw | complete hw | free hw =>
    exact .inl ⟨rfl, fun tail status he => by rw [he] at hw; cases hw⟩
  | hold hw | touch _ hw =>
    exact .inl ⟨rfl, fun tail status he => by rw [he] at hw; cases hw⟩

omit [DecidableEq ι] in
/-- The slot that the worker retires holds the oldest accepted WQE that is not retired. -/
theorem ConsumedInTurn.worker (hi : ConsumedInTurn s) (hone : OnePoster cfg s)
    {out : Option UInt32} {q : WqState} (hs : workerStep cfg out s.queue = some q) :
    ConsumedInTurn { s with queue := q, consumed := s.noted } := by
  have hm := workerStep_move hs
  obtain ⟨_, hposted, _⟩ := hm.frame
  rcases hm.retires with ⟨hret, hw⟩ | ⟨tail, status, hw, hret⟩
  · have hnoted : s.noted = s.consumed := by
      unfold SharedWq.noted
      split
      next tail status he => exact absurd he (hw tail status)
      next => rfl
    simp only [ConsumedInTurn, hnoted, hposted, hret]
    exact hi
  · obtain ⟨pc, rets, _, hr⟩ := hone
    have hold : (s.queue.posting pc rets).worker.holds = some tail := by
      simp only [WqState.posting, hw]
      rfl
    obtain ⟨e, he, hslot⟩ := held_posted (reach_wqRing hr) hold
    have hnoted : s.noted = s.consumed ++ [s.queue.slots tail] := by
      simp only [SharedWq.noted, hw]
    have htake : s.queue.posted.take (s.queue.retired.length + 1) =
        s.queue.posted.take s.queue.retired.length ++ [e] := by
      rw [List.take_add_one]
      exact congrArg (fun o => _ ++ Option.toList o) he
    have hlast : (s.queue.slots tail).eraseLen = e.wqe.eraseLen := hslot
    simp only [ConsumedInTurn, hnoted, hposted, hret, List.length_append, List.length_singleton,
      htake, List.map_append, List.map_singleton, hlast]
    rw [hi]

theorem reach_consumedInTurn (h : Reach SharedInit (Acts (sharedStep cfg) (Alone cfg)) s) :
    ConsumedInTurn s := by
  apply h.invariant
  · rintro s ⟨hq, _, hc⟩
    have hret : s.queue.retired = [] := by rw [hq]
    simp [ConsumedInTurn, hret, hc]
  · rintro s t hr hi ⟨a, hok, hs⟩
    have hone := reach_onePoster hr
    cases sharedStep_move hs with
    | start | stop => exact hi
    | @poster i buf q hq =>
      obtain ⟨hret, es, hposted⟩ := (posterStep_move hq).appends
      have hle := hone.bounds.le
      have hret' : (s.unseat i q).queue.retired = s.queue.retired := hret
      have hposted' : (s.unseat i q).queue.posted = s.queue.posted ++ es := hposted
      simp only [ConsumedInTurn, hret', hposted', List.take_append_of_le_length hle]
      exact hi
    | worker hq => exact hi.worker hone hq

/-- The worker's own steps are steps of the shared queue. -/
theorem workerRuns_shared {q q' : WqState} (h : WorkerRuns cfg q q') (hq : s.queue = q) :
    ∃ t : SharedWq ι, Relation.ReflTransGen (Acts (sharedStep cfg) WorkerOnly) s t ∧
      t.queue = q' := by
  induction h with
  | refl => exact ⟨s, .refl, hq⟩
  | @tail q₁ q₂ _ hs ih =>
    obtain ⟨t, hrun, rfl⟩ := ih
    obtain ⟨out, hs⟩ := hs
    have hstep : sharedStep cfg t (.worker out) =
        some { t with queue := q₂, consumed := t.noted } := by
      simp only [sharedStep, wqStep, hs, Option.map_some]
    exact ⟨_, hrun.tail ⟨.worker out, trivial, hstep⟩, rfl⟩

theorem workerOnly_reach (h : Reach SharedInit (Acts (sharedStep cfg) (Alone cfg)) s)
    (hrun : Relation.ReflTransGen (Acts (sharedStep cfg) WorkerOnly) s t) :
    Reach SharedInit (Acts (sharedStep cfg) (Alone cfg)) t ∧ t.queue.posted = s.queue.posted := by
  induction hrun with
  | refl => exact ⟨h, rfl⟩
  | tail _ hs ih =>
    obtain ⟨hreach, hposted⟩ := ih
    obtain ⟨a, hok, hs⟩ := hs
    cases a with
    | worker out =>
      refine ⟨hreach.next ⟨.worker out, trivial, hs⟩, ?_⟩
      cases sharedStep_move hs with
      | worker hq => exact (workerStep_move hq).frame.2.1.trans hposted
    | _ => exact hok.elim

theorem retired_bound (h : Reach SharedInit (Acts (sharedStep cfg) (Alone cfg)) s) :
    s.queue.retired.length ≤ s.queue.posted.length ∧
      circCnt s.queue.head s.queue.tail cfg.ring.size =
        s.queue.posted.length - s.queue.retired.length := by
  obtain ⟨hle, hroom, hhead, htail⟩ := (reach_onePoster h).bounds
  exact ⟨hle, by rw [hhead, htail, circCnt_mod cfg.ring hle hroom]⟩

/-- From the top of its loop the worker retires what is outstanding, one WQE in each round. -/
theorem worker_drains (h : Reach SharedInit (Acts (sharedStep cfg) (Alone cfg)) s)
    (hw : s.queue.worker = .top) (hs : s.queue.shouldStop = false) :
    ∃ t, Relation.ReflTransGen (Acts (sharedStep cfg) WorkerOnly) s t ∧
      t.queue.retired.length = t.queue.posted.length := by
  induction hk : s.queue.posted.length - s.queue.retired.length generalizing s with
  | zero =>
    have := (retired_bound h).1
    exact ⟨s, .refl, by omega⟩
  | succ k ih =>
    have hcnt := (retired_bound h).2
    have hsome : ¬ circCnt s.queue.head s.queue.tail cfg.ring.size < 1 := by omega
    obtain ⟨q, hrun, htop, hstop, hlen⟩ := serves_one hw hsome hs
    obtain ⟨u, hu, rfl⟩ := workerRuns_shared hrun rfl
    obtain ⟨hreach, hposted⟩ := workerOnly_reach h hu
    obtain ⟨t, ht, hall⟩ := ih hreach htop hstop (by rw [hposted, hlen]; omega)
    exact ⟨t, hu.trans ht, hall⟩

theorem reach_served (h : Reach SharedInit (Acts (sharedStep cfg) (Alone cfg)) s)
    (hs : s.queue.shouldStop = false) (hw : s.queue.worker ≠ .exited) :
    ∃ t, Relation.ReflTransGen (Acts (sharedStep cfg) WorkerOnly) s t ∧
      t.consumed.map DisWqe.eraseLen = s.queue.posted.map fun e => e.wqe.eraseLen := by
  have hserves : ∃ n, Serves cfg s.queue n := serves_some hw hs
  obtain ⟨n, q, hrun, htop, hstop, _⟩ := hserves
  obtain ⟨u, hu, rfl⟩ := workerRuns_shared hrun rfl
  obtain ⟨t, ht, hall⟩ := worker_drains (workerOnly_reach h hu).1 htop hstop
  obtain ⟨hreach, hposted⟩ := workerOnly_reach h (hu.trans ht)
  have hconsumed := reach_consumedInTurn hreach
  rw [ConsumedInTurn, hall, List.take_length, hposted] at hconsumed
  exact ⟨t, hu.trans ht, hconsumed⟩

/-- As long as every post that passes its full test is the only one that fills a slot and has
loaded the current head, every accepted WR keeps its slot and is consumed once. -/
theorem shared_ownSlots (cfg : WqCfg) (s : SharedWq ι)
    (h : Reach SharedInit (Acts (sharedStep cfg) (Alone cfg)) s) : OwnSlots cfg s := by
  have hone := reach_onePoster h
  have hroom := hone.bounds.room
  obtain ⟨pc, rets, _, hbase⟩ := hone
  have hring := reach_wqRing hbase
  refine ⟨reach_accepted h, (reach_wqInv hbase).entries, ?_, ?_, ?_, reach_consumedInTurn h,
    reach_served h⟩
  · intro i j hle hlt hj
    exact slot_ne cfg.ring hlt (by omega)
  · intro i e hle he
    exact hring.keys i e.wqe hle (by simp [WqState.ring, WqState.posting, he])
  · have hkeys := hring.window_keys
    rw [← outstanding_eq] at hkeys
    exact hkeys

end

def fourSlotSq : WqCfg := ⟨sciLib64, fourSlots, .sq, 1, 2⟩

def freshShared : SharedWq Bool := ⟨freshWq, fun _ => .idle, []⟩

theorem freshShared_init : SharedInit freshShared := ⟨freshWq_init, fun _ => rfl, rfl⟩

instance : DecidablePred PosterPc.Filling
  | .idle => isFalse id
  | .gotHead .. => isFalse id
  | .fill .. => isTrue trivial

/-- `Alone`, as a test. -/
def alone (cfg : WqCfg) (s : SharedWq Bool) : SharedAct Bool → Bool
  | .poster i _ =>
    match s.posters i with
    | .gotHead _ head => decide (circSpace head s.queue.tail cfg.ring.size < 1) ||
      decide (head = s.queue.head ∧ ∀ j, ¬ (s.posters j).Filling)
    | _ => true
  | _ => true

theorem alone_sound (cfg : WqCfg) (s : SharedWq Bool) (a : SharedAct Bool)
    (h : alone cfg s a = true) : Alone cfg s a := by
  cases a with
  | poster i buf =>
    intro req head hp hs
    simpa [alone, hp, hs] using h
  | _ => trivial

def secondWr : IbWr := { emptyWr with wrId := 3 }

def sharedFill (i : Bool) (n : Nat) : List (SharedAct Bool) := List.replicate n (.poster i none)

def sharedSends (n : Nat) : List (SharedAct Bool) := List.replicate n (.worker (some 0))

/-- The second context posts when the first one has stored head. -/
def inTurnActs : List (SharedAct Bool) :=
  .start true ⟨twoPageTable, emptyWr⟩ :: sharedFill true 11 ++
    .start false ⟨twoPageTable, secondWr⟩ :: sharedFill false 11 ++ sharedSends 20

theorem shared_ownSlots_inTurn :
    (afterChecked (sharedStep fourSlotSq) (alone fourSlotSq) freshShared
        inTurnActs).consumed.map (·.wrId) = [2, 3] ∧
      OwnSlots fourSlotSq (afterChecked (sharedStep fourSlotSq) (alone fourSlotSq) freshShared
        inTurnActs) :=
  ⟨by decide, shared_ownSlots fourSlotSq _
    (reach_afterChecked (alone_sound fourSlotSq) (reach_start freshShared_init) inTurnActs)⟩

/-- Both contexts load head before either stores it; then the worker runs until it sleeps. -/
def overlapActs : List (SharedAct Bool) :=
  .start true ⟨twoPageTable, emptyWr⟩ :: .start false ⟨twoPageTable, secondWr⟩ ::
    sharedFill true 11 ++ sharedFill false 11 ++ sharedSends 11

def overlapRun : SharedWq Bool := afterActs (sharedStep fourSlotSq) freshShared overlapActs

/-- Both posts succeed, in one slot; the first WR is never consumed. -/
theorem overlap_lost :
    Reach SharedInit (Acts (sharedStep fourSlotSq) anyAct) overlapRun ∧
      overlapRun.queue.rets = [0, 0] ∧ overlapRun.consumed.map (·.wrId) = [3] ∧
      overlapRun.queue.head = overlapRun.queue.tail ∧ ¬ OwnSlots fourSlotSq overlapRun := by
  have hposted : overlapRun.queue.posted.length = 2 := by decide
  have hretired : overlapRun.queue.retired.length = 1 := by decide
  have hcnt : (overlapRun.queue.queue fourSlotSq).length = 0 := by decide
  refine ⟨reach_afterActs freshShared_init _, by decide, by decide, by decide, fun h => ?_⟩
  have hlen := congrArg List.length h.queue
  simp only [List.length_map, hcnt, WqState.outstanding, List.length_drop, hposted,
    hretired] at hlen
  omega

end DisKverbs
