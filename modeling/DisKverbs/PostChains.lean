import DisKverbs.KeyLookup
import DisKverbs.Creation

namespace DisKverbs

open CellProg CircBuf

inductive PostVerb
  | send
  | recv
  | srqRecv
  deriving DecidableEq

def PostVerb.opcode : PostVerb → IbWcOpcode
  | .send => .send
  | _ => .recv

/-- The number that stands for a NULL `ibqp`, as in zeroed memory. -/
def nullQp : Nat := 0

/-- `none` is the dereference of `wq->ibqp` at the start of `dis_qp_post_one_rqe`. -/
def disPostSrqRecv (lib : SciLib) (t : MrTable) (rq : DisWq) (posts : List (IbWr × Option PageMap)) :
    Option PostVerbResult :=
  if rq.ibqp = nullQp ∧ posts ≠ [] then none
  else some (postChain (disQpPostOneRqe lib t) rq posts)

/-- A posting verb as its caller sees it: the result, and `*bad_wr` as the position of a WR in
the chain. No verb assigns to `*bad_wr`. -/
def disPostVerb (lib : SciLib) (verb : PostVerb) (t : MrTable) (wq : DisWq)
    (posts : List (IbWr × Option PageMap)) (badWr : Option Nat) :
    Option (PostVerbResult × Option Nat) :=
  match verb with
  | .send => some (disPostSend lib t wq posts, badWr)
  | .recv => some (disPostRecv lib t wq posts, badWr)
  | .srqRecv => (disPostSrqRecv lib t wq posts).map fun r => (r, badWr)

def DisWq.queue (wq : DisWq) : List DisWqe := window wq.buf wq.head wq.tail wq.wqeMax

/-- A queue whose indices lie in a ring of a power of two. -/
structure InRing (r : RingSize) (wq : DisWq) : Prop where
  wqeMax : wq.wqeMax = r.size
  head : wq.head < r.size
  tail : wq.tail < r.size

/-- The WRs before the failing one are enqueued, in order, and all of them on success. -/
structure ChainPosted (lib : SciLib) (opcode : IbWcOpcode) (t : MrTable) (wq : DisWq)
    (posts : List (IbWr × Option PageMap)) (res : PostVerbResult) : Prop where
  queue : res.wq.queue = wq.queue ++ res.posted.map (·.1)
  built : ∀ (i : Nat) wqe used, res.posted[i]? = some (wqe, used) → ∃ wr kmalloc ibqp sciMsq w,
    posts[i]? = some (wr, kmalloc) ∧
      Runs (· = kmalloc) (postOneBody lib opcode ibqp sciMsq t wr) w (some used) wqe
  whole : res.ret = 0 ↔ res.posted.length = posts.length
  stopped : res.ret ≠ 0 → res.posted.length < posts.length

/-- The verb returns, has enqueued what it should, and on an error `*bad_wr` tells the rest. -/
def VerbReports (lib : SciLib) (verb : PostVerb) (t : MrTable) (wq : DisWq)
    (posts : List (IbWr × Option PageMap)) (badWr : Option Nat) : Prop :=
  ∃ res badWr', disPostVerb lib verb t wq posts badWr = some (res, badWr') ∧
    ChainPosted lib verb.opcode t wq posts res ∧
      (res.ret ≠ 0 → badWr' = some res.posted.length)

/-- WR `i` of a chain finds a free slot when those before it have taken theirs, and is accepted. -/
def PostsAt (t : MrTable) (wq : DisWq) (posts : List (IbWr × Option PageMap)) (i : Nat) : Prop :=
  ∃ wr kmalloc, posts[i]? = some (wr, kmalloc) ∧
    ¬ circSpace ((circNext · wq.wqeMax)^[i] wq.head) wq.tail wq.wqeMax < 1 ∧ Accepts t kmalloc wr

/-- The first WR of the chain that cannot be posted. -/
def FailsAt (t : MrTable) (wq : DisWq) (posts : List (IbWr × Option PageMap)) (n : Nat) : Prop :=
  n < posts.length ∧ (∀ i < n, PostsAt t wq posts i) ∧ ¬ PostsAt t wq posts n

section

variable {r : RingSize} {wq : DisWq}

theorem InRing.positions (h : InRing r wq) :
    ∃ m n, m ≤ n ∧ n < m + r.size ∧ wq.tail = m % r.size ∧ wq.head = n % r.size := by
  obtain ⟨_, hh, ht⟩ := h
  by_cases hle : wq.tail ≤ wq.head
  · exact ⟨wq.tail, wq.head, hle, by omega, (Nat.mod_eq_of_lt ht).symm, (Nat.mod_eq_of_lt hh).symm⟩
  · refine ⟨wq.tail, wq.head + r.size, by omega, by omega, (Nat.mod_eq_of_lt ht).symm, ?_⟩
    rw [Nat.add_mod_right, Nat.mod_eq_of_lt hh]

theorem InRing.next (h : InRing r wq) : circNext wq.head wq.wqeMax < r.size := by
  rw [h.wqeMax, circNext, mask_eq_mod]
  exact Nat.mod_lt _ r.size_pos

/-- A store into the free slot leaves the queue alone, until head moves past it. -/
theorem InRing.queue_update (h : InRing r wq) (wqe : DisWqe) :
    window (Function.update wq.buf wq.head wqe) wq.head wq.tail wq.wqeMax = wq.queue := by
  obtain ⟨m, n, hle, hlap, ht, hh⟩ := h.positions
  rw [DisWq.queue, h.wqeMax, ht, hh, window_mod r _ hle hlap, window_mod r _ hle hlap]
  refine List.map_congr_left fun i hi => ?_
  have hi := List.mem_range.mp hi
  exact Function.update_of_ne (slot_ne r (by omega) (by omega)) _ _

theorem InRing.queue_publish (h : InRing r wq) (hs : ¬ circSpace wq.head wq.tail wq.wqeMax < 1)
    (wqe : DisWqe) :
    window (Function.update wq.buf wq.head wqe) (circNext wq.head wq.wqeMax) wq.tail wq.wqeMax =
      wq.queue ++ [wqe] := by
  have hold := h.queue_update wqe
  obtain ⟨m, n, hle, hlap, ht, hh⟩ := h.positions
  rw [h.wqeMax] at hs hold ⊢
  rw [ht, hh, circSpace_mod r hle hlap] at hs
  rw [← hold, ht, hh, circNext_mod, window_mod r _ (by omega) (by omega), window_mod r _ hle hlap,
    show n + 1 - m = n - m + 1 by omega, List.range_succ, List.map_append, List.map_singleton,
    show m + (n - m) = n by omega, Function.update_self]

theorem InRing.notify (h : InRing r wq) : InRing r (disQpNotify wq).2 := by
  refine ⟨?_, ?_, ?_⟩
  · rw [disQpNotify_wqeMax]
    exact h.wqeMax
  · rw [disQpNotify_head]
    exact h.head
  · rw [disQpNotify_tail]
    exact h.tail

theorem queue_notify (wq : DisWq) : (disQpNotify wq).2.queue = wq.queue := by
  unfold disQpNotify
  split
  next => rfl
  next => rfl

variable {lib : SciLib} {opcode : IbWcOpcode} {t : MrTable} {kmalloc : Option PageMap} {wr : IbWr}

theorem postOne_accepted (h : InRing r wq) (hz : (postOne lib opcode t kmalloc wq wr).ret = 0) :
    InRing r (postOne lib opcode t kmalloc wq wr).wq ∧
      (postOne lib opcode t kmalloc wq wr).wq.queue =
        wq.queue ++ [(postOne lib opcode t kmalloc wq wr).wq.buf wq.head] := by
  obtain ⟨hs, wqe, _, hwq⟩ := postOne_zero hz
  rw [hwq]
  refine ⟨⟨h.wqeMax, h.next, h.tail⟩, ?_⟩
  simp only [Function.update_self]
  exact h.queue_publish hs wqe

theorem postOne_failed (h : InRing r wq) (hz : (postOne lib opcode t kmalloc wq wr).ret ≠ 0) :
    (postOne lib opcode t kmalloc wq wr).wq.queue = wq.queue := by
  unfold postOne at hz ⊢
  split
  next => rfl
  next hs =>
    rw [if_neg hs] at hz
    split
    next wqe _ => exact h.queue_update wqe
    next he => simp [he] at hz

variable {posts : List (IbWr × Option PageMap)}

theorem postChain_refused (hz : (postOne lib opcode t kmalloc wq wr).ret ≠ 0) :
    postChain (postOne lib opcode t) wq ((wr, kmalloc) :: posts) =
      ⟨-42, (postOne lib opcode t kmalloc wq wr).wq, []⟩ := by
  rw [postChain]
  split
  next => rfl
  next h => exact absurd hz h

theorem postChain_accepted (hz : (postOne lib opcode t kmalloc wq wr).ret = 0) :
    postChain (postOne lib opcode t) wq ((wr, kmalloc) :: posts) =
      { postChain (postOne lib opcode t) (disQpNotify (postOne lib opcode t kmalloc wq wr).wq).2
          posts with
        posted := ((postOne lib opcode t kmalloc wq wr).wq.buf wq.head,
          (postOne lib opcode t kmalloc wq wr).used) ::
            (postChain (postOne lib opcode t) (disQpNotify
              (postOne lib opcode t kmalloc wq wr).wq).2 posts).posted } := by
  rw [postChain]
  split
  next h => exact absurd hz h
  next => rfl

/-- One WR more at the front of a chain. -/
theorem ChainPosted.cons {wq' : DisWq} {wqe : DisWqe} {used : List (List Nat)}
    {res : PostVerbResult} {ibqp sciMsq : Nat} {w : DisWqe}
    (hqueue : wq'.queue = wq.queue ++ [wqe])
    (hrun : Runs (· = kmalloc) (postOneBody lib opcode ibqp sciMsq t wr) w (some used) wqe)
    (hc : ChainPosted lib opcode t wq' posts res) :
    ChainPosted lib opcode t wq ((wr, kmalloc) :: posts)
      { res with posted := (wqe, used) :: res.posted } := by
  refine ⟨?_, ?_, ?_, ?_⟩
  · simp only [List.map_cons]
    rw [hc.queue, hqueue, List.append_assoc, List.singleton_append]
  · intro i v used' hi
    cases i with
    | zero =>
      obtain ⟨rfl, rfl⟩ := Prod.mk.inj (Option.some.inj hi)
      exact ⟨wr, kmalloc, ibqp, sciMsq, w, rfl, hrun⟩
    | succ i => exact hc.built i v used' hi
  · have hwhole := hc.whole
    simp only [List.length_cons, Nat.add_right_cancel_iff]
    exact hwhole
  · intro hne
    have hstopped := hc.stopped hne
    simp only [List.length_cons]
    omega

theorem chain_nil : ChainPosted lib opcode t wq [] ⟨0, wq, []⟩ := by
  refine ⟨?_, ?_, ?_, ?_⟩
  · simp
  · simp
  · simp
  · simp

theorem chain_refused {p : IbWr × Option PageMap} {wq' : DisWq} (hqueue : wq'.queue = wq.queue) :
    ChainPosted lib opcode t wq (p :: posts) ⟨-42, wq', []⟩ := by
  refine ⟨?_, ?_, ?_, ?_⟩
  · simpa using hqueue
  · simp
  · simp
  · simp

theorem postChain_posted (h : InRing r wq) :
    ChainPosted lib opcode t wq posts (postChain (postOne lib opcode t) wq posts) := by
  induction posts generalizing wq with
  | nil => exact chain_nil
  | cons p posts ih =>
    obtain ⟨wr, kmalloc⟩ := p
    by_cases hz : (postOne lib opcode t kmalloc wq wr).ret = 0
    · obtain ⟨hring, hqueue⟩ := postOne_accepted h hz
      rw [postChain_accepted hz]
      refine (ih hring.notify).cons ?_ (postOne_runs hz)
      rw [queue_notify]
      exact hqueue
    · rw [postChain_refused hz]
      exact chain_refused (postOne_failed h hz)

theorem postsAt_succ (hz : (postOne lib opcode t kmalloc wq wr).ret = 0) (i : Nat) :
    PostsAt t wq ((wr, kmalloc) :: posts) (i + 1) ↔
      PostsAt t (disQpNotify (postOne lib opcode t kmalloc wq wr).wq).2 posts i := by
  obtain ⟨_, wqe, _, hwq⟩ := postOne_zero hz
  simp only [PostsAt, hwq, disQpNotify_head, disQpNotify_tail, disQpNotify_wqeMax,
    List.getElem?_cons_succ, Function.iterate_succ_apply]

theorem postsAt_zero : PostsAt t wq ((wr, kmalloc) :: posts) 0 ↔
    (postOne lib opcode t kmalloc wq wr).ret = 0 := by
  rw [postOne_zero_iff]
  constructor
  · rintro ⟨wr', kmalloc', he, hs, ha⟩
    cases Option.some.inj he
    exact ⟨hs, ha⟩
  · rintro ⟨hs, ha⟩
    exact ⟨wr, kmalloc, rfl, hs, ha⟩

/-- A chain is posted up to the first WR that fails. -/
theorem postChain_fails : (∀ i < (postChain (postOne lib opcode t) wq posts).posted.length,
      PostsAt t wq posts i) ∧
    ¬ PostsAt t wq posts (postChain (postOne lib opcode t) wq posts).posted.length := by
  induction posts generalizing wq with
  | nil =>
    refine ⟨by simp [postChain], ?_⟩
    rintro ⟨_, _, he, _⟩
    cases he
  | cons p posts ih =>
    obtain ⟨wr, kmalloc⟩ := p
    by_cases hz : (postOne lib opcode t kmalloc wq wr).ret = 0
    · obtain ⟨hbefore, hfails⟩ := @ih (disQpNotify (postOne lib opcode t kmalloc wq wr).wq).2
      rw [postChain_accepted hz]
      refine ⟨?_, ?_⟩
      · intro i hi
        cases i with
        | zero => exact postsAt_zero.mpr hz
        | succ i =>
          rw [postsAt_succ hz]
          exact hbefore i (by simpa using hi)
      · rw [List.length_cons, postsAt_succ hz]
        exact hfails
    · rw [postChain_refused hz]
      refine ⟨by simp, ?_⟩
      exact fun h => hz (postsAt_zero.mp h)

theorem failsAt_iff {n : Nat} : FailsAt t wq posts n ↔
    n = (postChain (postOne lib opcode t) wq posts).posted.length ∧ n < posts.length := by
  obtain ⟨hbefore, hfails⟩ := @postChain_fails wq lib opcode t posts
  constructor
  · rintro ⟨hlt, hall, hn⟩
    rcases Nat.lt_trichotomy n (postChain (postOne lib opcode t) wq posts).posted.length
      with hl | he | hg
    · exact absurd (hbefore n hl) hn
    · exact ⟨he, hlt⟩
    · exact absurd (hall _ hg) hfails
  · rintro ⟨rfl, hlt⟩
    exact ⟨hlt, hbefore, hfails⟩

end

theorem disPostVerb_eq (lib : SciLib) (verb : PostVerb) (t : MrTable) (wq : DisWq)
    (posts : List (IbWr × Option PageMap)) (badWr : Option Nat) :
    disPostVerb lib verb t wq posts badWr =
      if verb = .srqRecv ∧ wq.ibqp = nullQp ∧ posts ≠ [] then none
      else some (postChain (postOne lib verb.opcode t) wq posts, badWr) := by
  cases verb with
  | send => rfl
  | recv => rfl
  | srqRecv =>
    simp only [disPostVerb, disPostSrqRecv, true_and]
    split
    next => rfl
    next => rfl

/-- A posting verb reports as it should exactly when it has nothing to report, or finds the
report already made; a shared receive queue without a QP takes the empty chain only. -/
theorem disPostVerb_reports_iff (lib : SciLib) (verb : PostVerb) (t : MrTable) (r : RingSize)
    (wq : DisWq) (posts : List (IbWr × Option PageMap)) (badWr : Option Nat) (hr : InRing r wq) :
    VerbReports lib verb t wq posts badWr ↔
      (verb = .srqRecv → wq.ibqp = nullQp → posts = []) ∧
        ∀ n, FailsAt t wq posts n → badWr = some n := by
  have hposted := @postChain_posted r wq lib verb.opcode t posts hr
  rw [VerbReports, disPostVerb_eq]
  constructor
  · rintro ⟨res, badWr', he, hc, hbad⟩
    split at he
    next => cases he
    next hnull =>
      cases Option.some.inj he
      refine ⟨?_, ?_⟩
      · intro hv hq
        by_contra hne
        exact hnull ⟨hv, hq, hne⟩
      · intro n hn
        obtain ⟨rfl, hlt⟩ := (@failsAt_iff wq lib verb.opcode t posts n).mp hn
        refine hbad fun hz => ?_
        have := hc.whole.mp hz
        omega
  · rintro ⟨hnull, hbad⟩
    rw [if_neg fun h => h.2.2 (hnull h.1 h.2.1)]
    refine ⟨_, badWr, rfl, hposted, ?_⟩
    intro hne
    exact hbad _ (failsAt_iff.mpr ⟨rfl, hposted.stopped hne⟩)

/-- The receive queue of a new shared receive queue names no QP. -/
theorem disCreateSrq_ibqp (kzalloc : Bool) (maxWr : UInt32) :
    (disCreateSrq kzalloc maxWr zeroWq).2.ibqp = nullQp := by
  cases kzalloc <;> rfl

theorem emptyWq_inRing : InRing fourSlots (emptyWq 4) := ⟨rfl, by decide, by decide⟩

/-- A WR with a key that names no MR. -/
def unknownKeyWr : IbWr := ⟨8, [⟨0x7200, 8, 50⟩], 1, by decide⟩

def brokenChain : List (IbWr × Option PageMap) := [(crossingWr, none), (unknownKeyWr, none)]

theorem disPostVerb_reports_broken :
    VerbReports sciLib64 .send twoPageTable (emptyWq 4) brokenChain (some 1) ↔
      (PostVerb.send = .srqRecv → (emptyWq 4).ibqp = nullQp → brokenChain = []) ∧
        ∀ n, FailsAt twoPageTable (emptyWq 4) brokenChain n → some 1 = some n :=
  disPostVerb_reports_iff sciLib64 .send twoPageTable fourSlots (emptyWq 4) brokenChain (some 1)
    emptyWq_inRing

/-- The second WR fails and the caller's pointer still holds nothing. -/
theorem broken_unreported :
    (disPostSend sciLib64 twoPageTable (emptyWq 4) brokenChain).ret = -42 ∧
      ¬ VerbReports sciLib64 .send twoPageTable (emptyWq 4) brokenChain none := by
  refine ⟨by decide, ?_⟩
  rintro ⟨res, badWr', he, hc, hbad⟩
  obtain ⟨rfl, rfl⟩ := Prod.mk.inj (Option.some.inj he)
  have := hbad (by decide)
  cases this

end DisKverbs
