import DisKverbs.PostMapping

namespace DisKverbs

open CellProg CircBuf

def disQpNotify (wq : DisWq) : Int × DisWq :=
  if wq.wqState = .uninitialized then (-42, wq) else (0, { wq with wqFlag := .post })

/-- The return value of a posting verb, the queue afterwards, and for each accepted
WR its slot with the pages that were mapped. -/
structure PostVerbResult where
  ret : Int
  wq : DisWq
  posted : List (DisWqe × List (List Nat))

/-- The loop of the posting verbs over a chain of WRs; each WR comes with the answer
`kmalloc` would give to it. -/
def postChain (postOne : Option PageMap → DisWq → IbWr → PostResult) :
    DisWq → List (IbWr × Option PageMap) → PostVerbResult
  | wq, [] => ⟨0, wq, []⟩
  | wq, (wr, kmalloc) :: rest =>
    let r := postOne kmalloc wq wr
    if r.ret ≠ 0 then ⟨-42, r.wq, []⟩
    else
      let v := postChain postOne (disQpNotify r.wq).2 rest
      { v with posted := (r.wq.buf wq.head, r.used) :: v.posted }

def disPostSend (lib : SciLib) (t : MrTable) := postChain (disQpPostOneSqe lib t)

def disPostRecv (lib : SciLib) (t : MrTable) := postChain (disQpPostOneRqe lib t)

def disPost (lib : SciLib) : DisWqType → MrTable → DisWq → List (IbWr × Option PageMap) →
    PostVerbResult
  | .sq => disPostSend lib
  | .rq => disPostRecv lib

theorem disPost_eq (lib : SciLib) (type : DisWqType) (t : MrTable) :
    disPost lib type t = postChain (postOne lib type.opcode t) := by cases type <;> rfl

/-- All that a post asks of a WR: no range is compared with any MR. -/
structure Accepts (t : MrTable) (kmalloc : Option PageMap) (wr : IbWr) : Prop where
  keys : ∀ g ∈ wr.visited, (t.lookup g.lkey).isSome
  count : iovTotal t wr.visited ≤ disMaxIovlen
  store : disSgePerWqe < iovTotal t wr.visited → kmalloc.isSome

section

variable {lib : SciLib} {opcode : IbWcOpcode} {t : MrTable} {kmalloc : Option PageMap} {wq : DisWq}
  {wr : IbWr}

theorem postOne_zero_iff : (postOne lib opcode t kmalloc wq wr).ret = 0 ↔
    ¬ circSpace wq.head wq.tail wq.wqeMax < 1 ∧ Accepts t kmalloc wr := by
  constructor
  · intro h
    obtain ⟨hs, wqe, hr, _⟩ := postOne_zero h
    obtain ⟨hall, hmax, _, w₁, hm, _⟩ := postOneBody_some lib t hr
    refine ⟨hs, hall, hmax, ?_⟩
    intro hlt
    rcases hm with ⟨hle, _⟩ | ⟨buf, _, rfl, _⟩
    · omega
    · rfl
  · rintro ⟨hs, hall, hmax, hstore⟩
    have hr := run_runs kmalloc (postOneBody lib opcode wq.ibqp wq.sciMsq t wr) (wq.buf wq.head)
    rw [postOne, if_neg hs]
    split
    next wqe he =>
      rw [he] at hr
      rcases postOneBody_none lib t hr with ⟨g, hg, hn⟩ | hgt | ⟨hlt, rfl⟩
      · exact absurd hn (Option.isSome_iff_ne_none.mp (hall g hg))
      · omega
      · simpa using hstore hlt
    next => rfl

theorem disQpPostOne_zero_iff {type : DisWqType} :
    (disQpPostOne lib type t kmalloc wq wr).ret = 0 ↔
      ¬ circSpace wq.head wq.tail wq.wqeMax < 1 ∧ Accepts t kmalloc wr := by
  rw [disQpPostOne_eq]
  exact postOne_zero_iff

end

section

variable {post : Option PageMap → DisWq → IbWr → PostResult} {wq : DisWq}

@[simp] theorem disQpNotify_head : (disQpNotify wq).2.head = wq.head := by
  unfold disQpNotify; split <;> rfl

@[simp] theorem disQpNotify_tail : (disQpNotify wq).2.tail = wq.tail := by
  unfold disQpNotify; split <;> rfl

@[simp] theorem disQpNotify_wqeMax : (disQpNotify wq).2.wqeMax = wq.wqeMax := by
  unfold disQpNotify; split <;> rfl

end

section

variable {lib : SciLib} {opcode : IbWcOpcode} {t : MrTable} {wq : DisWq}
  {posts : List (IbWr × Option PageMap)}

theorem postChain_zero_iff : (postChain (postOne lib opcode t) wq posts).ret = 0 ↔
    ∀ i wr kmalloc, posts[i]? = some (wr, kmalloc) →
      ¬ circSpace ((circNext · wq.wqeMax)^[i] wq.head) wq.tail wq.wqeMax < 1 ∧
        Accepts t kmalloc wr := by
  induction posts generalizing wq with
  | nil => simp [postChain]
  | cons p rest ih =>
    obtain ⟨wr, kmalloc⟩ := p
    have hone : (postOne lib opcode t kmalloc wq wr).ret = 0 ↔
        ¬ circSpace wq.head wq.tail wq.wqeMax < 1 ∧ Accepts t kmalloc wr := postOne_zero_iff
    rw [postChain]
    split
    next hne =>
      refine ⟨fun h => absurd h (by simp), fun h => ?_⟩
      exact absurd (hone.mpr (h 0 wr kmalloc rfl)) hne
    next hz =>
      have hz := not_not.mp hz
      obtain ⟨_, wqe, _, hwq⟩ := postOne_zero hz
      simp only [ih, hwq, disQpNotify_head, disQpNotify_tail, disQpNotify_wqeMax]
      constructor
      · intro h i wr' kmalloc' hi
        cases i with
        | zero => cases Option.some.inj hi; exact hone.mp hz
        | succ i => exact h i wr' kmalloc' hi
      · exact fun h i wr' kmalloc' hi => h (i + 1) wr' kmalloc' hi

theorem postChain_runs (h : (postChain (postOne lib opcode t) wq posts).ret = 0) (i : Nat)
    (wr : IbWr) (kmalloc : Option PageMap) (hi : posts[i]? = some (wr, kmalloc)) :
    ∃ wqe used ibqp sciMsq w, (postChain (postOne lib opcode t) wq posts).posted[i]? =
        some (wqe, used) ∧
      Runs (· = kmalloc) (postOneBody lib opcode ibqp sciMsq t wr) w (some used) wqe := by
  induction posts generalizing wq i with
  | nil => simp at hi
  | cons p rest ih =>
    obtain ⟨wr', kmalloc'⟩ := p
    rw [postChain] at h ⊢
    split at h
    next => simp at h
    next hz =>
      rw [if_neg hz]
      obtain ⟨_, wqe, hr, hwq⟩ := postOne_zero (not_not.mp hz)
      cases i with
      | zero =>
        cases Option.some.inj hi
        refine ⟨wqe, _, wq.ibqp, wq.sciMsq, _, ?_, hr⟩
        simp [hwq]
      | succ i => exact ih h i hi

end

end DisKverbs
