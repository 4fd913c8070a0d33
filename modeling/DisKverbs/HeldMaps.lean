import DisKverbs.PostAsks
import DisKverbs.FreesOnce

namespace DisKverbs

open CellProg CircBuf RingMachine StepSystem

/-- How a post ends that has asked for memory and got the answer `x`. -/
def AskedRet (req : PostReq) (x : Option PageMap) (r : Option (List (List Nat))) : Prop :=
  req.Large ∧ (x.isSome → r.isSome)

/-- A post on its way has not asked for memory yet or will not ask again, and with memory it
will be accepted. -/
structure FillInv (s : WqState) (req : PostReq) (head : Nat)
    (prog : SlotProg (Option (List (List Nat)))) (owned : List Nat) : Prop where
  keeps : ∀ n, (∀ id ∈ owned, id < n) → prog.Keeps (Below n) (IdsBelow n)
  asks : owned = [] ∧ prog.AsksOnce (AskedRet req) (s.slots head) ∨
    req.Large ∧ prog.Yields (fun r _ => r.isSome) (s.slots head) ∧
      ∃ id < s.fresh, owned = [id] ∧ ∀ e ∈ s.posted, IdsBelow id e.wqe

/-- An accepted large WQE has a page map of its own, a small one has none. -/
structure Posted.Holds (e : Posted) : Prop where
  large : e.req.Large → ∃ m, e.wqe.pageMapDynamic = some m ∧ e.owned = [m.id]
  small : ¬ e.req.Large → e.owned = []

/-- Every page map belongs to the post it was allocated for, and no slot names one that is
still to come. -/
structure MapInv (s : WqState) : Prop where
  owner : ∀ id < s.fresh, id ∈ s.posted.flatMap Posted.owned ++ s.poster.owned
  slots : ∀ j, IdsBelow s.fresh (s.slots j)
  fill : ∀ req head prog owned start, s.poster = .fill req head prog owned start →
    FillInv s req head prog owned
  holds : ∀ e ∈ s.posted, e.Holds
  below : ∀ e ∈ s.posted, IdsBelow s.fresh e.wqe
  order : s.posted.Pairwise fun e e' => ∀ id ∈ e'.owned, IdsBelow id e.wqe

section

variable {cfg : WqCfg} {s t : WqState}

theorem idsBelow_mono {m n : Nat} (hmn : m ≤ n) {w : DisWqe} (h : IdsBelow m w) : IdsBelow n w :=
  fun x hx => Nat.lt_of_lt_of_le (h x hx) hmn

theorem FillInv.owned_lt {req : PostReq} {head : Nat}
    {prog : SlotProg (Option (List (List Nat)))} {owned : List Nat}
    (h : FillInv s req head prog owned) : ∀ id ∈ owned, id < s.fresh := by
  intro id hid
  rcases h.asks with ⟨rfl, _⟩ | ⟨_, _, id', hlt, rfl, _⟩
  · simp at hid
  · rw [List.mem_singleton.mp hid]
    exact hlt

/-- The slot of an accepted post holds the page map that the post asked for, if it did. -/
theorem Posted.holds_of_runs {e : Posted}
    (hrun : Runs (Owned e.owned) (cfg.body e.req) e.start (some e.used) e.wqe)
    (hask : e.owned = [] ∨ e.req.Large ∧ ∃ id, e.owned = [id]) : e.Holds := by
  obtain ⟨_, _, _, w₁, hm, hw⟩ := postOneBody_some _ _ hrun
  have hid : e.wqe.pageMapDynamic.map PageMap.id = w₁.pageMapDynamic.map PageMap.id := by
    rw [hw, mapEntries_mapId]
  refine ⟨fun hlarge => ?_, fun hsmall => ?_⟩
  · rcases hm with ⟨hle, _⟩ | ⟨buf, _, hbuf, rfl⟩
    · have hgt : disSgePerWqe < iovTotal e.req.table e.req.wr.visited := hlarge
      omega
    · obtain ⟨m, hm, hmid⟩ := Option.map_eq_some_iff.mp (hid.trans rfl :
        e.wqe.pageMapDynamic.map PageMap.id = some buf.id)
      have hmem := hbuf buf rfl
      rcases hask with hnil | ⟨_, id, hone⟩
      · simp [hnil] at hmem
      · rw [hone, List.mem_singleton] at hmem
        exact ⟨m, hm, by rw [hone, hmid, hmem]⟩
  · rcases hask with hnil | ⟨hlarge, _⟩
    · exact hnil
    · exact absurd hlarge hsmall

/-- A step that leaves the slots and the posts alone. -/
theorem MapInv.same (hi : MapInv s) (ho : t.poster.owned = s.poster.owned)
    (hfill : ∀ req head prog owned start, t.poster = .fill req head prog owned start →
      FillInv t req head prog owned)
    (hs : t.slots = s.slots) (hq : t.posted = s.posted) (hf : t.fresh = s.fresh) : MapInv t := by
  refine ⟨?_, ?_, hfill, hq ▸ hi.holds, ?_, hq ▸ hi.order⟩
  · rw [hf, hq, ho]
    exact hi.owner
  · rw [hf, hs]
    exact hi.slots
  · rw [hf, hq]
    exact hi.below

section

variable {req : PostReq} {head : Nat} {owned : List Nat} {start : DisWqe}

/-- A store into the slot names no page map that is still to come. -/
theorem MapInv.store (hi : MapInv s) {w : WqeStore} {k : SlotProg (Option (List (List Nat)))}
    (hp : s.poster = .fill req head (.store w k) owned start) :
    MapInv { s with
      slots := Function.update s.slots head (w.put (s.slots head))
      poster := .fill req head k owned start } := by
  have hfill := hi.fill _ _ _ _ _ hp
  have howner := hi.owner
  rw [hp] at howner
  refine ⟨howner, fun j => ?_, fun _ _ _ _ _ he => ?_, hi.holds, hi.below, hi.order⟩
  · by_cases hj : j = head
    · subst hj
      simp only [Function.update_self]
      exact (hfill.keeps s.fresh hfill.owned_lt).1 _ (hi.slots j)
    · simp only [Function.update_of_ne hj]
      exact hi.slots j
  · cases he
    refine ⟨fun n hn => (hfill.keeps n hn).2, ?_⟩
    simp only [Function.update_self]
    exact hfill.asks

/-- A post that gets memory had none, and its page map is newer than those of all other posts. -/
theorem MapInv.alloc (hi : MapInv s) {k : Option PageMap → SlotProg (Option (List (List Nat)))}
    (hp : s.poster = .fill req head (.ask k) owned start) (entries : Nat → Iovec) :
    MapInv { s with
      fresh := s.fresh + 1
      poster := .fill req head (k (some ⟨s.fresh, entries⟩)) (s.fresh :: owned) start } := by
  have hfill := hi.fill _ _ _ _ _ hp
  obtain ⟨hnil, hask⟩ | ⟨_, hyields, _⟩ := hfill.asks
  swap
  · exact hyields.elim
  subst hnil
  refine ⟨fun id hid => ?_, fun j => idsBelow_mono (Nat.le_succ _) (hi.slots j),
    fun _ _ _ _ _ he => ?_, hi.holds,
    fun e he => idsBelow_mono (Nat.le_succ _) (hi.below e he), hi.order⟩
  · have howner := hi.owner
    rw [hp] at howner
    rcases Nat.lt_succ_iff_lt_or_eq.mp hid with hlt | rfl
    · exact List.mem_append_left _ (by simpa [PosterPc.owned] using howner id hlt)
    · exact List.mem_append_right _ (List.mem_singleton_self _)
  · cases he
    refine ⟨fun n hn => hfill.keeps n (by simp) _ ?_, .inr ?_⟩
    · intro m hm
      cases hm
      exact hn _ (List.mem_singleton_self _)
    · obtain ⟨_, _, hlarge, _⟩ := (hask (some ⟨s.fresh, entries⟩)).result
      exact ⟨hlarge, (hask _).mono fun _ _ hr => hr.2 rfl, s.fresh, Nat.lt_succ_self _, rfl,
        hi.below⟩

/-- An accepted post keeps the page map that it asked for. -/
theorem MapInv.publish (hi : MapInv s) (hq : WqInv cfg s) {used : List (List Nat)}
    (hp : s.poster = .fill req head (.ret (some used)) owned start) :
    MapInv { s with
      head := circNext head cfg.ring.size
      poster := .idle
      rets := s.rets ++ [0]
      posted := s.posted ++ [⟨req, s.slots head, used, owned, start⟩] } := by
  have hfill := hi.fill _ _ _ _ _ hp
  have hrun := (hq.fill _ _ _ _ _ hp owned (List.Subset.refl _)).finish
  have hnew : Posted.Holds ⟨req, s.slots head, used, owned, start⟩ := by
    refine Posted.holds_of_runs hrun ?_
    rcases hfill.asks with ⟨hnil, _⟩ | ⟨hlarge, _, id, _, hone, _⟩
    · exact .inl hnil
    · exact .inr ⟨hlarge, id, hone⟩
  refine ⟨fun id hid => ?_, hi.slots, by simp, ?_, ?_, ?_⟩
  · have howner := hi.owner id hid
    rw [hp] at howner
    simpa [PosterPc.owned] using howner
  · intro e he
    rcases List.mem_append.mp he with he | he
    · exact hi.holds e he
    · rw [List.mem_singleton.mp he]
      exact hnew
  · intro e he
    rcases List.mem_append.mp he with he | he
    · exact hi.below e he
    · rw [List.mem_singleton.mp he]
      exact hi.slots head
  · refine List.pairwise_append.mpr ⟨hi.order, List.pairwise_singleton _ _, ?_⟩
    intro e he e' he' id hid
    rw [List.mem_singleton.mp he'] at hid
    rcases hfill.asks with ⟨hnil, _⟩ | ⟨_, _, id', _, hone, hbelow⟩
    · simp [hnil] at hid
    · simp only [hone, List.mem_singleton] at hid
      rw [hid]
      exact hbelow e he

end

theorem MapInv.poster (hi : MapInv s) (hq : WqInv cfg s) (h : PosterMove cfg s t) : MapInv t := by
  cases h with
  | full hp _ => exact hi.same (by rw [hp]; rfl) (by simp) rfl rfl rfl
  | @reserve req head hp _ =>
    refine hi.same (by rw [hp]; rfl) (fun _ _ _ _ _ he => ?_) rfl rfl rfl
    cases he
    exact ⟨fun _ _ => postOneBody_keeps cfg req, .inl ⟨rfl, postOneBody_asksOnce cfg req⟩⟩
  | load hp =>
    have hfill := hi.fill _ _ _ _ _ hp
    refine hi.same (by rw [hp]; rfl) (fun _ _ _ _ _ he => ?_) rfl rfl rfl
    cases he
    exact ⟨fun n hn => hfill.keeps n hn _, hfill.asks⟩
  | store hp => exact hi.store hp
  | noMem hp =>
    have hfill := hi.fill _ _ _ _ _ hp
    refine hi.same (by rw [hp]; rfl) (fun _ _ _ _ _ he => ?_) rfl rfl rfl
    cases he
    refine ⟨fun n hn => hfill.keeps n hn none (by simp [Below]), ?_⟩
    rcases hfill.asks with ⟨hnil, hask⟩ | ⟨_, hyields, _⟩
    · exact .inl ⟨hnil, asksOnce_of_yields (hask none)⟩
    · exact hyields.elim
  | alloc entries hp => exact hi.alloc hp entries
  | abandon hp =>
    have hnil : s.poster.owned = [] := by
      rcases (hi.fill _ _ _ _ _ hp).asks with ⟨hnil, _⟩ | ⟨_, hyields, _⟩
      · rw [hp]
        exact hnil
      · exact absurd hyields (by simp [Prog.Yields])
    exact hi.same hnil.symm (by simp) rfl rfl rfl
  | publish hp => exact hi.publish hq hp

theorem MapInv.worker (hi : MapInv s) (hr : RingInv cfg.ring DisWqe.eraseLen s.ring)
    (h : WorkerMove cfg s t) : MapInv t := by
  obtain ⟨hp, hq, hf, _, _, hslots⟩ := h.frame
  have hmap : ∀ j, (t.slots j).pageMapDynamic = (s.slots j).pageMapDynamic := by
    cases h with
    | @touch tail pc n _ _ =>
      intro j
      by_cases hj : j = tail
      · simp [WqState.setByteLen, hj]
      · simp [WqState.setByteLen, hj]
    | _ => exact fun _ => rfl
  refine ⟨?_, ?_, ?_, hq ▸ hi.holds, ?_, hq ▸ hi.order⟩
  · rw [hf, hq, hp]
    exact hi.owner
  · intro j m hm
    rw [hf]
    exact hi.slots j m ((hmap j).symm.trans hm)
  · intro req head prog owned start he
    rw [hp] at he
    obtain ⟨hkeeps, hasks⟩ := hi.fill _ _ _ _ _ he
    refine ⟨hkeeps, ?_⟩
    rw [hslots head (fill_slot_not_held hr he), hf, hq]
    exact hasks
  · rw [hf, hq]
    exact hi.below

theorem reach_mapInv (h : Reach WqInit (Acts (wqStep cfg) anyAct) s) : MapInv s := by
  apply h.invariant
  · rintro s rfl
    exact ⟨by simp, fun _ _ hm => by simp [default] at hm, by simp, by simp, by simp, .nil⟩
  · rintro s t hr hi ⟨a, _, hs⟩
    cases a with
    | start req =>
      obtain ⟨hp, rfl⟩ := wqStep_start hs
      exact hi.same (by rw [hp]; rfl) (fun _ _ _ _ _ he => by cases he) rfl rfl rfl
    | poster buf => exact hi.poster (reach_wqInv hr) (posterStep_move hs)
    | worker out => exact hi.worker (reach_wqRing hr) (workerStep_move hs)
    | stop =>
      cases Option.some.inj hs
      refine hi.same rfl (fun _ _ _ _ _ he => ?_) rfl rfl rfl
      exact ⟨(hi.fill _ _ _ _ _ he).keeps, (hi.fill _ _ _ _ _ he).asks⟩

end

theorem freedBy_mem {posted : List Posted} {i n : Nat} {e : Posted} {m : PageMap} (hi : i < n)
    (he : posted[i]? = some e) (hm : e.wqe.pageMapDynamic = some m) :
    (i, m.id) ∈ freedBy posted n := by
  refine List.mem_filterMap.mpr ⟨i, List.mem_range.mpr hi, ?_⟩
  simp [he, Posted.release, hm]

/-- Every page map that a queue ever allocated has been freed. -/
def WqState.MapsFreed (s : WqState) : Prop := ∀ id < s.fresh, id ∈ s.frees.map Prod.snd

/-- No WQE that is posted and not retired needs a page map. -/
def WqState.NoneLarge (s : WqState) : Prop :=
  ∀ e ∈ s.posted.drop s.retired.length, ¬ e.req.Large

/-- With both contexts at rest, exactly the page maps of the outstanding large WQEs are left. -/
theorem mapsFreed_iff {cfg : WqCfg} {s : WqState} (h : Reach WqInit (Acts (wqStep cfg) anyAct) s)
    (hp : s.poster = .idle) (hw : s.worker.freed = 0) : s.MapsFreed ↔ s.NoneLarge := by
  have hi := reach_mapInv h
  have hfrees := reach_frees h
  have hfreed : s.freed = s.retired.length := by rw [WqState.freed, hw, Nat.add_zero]
  rw [hfreed] at hfrees
  constructor
  · intro hall e he hlarge
    obtain ⟨m, hm, hown⟩ := (hi.holds e (List.mem_of_mem_drop he)).large hlarge
    have hlt := hi.below e (List.mem_of_mem_drop he) m hm
    obtain ⟨⟨i, id⟩, hfree, hid⟩ := List.mem_map.mp (hall m.id hlt)
    rw [hfrees] at hfree
    obtain ⟨hi', e', m', he', hm', hmid⟩ := mem_freedBy hfree
    have hbelow : IdsBelow m.id e'.wqe := by
      have hfirst : e' ∈ s.posted.take s.retired.length := by
        rw [List.mem_iff_getElem?]
        exact ⟨i, by rw [List.getElem?_take_of_lt hi']; exact he'⟩
      have horder := hi.order
      rw [← List.take_append_drop s.retired.length s.posted] at horder
      exact (List.pairwise_append.mp horder).2.2 e' hfirst e he m.id (by rw [hown]; simp)
    have hless := hbelow m' hm'
    rw [hmid, show id = m.id from hid] at hless
    exact absurd hless (Nat.lt_irrefl _)
  · intro hnone id hid
    have howner := hi.owner id hid
    simp only [hp, PosterPc.owned, List.append_nil] at howner
    obtain ⟨e, he, hown⟩ := List.mem_flatMap.mp howner
    have hlarge : e.req.Large := by
      by_contra hsmall
      rw [(hi.holds e he).small hsmall] at hown
      simp at hown
    obtain ⟨m, hm, hone⟩ := (hi.holds e he).large hlarge
    rw [hone, List.mem_singleton] at hown
    rw [← List.take_append_drop s.retired.length s.posted] at he
    rcases List.mem_append.mp he with he | he
    · obtain ⟨i, hget⟩ := List.mem_iff_getElem?.mp he
      have hlt : i < s.retired.length := by
        have hlen := (List.getElem?_eq_some_iff.mp hget).1
        rw [List.length_take] at hlen
        omega
      rw [List.getElem?_take_of_lt hlt] at hget
      refine List.mem_map.mpr ⟨(i, m.id), ?_, hown.symm⟩
      rw [hfrees]
      exact freedBy_mem hlt hget hm
    · exact absurd hlarge (hnone e he)

end DisKverbs
