import DisKverbs.AccessCount
import DisKverbs.OwnSteps
import DisKverbs.WqSpec
import DisKverbs.WriteBounds

namespace DisKverbs

open CellProg CircBuf OwnSteps RingMachine StepSystem

section

variable {lib : SciLib} {t : MrTable} {w : DisWqe}

theorem addIovlen_within (n : Nat) : (addIovlen lib n).Within w 2 :=
  within_load_bind (within_store _)

theorem storeEntry_within (p : IovPtr) (e : Iovec) : (storeEntry p e).Within w 4 :=
  within_store_bind (within_store_bind (within_load_bind (within_store _)))

theorem spanSge_within (i : Nat) (g : IbSge) (mr : Option DisMr) :
    (spanSge lib i g mr).Within w 7 := by
  cases mr with
  | none => trivial
  | some mr =>
    rw [spanSge]
    split
    next =>
      refine within_bind (m := 4) (n := 3) (storeEntry_within _ _) fun _ _ _ => ?_
      refine within_store_bind (n := 2) ?_
      exact within_bind (n := 0) (addIovlen_within 1) fun _ _ _ => trivial
    next =>
      have hadd : (addIovlen lib (userSgeMap mr g).pageCount.toNat).Within w 7 :=
        (addIovlen_within _).mono (by omega)
      exact within_bind hadd fun a _ _ => within_pure (some (userSgeMap mr g))

theorem spanSges_within (i : Nat) (gs : List IbSge) :
    (spanSges lib t i gs).Within w (7 * gs.length) := by
  induction gs generalizing i w with
  | nil => trivial
  | cons g gs ih =>
    have hsplit : 7 * (g :: gs).length = 7 + 7 * gs.length := by
      rw [List.length_cons]
      omega
    rw [hsplit, spanSges]
    refine within_bind (spanSge_within i g _) fun sge _ _ => ?_
    cases sge with
    | none => trivial
    | some sge =>
      refine within_bind (n := 0) (ih (i + 1)) fun sges _ _ => ?_
      cases sges with
      | none => trivial
      | some sges => trivial

theorem chooseStore_within : chooseStore.Within w 5 := by
  refine within_load_bind ?_
  split
  next => trivial
  next =>
    split
    next => exact within_store_bind trivial
    next =>
      refine within_ask_bind fun buf => within_store_bind (within_load_bind ?_)
      split
      next => trivial
      next => exact within_store_bind trivial

/-- The chunk loop makes four accesses for each entry it writes. -/
theorem mapPages_within (pages : Nat → Iovec) (fuel j : Nat) (len off : UInt64) (p : IovPtr) :
    (mapPages pages fuel j len off p).Within w (4 * (chunks pages fuel j len off).length) := by
  induction fuel generalizing j len off p w with
  | zero => trivial
  | succ fuel ih =>
    rw [mapPages, chunks]
    split
    next =>
      rw [List.length_cons, Nat.mul_succ, Nat.add_comm _ 4]
      refine within_bind (storeEntry_within _ _) fun _ _ _ => ?_
      exact within_bind (n := 0) (ih ..) fun _ _ _ => trivial
    next => trivial

theorem mapSges_within (sges : List DisSgeMap) (p : IovPtr) :
    (mapSges sges p).Within w (4 * (sges.flatMap DisSgeMap.entries).length) := by
  induction sges generalizing p w with
  | nil => trivial
  | cons sge rest ih =>
    rw [mapSges, List.flatMap_cons, List.length_append, Nat.mul_add]
    split
    next => exact within_bind (n := 0) ((ih p).mono (Nat.le_add_left ..)) fun _ _ _ => trivial
    next hd =>
      rw [DisSgeMap.entries_user hd]
      refine within_bind (mapPages_within ..) fun r _ _ => ?_
      exact within_bind (n := 0) (ih r.1) fun _ _ _ => trivial

/-- The accesses of a post to its slot: its header, the SGEs it visits, the choice of the store, and
four for each entry of a list that is not too long. -/
def postAccesses (t : MrTable) (wr : IbWr) : Nat :=
  6 + (7 * wr.visited.length + (5 + (1 + 4 * min (iovTotal t wr.visited) disMaxIovlen)))

theorem postAccesses_le (t : MrTable) (wr : IbWr) : postAccesses t wr ≤ 4136 := by
  have hvisited := visited_length wr
  have hmin := Nat.min_le_right (iovTotal t wr.visited) disMaxIovlen
  simp only [postAccesses, disMaxIovlen] at hmin ⊢
  omega

/-- The count of the first loop keeps the second one short, whatever the lengths of the SGEs. -/
theorem postOneBody_within (opcode : IbWcOpcode) (ibqp sciMsq : Nat) (wr : IbWr) :
    (postOneBody lib opcode ibqp sciMsq t wr).Within w (postAccesses t wr) := by
  rw [postAccesses, Nat.add_comm 6]
  refine within_store_bind <| within_store_bind <| within_store_bind <| within_store_bind <|
    within_store_bind <| within_store_bind ?_
  refine within_bind (spanSges_within 0 wr.visited) fun sges w₁ hs => ?_
  cases sges with
  | none => trivial
  | some sges =>
    obtain ⟨_, rfl, hw₁⟩ := spanSges_some lib t hs
    refine within_bind chooseStore_within fun b w₂ hc => ?_
    cases b with
    | false => trivial
    | true =>
      have hmax := (chooseStore_true hc).1
      rw [hw₁, spanAll_iovlen lib t 0 _ (Nat.two_pow_pos _)] at hmax
      simp only [Cell.put, WqeStore.put, Nat.zero_add, Nat.mod_eq_of_lt (iovTotal_lt lib t wr)]
        at hmax
      have hentries : ((wr.visited.map (sgeMapOf t)).flatMap DisSgeMap.entries).length ≤
          min (iovTotal t wr.visited) disMaxIovlen := by
        rw [List.flatMap_map, Nat.min_eq_left hmax]
        exact entries_le_total t wr.visited
      have hmap := (mapSges_within (w := w₂) (wr.visited.map (sgeMapOf t)) w₂.sciMsg.iov).mono
        (Nat.mul_le_mul_left 4 hentries)
      rw [Nat.add_comm 1]
      exact within_load_bind (within_bind (n := 0) hmap fun _ _ _ => trivial)

end

def WqAct.byPoster : WqAct → Bool
  | .poster _ => true
  | _ => false

/-- A post is under way that began when posts had returned `rets`; it makes at most `n` accesses
before its last one. -/
def PostAt (cfg : WqCfg) (rets : List Int) (s : WqState) (n : Nat) : Prop :=
  Reach WqInit (Acts (wqStep cfg) anyAct) s ∧ s.rets = rets ∧
    match s.poster with
    | .idle => False
    | .gotHead req _ => postAccesses req.table req.wr + 1 ≤ n
    | .fill _ head prog _ _ => prog.Within (s.slots head) n

def PostDone (rets : List Int) (s : WqState) : Prop :=
  s.poster = .idle ∧ ∃ ret, s.rets = rets ++ [ret]

section

variable {cfg : WqCfg} {s t : WqState} {rets : List Int} {n : Nat}

theorem PostAt.fill {req : PostReq} {head : Nat} {prog : SlotProg (Option (List (List Nat)))}
    {owned : List Nat} {start : DisWqe} (h : PostAt cfg rets s n)
    (hp : s.poster = .fill req head prog owned start) : prog.Within (s.slots head) n := by
  obtain ⟨_, _, hat⟩ := h
  rw [hp] at hat
  exact hat

/-- An access of the post is its last one, or leaves it one access less to make. -/
theorem PostAt.mine (h : PostAt cfg rets s n) (hm : PosterMove cfg s t)
    (hr : Reach WqInit (Acts (wqStep cfg) anyAct) t) :
    PostDone rets t ∨ ∃ m, m < n ∧ PostAt cfg rets t m := by
  have hrets := h.2.1
  cases hm with
  | full hp hs => exact .inl ⟨rfl, -42, by rw [← hrets]⟩
  | @reserve req head hp hs =>
    have hat := h.2.2
    rw [hp] at hat
    exact .inr ⟨_, hat, hr, hrets, postOneBody_within ..⟩
  | load hp =>
    have hat := h.fill hp
    cases n with
    | zero => exact hat.elim
    | succ n => exact .inr ⟨n, Nat.lt_succ_self n, hr, hrets, hat⟩
  | @store req head w k owned start hp =>
    have hat := h.fill hp
    cases n with
    | zero => exact hat.elim
    | succ n =>
      refine .inr ⟨n, Nat.lt_succ_self n, hr, hrets, ?_⟩
      show k.Within (Function.update s.slots head (w.put (s.slots head)) head) n
      rw [Function.update_self]
      exact hat
  | noMem hp =>
    have hat := h.fill hp
    cases n with
    | zero => exact hat.elim
    | succ n => exact .inr ⟨n, Nat.lt_succ_self n, hr, hrets, hat none⟩
  | alloc entries hp =>
    have hat := h.fill hp
    cases n with
    | zero => exact hat.elim
    | succ n => exact .inr ⟨n, Nat.lt_succ_self n, hr, hrets, hat _⟩
  | abandon hp => exact .inl ⟨rfl, -42, by rw [← hrets]⟩
  | publish hp => exact .inl ⟨rfl, 0, by rw [← hrets]⟩

/-- The worker does not touch the slot that a post fills. -/
theorem PostAt.worker (h : PostAt cfg rets s n) (hm : WorkerMove cfg s t)
    (hr : Reach WqInit (Acts (wqStep cfg) anyAct) t) : PostAt cfg rets t n := by
  obtain ⟨hpos, _, _, hrets, _, hslots⟩ := hm.frame
  refine ⟨hr, hrets.trans h.2.1, ?_⟩
  cases hp : s.poster with
  | idle =>
    have hat := h.2.2
    rw [hp] at hat
    exact hat.elim
  | gotHead req head =>
    have hat := h.2.2
    rw [hp] at hat
    rw [hpos, hp]
    exact hat
  | fill req head prog owned start =>
    rw [hpos, hp]
    show prog.Within (t.slots head) n
    rw [hslots head (fill_slot_not_held (reach_wqRing h.1) hp)]
    exact h.fill hp

theorem posterStep_some (buf : Option (Nat → Iovec)) (hp : s.poster ≠ .idle) :
    ∃ t, posterStep cfg buf s = some t := by
  unfold posterStep
  split
  next hidle => exact absurd hidle hp
  next => split <;> exact ⟨_, rfl⟩
  next => exact ⟨_, rfl⟩
  next => exact ⟨_, rfl⟩
  next => split <;> exact ⟨_, rfl⟩
  next => exact ⟨_, rfl⟩
  next => exact ⟨_, rfl⟩

theorem post_bounded (cfg : WqCfg) (rets : List Int) :
    Bounded (wqStep cfg) WqAct.byPoster (PostAt cfg rets) (PostDone rets) := by
  refine ⟨fun {s t a n} h ha hs => ?_, fun {s t a n} h ha hs => ?_, fun {s n} h => ?_⟩
  · have hr := h.1.next ⟨a, trivial, hs⟩
    cases a with
    | poster buf => exact h.mine (posterStep_move hs) hr
    | start | worker | stop => simp [WqAct.byPoster] at ha
  · have hr := h.1.next ⟨a, trivial, hs⟩
    cases a with
    | poster buf => simp [WqAct.byPoster] at ha
    | start req =>
      have hat := h.2.2
      rw [(wqStep_start hs).1] at hat
      exact hat.elim
    | worker out => exact h.worker (workerStep_move hs) hr
    | stop =>
      cases Option.some.inj hs
      exact ⟨hr, h.2.1, h.2.2⟩
  · have hbusy : s.poster ≠ .idle := by
      intro hp
      have hat := h.2.2
      rw [hp] at hat
      exact hat
    obtain ⟨t, ht⟩ : ∃ t, posterStep cfg none s = some t := posterStep_some none hbusy
    exact ⟨.poster none, t, rfl, ht⟩

end

/-- In every run a post returns after so many accesses of its own at the latest, whatever its SGEs
are and whatever the worker does in between, and until then it can always make the next one. -/
theorem reach_postReturns (cfg : WqCfg) (s : WqState) (req : PostReq) (head : Nat)
    (h : Reach WqInit (Acts (wqStep cfg) anyAct) s) (hp : s.poster = .gotHead req head)
    (as : List WqAct) (t : WqState) (hrun : runActs (wqStep cfg) s as = some t) :
    postAccesses req.table req.wr ≤ 4136 ∧
      EndsWithin (wqStep cfg) WqAct.byPoster (PostDone s.rets)
        (postAccesses req.table req.wr + 2) s as t := by
  have hat : PostAt cfg s.rets s (postAccesses req.table req.wr + 1) := by
    refine ⟨h, rfl, ?_⟩
    rw [hp]
  exact ⟨postAccesses_le .., (post_bounded cfg s.rets).ends hat hrun⟩

/-- A post of a WR without SGEs has begun. -/
def begunPost : WqState := afterActs (wqStep twoSlotSq) freshWq [.start ⟨twoPageTable, emptyWr⟩]

/-- The worker runs while the post is under way; the posts after it find the ring full. -/
def morePostsActs : List WqAct :=
  List.replicate 6 (.poster none) ++ List.replicate 3 (.worker none) ++
    List.replicate 5 (.poster none) ++
    (List.replicate 3 [.start ⟨twoPageTable, emptyWr⟩, .poster none]).flatten

theorem reach_postReturns_empty :
    postAccesses twoPageTable emptyWr = 12 ∧ morePostsActs.countP WqAct.byPoster = 14 ∧
      postAccesses twoPageTable emptyWr ≤ 4136 ∧
      EndsWithin (wqStep twoSlotSq) WqAct.byPoster (PostDone begunPost.rets)
        (postAccesses twoPageTable emptyWr + 2) begunPost morePostsActs
        (afterActs (wqStep twoSlotSq) begunPost morePostsActs) :=
  ⟨by decide, by decide, reach_postReturns twoSlotSq begunPost ⟨twoPageTable, emptyWr⟩ 0
    (reach_afterActs freshWq_init _) rfl morePostsActs _ (runActs_afterActs (by decide))⟩

end DisKverbs
