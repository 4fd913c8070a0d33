import DisKverbs.AskOnce
import DisKverbs.PageMapOwner

namespace DisKverbs

open CellProg CircBuf RingMachine StepSystem

/-- The pages of the WR do not fit the static map. -/
def PostReq.Large (req : PostReq) : Prop := disSgePerWqe < iovTotal req.table req.wr.visited

instance (req : PostReq) : Decidable req.Large := inferInstanceAs (Decidable (_ < _))

/-- A page map that is stored has an id below `n`. -/
def IdsBelow (n : Nat) (w : DisWqe) : Prop := ∀ m, w.pageMapDynamic = some m → m.id < n

section

variable {lib : SciLib} {t : MrTable} {w : DisWqe}

/-- Only a store to `page_map_dynamic` itself changes which page map a slot names. -/
theorem put_idsBelow {n : Nat} {v : WqeStore}
    (hv : ∀ m, v = .pageMapDynamic (some m) → m.id < n) {w : DisWqe} (hw : IdsBelow n w) :
    IdsBelow n (Cell.put v w) := by
  have keep : ∀ w' : DisWqe, w'.pageMapDynamic.map PageMap.id = w.pageMapDynamic.map PageMap.id →
      IdsBelow n w' := by
    intro w' he m hm
    rw [hm, Option.map_some] at he
    obtain ⟨m', hm', hid⟩ := Option.map_eq_some_iff.mp he.symm
    exact hid ▸ hw m' hm'
  cases v with
  | pageMapDynamic x =>
    intro m hm
    exact hv m (congrArg WqeStore.pageMapDynamic hm)
  | base p x => exact keep _ (modify_mapId w p _)
  | len p x => exact keep _ (modify_mapId w p _)
  | _ => exact keep _ rfl

variable {n : Nat}

theorem put_quiet {v : WqeStore} (hv : ∀ x, v ≠ .pageMapDynamic x) (w : DisWqe)
    (hw : IdsBelow n w) : IdsBelow n (Cell.put v w) :=
  put_idsBelow (fun _ he => absurd he (hv _)) hw

theorem store_quiet {v : WqeStore} (hv : ∀ x, v ≠ .pageMapDynamic x) :
    (store v : SlotProg Unit).Quiet (IdsBelow n) := ⟨put_quiet hv, trivial⟩

theorem storeEntry_quiet (p : IovPtr) (e : Iovec) : (storeEntry p e).Quiet (IdsBelow n) :=
  ⟨put_quiet (by simp), put_quiet (by simp), fun _ => ⟨put_quiet (by simp), trivial⟩⟩

theorem mapPages_quiet (pages : Nat → Iovec) (fuel mrPage : Nat) (sgeLen baseOffset : UInt64)
    (p : IovPtr) : (mapPages pages fuel mrPage sgeLen baseOffset p).Quiet (IdsBelow n) := by
  induction fuel generalizing mrPage sgeLen baseOffset p with
  | zero => trivial
  | succ fuel ih =>
    unfold mapPages
    split
    · refine quiet_bind (storeEntry_quiet _ _) fun _ => ?_
      exact quiet_bind (ih _ _ _ _) fun _ => trivial
    · trivial

theorem mapSges_quiet (sges : List DisSgeMap) (p : IovPtr) :
    (mapSges sges p).Quiet (IdsBelow n) := by
  induction sges generalizing p with
  | nil => trivial
  | cons sge sges ih =>
    unfold mapSges
    split
    · exact quiet_bind (ih p) fun _ => trivial
    · refine quiet_bind (mapPages_quiet _ _ _ _ _ _) fun _ => ?_
      exact quiet_bind (ih _) fun _ => trivial

theorem spanSge_quiet (i : Nat) (g : IbSge) (mr : Option DisMr) :
    (spanSge lib i g mr).Quiet (IdsBelow n) := by
  have bump (c : Nat) : (addIovlen lib c).Quiet (IdsBelow n) :=
    fun _ => ⟨put_quiet (by simp), trivial⟩
  cases mr with
  | none => trivial
  | some mr =>
    show Prog.Quiet _ (if mr.isDma then _ else _)
    split
    · refine quiet_bind (storeEntry_quiet _ _) fun _ => ?_
      refine quiet_bind (store_quiet (by simp)) fun _ => ?_
      exact quiet_bind (bump 1) fun _ => trivial
    · exact quiet_bind (bump _) fun _ => trivial

theorem spanSges_quiet (i : Nat) (gs : List IbSge) :
    (spanSges lib t i gs).Quiet (IdsBelow n) := by
  induction gs generalizing i with
  | nil => trivial
  | cons g gs ih =>
    unfold spanSges
    refine quiet_bind (spanSge_quiet _ _ _) fun r => ?_
    cases r with
    | none => trivial
    | some sge =>
      refine quiet_bind (ih _) fun r => ?_
      cases r <;> trivial

/-- The answers of `kmalloc` with an id below `n`. -/
def Below (n : Nat) (x : Option PageMap) : Prop := ∀ m, x = some m → m.id < n

theorem postOneBody_keeps (cfg : WqCfg) (req : PostReq) :
    (cfg.body req).Keeps (Below n) (IdsBelow n) := by
  have choose : chooseStore.Keeps (Below n) (IdsBelow n) := by
    intro w
    show Prog.Keeps _ _ (if _ then _ else _)
    split
    next => trivial
    next =>
      split
      next => exact ⟨put_quiet (by simp), trivial⟩
      next =>
        intro x hx
        refine ⟨fun w hw => put_idsBelow (fun m he => hx m (by simpa using he)) hw, fun w => ?_⟩
        show Prog.Keeps _ _ (if _ then _ else _)
        split
        next => trivial
        next => exact ⟨put_quiet (by simp), trivial⟩
  have header {v : WqeStore} (hv : ∀ x, v ≠ .pageMapDynamic x) :
      (store v : SlotProg Unit).Keeps (Below n) (IdsBelow n) := (store_quiet hv).keeps
  refine keeps_bind (header (by simp)) fun _ => keeps_bind (header (by simp)) fun _ =>
    keeps_bind (header (by simp)) fun _ => keeps_bind (header (by simp)) fun _ =>
    keeps_bind (header (by simp)) fun _ => keeps_bind (header (by simp)) fun _ => ?_
  refine keeps_bind (spanSges_quiet _ _).keeps fun r => ?_
  cases r with
  | none => trivial
  | some sges =>
    refine keeps_bind choose fun b => ?_
    cases b with
    | false => trivial
    | true =>
      intro w
      show Prog.Keeps _ _ (mapSges sges w.sciMsg.iov >>= fun used => pure (some used))
      exact keeps_bind (mapSges_quiet _ _).keeps fun _ => trivial

theorem chooseStore_asksOnce :
    chooseStore.AsksOnce (fun x b => disSgePerWqe < w.sciMsg.iovlen ∧ (x.isSome → b = true)) w := by
  unfold chooseStore
  show Prog.AsksOnce _ (if _ then _ else _) w
  split
  next => trivial
  next =>
    split
    next => trivial
    next hlarge =>
      intro x
      cases x with
      | none => exact ⟨by omega, by simp⟩
      | some m => exact ⟨by omega, fun _ => rfl⟩

/-- A post asks for memory once at most, for a large WR only, and with the memory it has it
does not fail. -/
theorem postOneBody_asksOnce (cfg : WqCfg) (req : PostReq) :
    (cfg.body req).AsksOnce (fun x r => req.Large ∧ (x.isSome → r.isSome)) w := by
  show Prog.AsksOnce _ (spanSges cfg.lib req.table 0 req.wr.visited >>= _)
    (w.header cfg.type.opcode cfg.ibqp cfg.sciMsq req.wr.wrId.toUInt32)
  have hspan : (spanSges cfg.lib req.table 0 req.wr.visited).Yields
      (fun r w => r.isSome → w.sciMsg.iovlen = iovTotal req.table req.wr.visited)
      (w.header cfg.type.opcode cfg.ibqp cfg.sciMsq req.wr.wrId.toUInt32) := by
    refine yields_runs (A := fun _ => True) ((spanSges_quiet (n := 0) _ _).yields _) ?_
    intro r w' hr hsome
    obtain ⟨sges, rfl⟩ := Option.isSome_iff_exists.mp hsome
    obtain ⟨_, _, rfl⟩ := spanSges_some cfg.lib req.table hr
    rw [spanAll_iovlen cfg.lib req.table 0 _ (Nat.two_pow_pos _)]
    simp [DisWqe.header, Nat.mod_eq_of_lt (iovTotal_lt cfg.lib req.table req.wr)]
  refine asksOnce_bind_yields hspan fun r w' hlen => ?_
  cases r with
  | none => trivial
  | some sges =>
    have hmap (P : Option (List (List Nat)) → DisWqe → Prop) (hP : ∀ used w, P (some used) w)
        (w : DisWqe) : Prog.Yields P (do
          let w ← load
          let used ← mapSges sges w.sciMsg.iov
          pure (some used) : SlotProg (Option (List (List Nat)))) w := by
      show Prog.Yields P (mapSges sges w.sciMsg.iov >>= fun used => pure (some used)) w
      exact yields_bind ((mapSges_quiet (n := 0) _ _).yields _) fun used w _ => hP used w
    refine asksOnce_bind chooseStore_asksOnce ?_ ?_
    · intro b w
      cases b with
      | false => trivial
      | true => exact asksOnce_of_yields (hmap (fun _ _ => True) (fun _ _ => trivial) w)
    · rintro x b w ⟨hlarge, hb⟩
      rw [hlen rfl] at hlarge
      cases b with
      | false => exact ⟨hlarge, fun hx => absurd (hb hx) (by simp)⟩
      | true => exact hmap _ (fun used _ => ⟨hlarge, fun _ => rfl⟩) w

end

end DisKverbs
