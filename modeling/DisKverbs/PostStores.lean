import DisKverbs.StoreTrace
import DisKverbs.PostVerbs

namespace DisKverbs

open CellProg CircBuf

inductive IovField
  | base
  | len
  deriving DecidableEq

/-- The field of an iovec entry that a store writes. -/
def WqeStore.field : WqeStore → Option (IovPtr × IovField)
  | .base p _ => some (p, .base)
  | .len p _ => some (p, .len)
  | _ => none

def iovFields (ws : List WqeStore) : List (IovPtr × IovField) := ws.filterMap WqeStore.field

def wholeEntries (ps : List IovPtr) : List (IovPtr × IovField) :=
  ps.flatMap fun p => [(p, .base), (p, .len)]

/-- The stores of one post into its slot; it makes none when the ring is full. -/
def postOneStores (lib : SciLib) (opcode : IbWcOpcode) (t : MrTable) (kmalloc : Option PageMap)
    (wq : DisWq) (wr : IbWr) : List WqeStore :=
  if circSpace wq.head wq.tail wq.wqeMax < 1 then []
  else (postOneBody lib opcode wq.ibqp wq.sciMsq t wr).stores kmalloc (wq.buf wq.head)

def disQpPostOneStores (lib : SciLib) (type : DisWqType) := postOneStores lib type.opcode

/-- The entries of the slot that the first loop writes, one for each DMA SGE. -/
def dmaPtrs (t : MrTable) : Nat → List IbSge → List IovPtr
  | _, [] => []
  | i, g :: gs => if (t.mrOf g).isDma then .static i :: dmaPtrs t (i + 1) gs else dmaPtrs t (i + 1) gs

@[simp] theorem iovFields_append (ws vs : List WqeStore) :
    iovFields (ws ++ vs) = iovFields ws ++ iovFields vs := List.filterMap_append

@[simp] theorem wholeEntries_append (ps qs : List IovPtr) :
    wholeEntries (ps ++ qs) = wholeEntries ps ++ wholeEntries qs := List.flatMap_append

theorem mem_wholeEntries {ps : List IovPtr} {p : IovPtr} {f : IovField} :
    (p, f) ∈ wholeEntries ps ↔ p ∈ ps := by
  cases f <;> simp [wholeEntries]

section

variable {lib : SciLib} {t : MrTable} {x : Option PageMap} {w : DisWqe}

theorem storeEntry_fields (p : IovPtr) (e : Iovec) :
    iovFields ((storeEntry p e).stores x w) = wholeEntries [p] := rfl

theorem spanSge_fields (i : Nat) (g : IbSge) :
    iovFields ((spanSge lib i g (t.lookup g.lkey)).stores x w) =
      if (t.lookup g.lkey).isSome then wholeEntries (dmaPtrs t i [g]) else [] := by
  cases hl : t.lookup g.lkey with
  | none => rfl
  | some mr =>
    have hm : t.mrOf g = mr := by simp [MrTable.mrOf, hl]
    simp only [Option.isSome_some, if_true, dmaPtrs, hm]
    by_cases hd : mr.isDma
    · simp only [spanSge, hd, if_true]
      rfl
    · simp only [spanSge, hd]
      rfl

theorem dmaPtrs_append (i : Nat) (gs hs : List IbSge) :
    dmaPtrs t i (gs ++ hs) = dmaPtrs t i gs ++ dmaPtrs t (i + gs.length) hs := by
  induction gs generalizing i with
  | nil => rfl
  | cons g gs ih =>
    have hi : i + 1 + gs.length = i + (g :: gs).length := by
      simp only [List.length_cons]
      omega
    simp only [List.cons_append, dmaPtrs, ih, hi]
    split
    next => rfl
    next => rfl

theorem mem_dmaPtrs {i : Nat} {gs : List IbSge} {p : IovPtr} : p ∈ dmaPtrs t i gs ↔
    ∃ j g, gs[j]? = some g ∧ (t.mrOf g).isDma = true ∧ p = .static (i + j) := by
  induction gs generalizing i with
  | nil => simp [dmaPtrs]
  | cons g gs ih =>
    have tail : (∃ j g', gs[j]? = some g' ∧ (t.mrOf g').isDma = true ∧ p = .static (i + 1 + j)) ↔
        ∃ j g', (g :: gs)[j + 1]? = some g' ∧ (t.mrOf g').isDma = true ∧
          p = .static (i + (j + 1)) := by
      simp only [List.getElem?_cons_succ, Nat.add_assoc, Nat.add_comm 1]
    have here : p ∈ dmaPtrs t i (g :: gs) ↔
        ((t.mrOf g).isDma = true ∧ p = .static i) ∨ p ∈ dmaPtrs t (i + 1) gs := by
      rw [dmaPtrs]
      split
      next hd => simp [hd]
      next hd => simp [hd]
    rw [here, ih, tail]
    constructor
    · rintro (⟨hd, rfl⟩ | ⟨j, g', hj, hd, rfl⟩)
      · exact ⟨0, g, rfl, hd, rfl⟩
      · exact ⟨j + 1, g', hj, hd, rfl⟩
    · rintro ⟨j, g', hj, hd, rfl⟩
      cases j with
      | zero =>
        cases Option.some.inj hj
        exact .inl ⟨hd, rfl⟩
      | succ j => exact .inr ⟨j, g', hj, hd, rfl⟩

/-- The first loop writes the entries of the DMA SGEs it comes to. -/
theorem spanSges_fields (i : Nat) (gs : List IbSge) : ∃ n ≤ gs.length,
    iovFields ((spanSges lib t i gs).stores x w) = wholeEntries (dmaPtrs t i (gs.take n)) ∧
      (((spanSges lib t i gs).run x w).1.isSome → n = gs.length) := by
  induction gs generalizing i w with
  | nil => exact ⟨0, le_rfl, rfl, fun _ => rfl⟩
  | cons g gs ih =>
    have hr := (spanSge_runs lib t).mp (run_runs x (spanSge lib i g (t.lookup g.lkey)) w)
    have hf := @spanSge_fields lib t x w i g
    rw [spanSges, stores_bind, run_bind, iovFields_append, hf]
    split at hr
    next hl =>
      obtain ⟨n, hn, hfields, hall⟩ := ih (w := w.span lib t i g) (i + 1)
      have hone : dmaPtrs t i ((g :: gs).take (n + 1)) =
          dmaPtrs t i [g] ++ dmaPtrs t (i + 1) (gs.take n) := by
        simpa using dmaPtrs_append i [g] (gs.take n)
      refine ⟨n + 1, by simpa using hn, ?_, ?_⟩
      · rw [if_pos hl, hr.1, hr.2, stores_bind, iovFields_append, hfields, hone,
          wholeEntries_append]
        cases ((spanSges lib t (i + 1) gs).run x (w.span lib t i g)).1 with
        | none => simp [iovFields]
        | some sges => simp [iovFields]
      · rw [hr.1, hr.2, run_bind]
        cases hrest : ((spanSges lib t (i + 1) gs).run x (w.span lib t i g)).1 with
        | none => exact fun h => by simp at h
        | some sges =>
          intro _
          have := hall (by rw [hrest]; rfl)
          simp only [List.length_cons]
          omega
    next hl =>
      refine ⟨0, by omega, ?_, ?_⟩
      · rw [if_neg hl, hr.1]
        rfl
      · rw [hr.1]
        exact fun h => by simp at h

theorem range_succ_ptrs (p : IovPtr) (n : Nat) : (List.range (n + 1)).map (p.add ·) =
    p :: (List.range n).map ((p.add 1).add ·) := by
  simp [List.range_succ_eq_map, Function.comp_def, Nat.add_comm]

theorem mapPages_fields (pages : Nat → Iovec) (fuel j : Nat) (len off : UInt64) (p : IovPtr) :
    iovFields ((mapPages pages fuel j len off p).stores x w) =
      wholeEntries ((List.range (chunks pages fuel j len off).length).map (p.add ·)) := by
  induction fuel generalizing j len off p w with
  | zero => rfl
  | succ fuel ih =>
    rw [mapPages, chunks]
    split
    next hpos =>
      rw [stores_bind, iovFields_append, storeEntry_fields, stores_bind, iovFields_append, ih,
        List.length_cons, range_succ_ptrs]
      simp [wholeEntries, iovFields]
    next => rfl

/-- The loop over the pages of an SGE ends behind the entries of that SGE. -/
theorem mapPages_end {sge : DisSgeMap} (hd : ¬ sge.isDma = true) :
    ((mapPages sge.mrPages.pages sge.sgeLen.toNat sge.mrPages.idx sge.sgeLen sge.baseOffset p).run x
      w).1 = (p.add sge.entries.length, sge.usedPages) := by
  have hrun := run_runs x (mapPages sge.mrPages.pages sge.sgeLen.toNat sge.mrPages.idx sge.sgeLen
    sge.baseOffset p) w
  rw [((mapPages_runs sge.mrPages.pages).mp hrun).1, ← DisSgeMap.entries_user hd]
  rfl

theorem mapSges_fields (sges : List DisSgeMap) (p : IovPtr) :
    iovFields ((mapSges sges p).stores x w) =
      wholeEntries ((List.range (sges.flatMap DisSgeMap.entries).length).map (p.add ·)) := by
  induction sges generalizing p w with
  | nil => rfl
  | cons sge rest ih =>
    rw [mapSges]
    split
    next hd =>
      rw [stores_bind, iovFields_append, ih]
      simp [DisSgeMap.entries, hd, iovFields]
    next hd =>
      have he := DisSgeMap.entries_user hd
      rw [stores_bind, iovFields_append, mapPages_fields, mapPages_end hd, stores_bind,
        iovFields_append, ih]
      simp [← he, List.range_add, wholeEntries, iovFields, Function.comp_def]

theorem chooseStore_stores (x : Option PageMap) (w : DisWqe) : chooseStore.stores x w =
    if disMaxIovlen < w.sciMsg.iovlen then []
    else if w.sciMsg.iovlen ≤ disSgePerWqe then [.iov (.static 0)]
    else .pageMapDynamic x :: if x.isSome then [.iov (.dynamic 0)] else [] := by
  unfold chooseStore
  by_cases hmax : disMaxIovlen < w.sciMsg.iovlen
  · simp [stores_bind, hmax]
  · by_cases hs : w.sciMsg.iovlen ≤ disSgePerWqe
    · simp [stores_bind, hmax, hs]
    · cases x with
      | none => simp [stores_bind, hmax, hs, Cell.put, WqeStore.put]
      | some buf => simp [stores_bind, hmax, hs, Cell.put, WqeStore.put]

/-- The rest of a post after its first loop. -/
def mapSpanned : Option (List DisSgeMap) → SlotProg (Option (List (List Nat)))
  | none => pure none
  | some sges => do
    if ← chooseStore then do
      let w ← load
      let used ← mapSges sges w.sciMsg.iov
      pure (some used)
    else pure none

/-- A post is its header, its first loop and the rest. -/
theorem postOneBody_split (opcode : IbWcOpcode) (ibqp sciMsq : Nat) (wr : IbWr) :
    postOneBody lib opcode ibqp sciMsq t wr = (do
      store (.opcode opcode)
      store (.sciMsq sciMsq)
      store (.byteLen 0)
      store (.ibqp ibqp)
      store (.wrId wr.wrId.toUInt32)
      store (.iovlen 0)
      let sges ← spanSges lib t 0 wr.visited
      mapSpanned sges) := rfl

def headerStores (opcode : IbWcOpcode) (ibqp sciMsq : Nat) (wr : IbWr) : List WqeStore :=
  [.opcode opcode, .sciMsq sciMsq, .byteLen 0, .ibqp ibqp, .wrId wr.wrId.toUInt32, .iovlen 0]

theorem postOneBody_stores (opcode : IbWcOpcode) (ibqp sciMsq : Nat) (wr : IbWr) (w : DisWqe) :
    let w₀ := w.header opcode ibqp sciMsq wr.wrId.toUInt32
    let r := (spanSges lib t 0 wr.visited).run x w₀
    (postOneBody lib opcode ibqp sciMsq t wr).stores x w =
      headerStores opcode ibqp sciMsq wr ++ ((spanSges lib t 0 wr.visited).stores x w₀ ++
        (mapSpanned r.1).stores x r.2) := by
  intro w₀ r
  rw [postOneBody_split]
  simp only [stores_bind]
  rfl

theorem chooseStore_fields (x : Option PageMap) (w : DisWqe) :
    iovFields (chooseStore.stores x w) = [] := by
  rw [chooseStore_stores]
  split
  next => rfl
  next =>
    split
    next => rfl
    next => cases x <;> rfl

theorem mapSpanned_fields {sges : List DisSgeMap} {w' : DisWqe} {used : List (List Nat)}
    (h : Runs (· = x) (mapSpanned (some sges)) w (some used) w') :
    iovFields ((mapSpanned (some sges)).stores x w) =
      wholeEntries ((List.range (sges.flatMap DisSgeMap.entries).length).map
        (w'.sciMsg.iov.add ·)) := by
  simp only [mapSpanned, runs_bind] at h
  obtain ⟨b, w₁, hc, h⟩ := h
  rw [mapSpanned, stores_bind_of hc, iovFields_append, chooseStore_fields, List.nil_append]
  cases b with
  | false => exact absurd (runs_pure.mp h).1 (by simp)
  | true =>
    simp only [if_true, runs_bind, runs_load] at h
    obtain ⟨_, _, ⟨hw, hw'⟩, _, _, hm, h⟩ := h
    rw [hw, hw', mapSges_runs] at hm
    obtain ⟨_, rfl⟩ := runs_pure.mp h
    simp only [if_true, stores_bind, stores_load, run_load, stores_pure, List.append_nil,
      List.nil_append]
    rw [mapSges_fields, hm.2, mapEntries_sciMsg]

/-- An accepted post writes the entries of its DMA SGEs into the slot and those of its user
SGEs from the start of the list. -/
theorem postOneBody_fields {opcode : IbWcOpcode} {ibqp sciMsq : Nat} {wr : IbWr}
    {used : List (List Nat)} {w' : DisWqe}
    (h : Runs (· = x) (postOneBody lib opcode ibqp sciMsq t wr) w (some used) w') :
    iovFields ((postOneBody lib opcode ibqp sciMsq t wr).stores x w) =
      wholeEntries (dmaPtrs t 0 wr.visited ++
        (List.range (wr.visited.flatMap fun g => (sgeMapOf t g).entries).length).map
          (w'.sciMsg.iov.add ·)) := by
  have hr := run_unique h
  obtain ⟨n, hn, hf, hall⟩ := @spanSges_fields lib t x
    (w.header opcode ibqp sciMsq wr.wrId.toUInt32) 0 wr.visited
  have hspan := run_runs x (spanSges lib t 0 wr.visited)
    (w.header opcode ibqp sciMsq wr.wrId.toUInt32)
  have hrest : ((mapSpanned ((spanSges lib t 0 wr.visited).run x
      (w.header opcode ibqp sciMsq wr.wrId.toUInt32)).1).run x
      ((spanSges lib t 0 wr.visited).run x
        (w.header opcode ibqp sciMsq wr.wrId.toUInt32)).2) = (some used, w') := by
    rw [← hr, postOneBody_split]
    simp only [run_bind]
    rfl
  rw [postOneBody_stores, iovFields_append, iovFields_append, hf]
  cases hs : ((spanSges lib t 0 wr.visited).run x
      (w.header opcode ibqp sciMsq wr.wrId.toUInt32)).1 with
  | none =>
    rw [hs] at hrest
    cases hrest
  | some sges =>
    rw [hs] at hrest hspan hall
    obtain ⟨_, rfl, _⟩ := spanSges_some lib t hspan
    have hmap := run_runs x (mapSpanned (some (wr.visited.map (sgeMapOf t))))
      ((spanSges lib t 0 wr.visited).run x (w.header opcode ibqp sciMsq wr.wrId.toUInt32)).2
    rw [hrest] at hmap
    rw [mapSpanned_fields hmap, hall rfl, List.take_length, wholeEntries_append, List.flatMap_map]
    rfl

end

/-- The slot after an accepted post. -/
theorem disQpPostOne_slot {lib : SciLib} {type : DisWqType} {t : MrTable}
    {kmalloc : Option PageMap} {wq : DisWq} {wr : IbWr}
    (h : (disQpPostOne lib type t kmalloc wq wr).ret = 0) :
    ¬ circSpace wq.head wq.tail wq.wqeMax < 1 ∧
      Runs (· = kmalloc) (postOneBody lib type.opcode wq.ibqp wq.sciMsq t wr) (wq.buf wq.head)
        (some (disQpPostOne lib type t kmalloc wq wr).used)
        ((disQpPostOne lib type t kmalloc wq wr).wq.buf wq.head) := by
  rw [disQpPostOne_eq] at h ⊢
  exact ⟨(postOne_zero h).1, postOne_runs h⟩

end DisKverbs
