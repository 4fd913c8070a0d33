import DisKverbs.PostStores

namespace DisKverbs

open CellProg CircBuf

/-- What bounds the stores of a post: `iovlen`, and the number of entries of the page map that
`kmalloc` returned to it. -/
structure MapSize where
  iovlen : Nat
  entries : Nat

/-- The page map is allocated with `iovlen` entries. -/
def MapSize.next (a : MapSize) : WqeStore → MapSize
  | .iovlen n => { a with iovlen := n }
  | .pageMapDynamic buf => { a with entries := if buf.isSome then a.iovlen else 0 }
  | _ => a

def IovPtr.Inside (entries : Nat) : IovPtr → Prop
  | .null => False
  | .static i => i < disSgePerWqe
  | .dynamic i => i < entries

/-- Every store into an iovec entry lies inside the array it goes to. -/
inductive InBounds : MapSize → List WqeStore → Prop
  | nil {a} : InBounds a []
  | cons {a w ws} : (∀ p f, w.field = some (p, f) → p.Inside a.entries) → InBounds (a.next w) ws →
      InBounds a (w :: ws)

def MapSize.after (a : MapSize) (ws : List WqeStore) : MapSize := ws.foldl MapSize.next a

theorem inBounds_append {a : MapSize} {ws vs : List WqeStore} :
    InBounds a (ws ++ vs) ↔ InBounds a ws ∧ InBounds (a.after ws) vs := by
  induction ws generalizing a with
  | nil => exact ⟨fun h => ⟨.nil, h⟩, fun h => h.2⟩
  | cons w ws ih =>
    constructor
    · intro h
      cases h with
      | cons hw h =>
        obtain ⟨h₁, h₂⟩ := ih.mp h
        exact ⟨.cons hw h₁, h₂⟩
    · rintro ⟨h, hv⟩
      cases h with
      | cons hw h => exact .cons hw (ih.mpr ⟨h, hv⟩)

@[simp] theorem after_append (a : MapSize) (ws vs : List WqeStore) :
    a.after (ws ++ vs) = (a.after ws).after vs := List.foldl_append

/-- Stores in bounds that neither count nor allocate. -/
def Keeps (a : MapSize) (ws : List WqeStore) : Prop := InBounds a ws ∧ a.after ws = a

theorem Keeps.append {a : MapSize} {ws vs : List WqeStore} (hw : Keeps a ws) (hv : Keeps a vs) :
    Keeps a (ws ++ vs) := by
  obtain ⟨hb, ha⟩ := hw
  refine ⟨inBounds_append.mpr ⟨hb, ?_⟩, ?_⟩
  · rw [ha]
    exact hv.1
  · rw [after_append, ha]
    exact hv.2

theorem inside_mono {p : IovPtr} {m n : Nat} (h : p.Inside m) (hle : m ≤ n) : p.Inside n := by
  cases p with
  | null => exact h
  | static i => exact h
  | dynamic i => exact Nat.lt_of_lt_of_le h hle

/-- Stores into the slot itself need no page map. -/
theorem inBounds_static {a : MapSize} {ws : List WqeStore}
    (h : ∀ p f, (p, f) ∈ iovFields ws → p.Inside 0) : InBounds a ws := by
  induction ws generalizing a with
  | nil => exact .nil
  | cons w ws ih =>
    refine .cons ?_ ?_
    · intro p f hw
      have hp : p.Inside 0 := h p f (List.mem_filterMap.mpr ⟨w, by simp, hw⟩)
      exact inside_mono hp (Nat.zero_le _)
    · refine ih ?_
      intro p f hm
      obtain ⟨v, hv, he⟩ := List.mem_filterMap.mp hm
      exact h p f (List.mem_filterMap.mpr ⟨v, List.mem_cons_of_mem w hv, he⟩)

/-- The count the bounds go by is the one in the slot. -/
theorem after_iovlen {a : MapSize} {w : DisWqe} (ws : List WqeStore)
    (h : a.iovlen = w.sciMsg.iovlen) : (a.after ws).iovlen = (putAll w ws).sciMsg.iovlen := by
  induction ws generalizing a w with
  | nil => exact h
  | cons v ws ih =>
    refine ih (a := a.next v) (w := Cell.put v w) ?_
    cases v with
    | iovlen n => rfl
    | base p v => exact h.trans (congrArg SciMsg.iovlen (modify_sciMsg w p _).symm)
    | len p v => exact h.trans (congrArg SciMsg.iovlen (modify_sciMsg w p _).symm)
    | _ => exact h

section

variable {lib : SciLib} {t : MrTable} {x : Option PageMap} {w : DisWqe} {a : MapSize}

theorem spanSges_inBounds (wr : IbWr) :
    InBounds a ((spanSges lib t 0 wr.visited).stores x w) := by
  obtain ⟨n, hn, hf, _⟩ := @spanSges_fields lib t x w 0 wr.visited
  refine inBounds_static ?_
  intro p f hp
  rw [hf] at hp
  obtain ⟨j, g, hj, _, rfl⟩ := mem_dmaPtrs.mp (mem_wholeEntries.mp hp)
  have hlen := visited_length wr
  have hb := (List.getElem?_eq_some_iff.mp hj).1
  rw [List.length_take] at hb
  show 0 + j < 4
  omega

theorem keeps_nil : Keeps a [] := ⟨.nil, rfl⟩

theorem storeEntry_keeps {p : IovPtr} (e : Iovec) (hp : p.Inside a.entries) :
    Keeps a ((storeEntry p e).stores x w) := by
  refine ⟨.cons ?_ (.cons ?_ (.cons ?_ .nil)), rfl⟩
  · intro q f hq
    cases hq
    exact hp
  · intro q f hq
    cases hq
    exact hp
  · intro q f hq
    cases hq

theorem mapPages_keeps (pages : Nat → Iovec) (fuel j : Nat) (len off : UInt64) (p : IovPtr)
    (hp : ∀ k < (chunks pages fuel j len off).length, (p.add k).Inside a.entries) :
    Keeps a ((mapPages pages fuel j len off p).stores x w) := by
  induction fuel generalizing j len off p w with
  | zero => exact keeps_nil
  | succ fuel ih =>
    rw [mapPages]
    rw [chunks] at hp
    split
    next hpos =>
      rw [if_pos hpos] at hp
      have hfirst : p.Inside a.entries := by simpa using hp 0 (by simp)
      have hrest : ∀ k < (chunks pages fuel (j + 1) (len - kmin len (pageSize - off)) 0).length,
          ((p.add 1).add k).Inside a.entries := by
        intro k hk
        rw [IovPtr.add_add, Nat.add_comm]
        exact hp (k + 1) (by simpa using hk)
      rw [stores_bind, stores_bind]
      exact (storeEntry_keeps _ hfirst).append ((ih _ _ _ _ hrest).append keeps_nil)
    next => exact keeps_nil

theorem mapSges_keeps (sges : List DisSgeMap) (p : IovPtr)
    (hp : ∀ k < (sges.flatMap DisSgeMap.entries).length, (p.add k).Inside a.entries) :
    Keeps a ((mapSges sges p).stores x w) := by
  induction sges generalizing p w with
  | nil => exact keeps_nil
  | cons sge rest ih =>
    rw [List.flatMap_cons, List.length_append] at hp
    rw [mapSges]
    split
    next hd =>
      rw [stores_bind]
      exact (ih p fun k hk => hp k (by omega)).append keeps_nil
    next hd =>
      rw [stores_bind, mapPages_end hd, stores_bind]
      refine (mapPages_keeps _ _ _ _ _ p ?_).append ((ih _ ?_).append keeps_nil)
      · rw [← DisSgeMap.entries_user hd]
        exact fun k hk => hp k (by omega)
      · intro k hk
        rw [IovPtr.add_add]
        exact hp _ (by omega)

theorem entries_le_count (t : MrTable) (g : IbSge) :
    (sgeMapOf t g).entries.length ≤ sgeCount t g := by
  unfold sgeMapOf sgeCount
  split
  next => simp [DisSgeMap.entries, dmaSgeMap]
  next => exact userEntries_le (t.mrOf g) g

theorem entries_le_total (t : MrTable) (gs : List IbSge) :
    (gs.flatMap fun g => (sgeMapOf t g).entries).length ≤ iovTotal t gs := by
  induction gs with
  | nil => simp
  | cons g gs ih =>
    have hg := entries_le_count t g
    simp only [List.flatMap_cons, List.length_append, iovTotal, List.map_cons, List.sum_cons]
      at ih ⊢
    omega

/-- Past its first loop a post writes into an array with as many entries as it counted. -/
theorem mapSpanned_inBounds (gs : List IbSge) (ha : a.iovlen = w.sciMsg.iovlen)
    (hw : w.sciMsg.iovlen = iovTotal t gs) :
    InBounds a ((mapSpanned (some (gs.map (sgeMapOf t)))).stores x w) := by
  have hle := entries_le_total t gs
  have hlen : ((gs.map (sgeMapOf t)).flatMap DisSgeMap.entries).length =
      (gs.flatMap fun g => (sgeMapOf t g).entries).length := by rw [List.flatMap_map]
  have hr := run_runs x chooseStore w
  rw [mapSpanned, stores_bind, chooseStore_stores]
  cases hb : (chooseStore.run x w).1 with
  | false =>
    simp only [Bool.false_eq_true, if_false, stores_pure, List.append_nil]
    refine inBounds_static ?_
    intro p f hp
    split at hp
    next => simp [iovFields] at hp
    next =>
      split at hp
      next => simp [iovFields, WqeStore.field] at hp
      next => cases x <;> simp [iovFields, WqeStore.field] at hp
  | true =>
    rw [hb] at hr
    obtain ⟨hmax, hs⟩ := chooseStore_true hr
    simp only [if_true, stores_bind, stores_load, run_load, stores_pure, List.append_nil,
      List.nil_append]
    rw [if_neg (by omega)]
    rcases hs with ⟨hs, hw'⟩ | ⟨buf, rfl, hgt, hw'⟩
    · rw [if_pos hs, hw', inBounds_append]
      refine ⟨.cons (by simp [WqeStore.field]) .nil, (mapSges_keeps _ _ ?_).1⟩
      intro k hk
      show 0 + k < disSgePerWqe
      omega
    · rw [if_neg (by omega), hw', inBounds_append]
      refine ⟨.cons (by simp [WqeStore.field]) (.cons (by simp [WqeStore.field]) .nil),
        (mapSges_keeps _ _ ?_).1⟩
      intro k hk
      show 0 + k < a.iovlen
      omega

theorem postOneBody_inBounds (opcode : IbWcOpcode) (ibqp sciMsq : Nat) (wr : IbWr) :
    InBounds a ((postOneBody lib opcode ibqp sciMsq t wr).stores x w) := by
  have hspan := run_runs x (spanSges lib t 0 wr.visited)
    (w.header opcode ibqp sciMsq wr.wrId.toUInt32)
  have hput := run_putAll x (spanSges lib t 0 wr.visited)
    (w.header opcode ibqp sciMsq wr.wrId.toUInt32)
  rw [postOneBody_stores]
  refine inBounds_append.mpr ⟨inBounds_static (by simp [headerStores, iovFields, WqeStore.field]), ?_⟩
  refine inBounds_append.mpr ⟨spanSges_inBounds wr, ?_⟩
  cases hsges : ((spanSges lib t 0 wr.visited).run x
      (w.header opcode ibqp sciMsq wr.wrId.toUInt32)).1 with
  | none => exact .nil
  | some sges =>
    rw [hsges] at hspan
    obtain ⟨_, rfl, hw⟩ := spanSges_some lib t hspan
    refine mapSpanned_inBounds wr.visited ?_ ?_
    · rw [hput]
      exact after_iovlen _ rfl
    · rw [hw, spanAll_iovlen lib t 0 _ (Nat.two_pow_pos _)]
      simp [DisWqe.header, Nat.mod_eq_of_lt (iovTotal_lt lib t wr)]

end

/-- A round of the chunk loop maps at least one byte: the loop ends by itself. -/
theorem mapPages_fuel (pages : Nat → Iovec) {fuel fuel' j : Nat} {len off : UInt64} {p : IovPtr}
    (ho : off.toNat < 4096) (hf : len.toNat ≤ fuel) (hf' : len.toNat ≤ fuel') :
    mapPages pages fuel j len off p = mapPages pages fuel' j len off p := by
  induction fuel generalizing fuel' j len off p with
  | zero =>
    have hlen : ¬ 0 < len := by
      rw [sgeLen_pos_iff]
      omega
    cases fuel' with
    | zero => rfl
    | succ fuel' => rw [mapPages, mapPages, if_neg hlen]
  | succ fuel ih =>
    by_cases hpos : 0 < len
    · have hl := sgeLen_pos_iff.mp hpos
      have hrest := sgeRest_toNat len ho
      cases fuel' with
      | zero => omega
      | succ fuel' =>
        rw [mapPages, mapPages, if_pos hpos, if_pos hpos]
        have hround := @ih fuel' (j + 1) (len - kmin len (pageSize - off)) 0 (p.add 1) (by simp)
          (by omega) (by omega)
        simp only [hround]
    · cases fuel' with
      | zero => rw [mapPages, mapPages, if_neg hpos]
      | succ fuel' => rw [mapPages, mapPages, if_neg hpos, if_neg hpos]

/-- What a post guarantees of its memory accesses, accepted or not. -/
structure PostSafe (lib : SciLib) (type : DisWqType) (t : MrTable) (kmalloc : Option PageMap)
    (wq : DisWq) (wr : IbWr) : Prop where
  bounds : InBounds ⟨0, 0⟩ (disQpPostOneStores lib type t kmalloc wq wr)
  terminates : ∀ g ∈ wr.visited, ∀ sge, sge = sgeMapOf t g → ∀ fuel sgePage,
    sge.sgeLen.toNat ≤ fuel →
      mapPages sge.mrPages.pages fuel sge.mrPages.idx sge.sgeLen sge.baseOffset sgePage =
        mapPages sge.mrPages.pages sge.sgeLen.toNat sge.mrPages.idx sge.sgeLen sge.baseOffset sgePage
  chunks : (disQpPostOne lib type t kmalloc wq wr).ret = 0 →
    (disQpPostOne lib type t kmalloc wq wr).used.flatten.length ≤
        ((disQpPostOne lib type t kmalloc wq wr).wq.buf wq.head).sciMsg.iovlen ∧
      ((disQpPostOne lib type t kmalloc wq wr).wq.buf wq.head).sciMsg.iovlen ≤ disMaxIovlen

theorem sgeMapOf_baseOffset_lt (t : MrTable) (g : IbSge) :
    (sgeMapOf t g).baseOffset.toNat < 4096 := by
  unfold sgeMapOf
  split
  next => decide
  next => exact userSgeMap_baseOffset_lt (t.mrOf g) g

theorem disQpPostOne_safe (lib : SciLib) (type : DisWqType) (t : MrTable)
    (kmalloc : Option PageMap) (wq : DisWq) (wr : IbWr) : PostSafe lib type t kmalloc wq wr := by
  refine ⟨?_, ?_, ?_⟩
  · rw [disQpPostOneStores, postOneStores]
    split
    next => exact .nil
    next => exact postOneBody_inBounds _ _ _ wr
  · intro g _ sge hsge fuel sgePage hf
    rw [hsge] at hf ⊢
    exact mapPages_fuel _ (sgeMapOf_baseOffset_lt t g) hf le_rfl
  · intro hret
    obtain ⟨_, hmax, hused, w₁, hm, hslot⟩ := postOneBody_some lib t (disQpPostOne_slot hret).2
    have hiov : w₁.sciMsg.iovlen = iovTotal t wr.visited := hm.iovlen rfl
    rw [hslot, mapEntries_sciMsg, hiov, hused, usedPages_flatten]
    exact ⟨entries_le_total t wr.visited, hmax⟩

end DisKverbs
