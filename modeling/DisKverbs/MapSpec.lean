import DisKverbs.PageChunks

namespace DisKverbs

open CellProg

variable {A : Option PageMap → Prop}

def DisWqe.mapEntry (w : DisWqe) (p : IovPtr) (e : Iovec) : DisWqe :=
  { w.modify p fun _ => e with byteLen := w.byteLen + e.iovLen.toUInt32 }

def DisWqe.mapEntries : DisWqe → IovPtr → List Iovec → DisWqe
  | w, _, [] => w
  | w, p, e :: es => (w.mapEntry p e).mapEntries (p.add 1) es

@[simp] theorem IovPtr.add_zero (p : IovPtr) : p.add 0 = p := by cases p <;> rfl

@[simp] theorem IovPtr.add_add (p : IovPtr) (m n : Nat) : (p.add m).add n = p.add (m + n) := by
  cases p <;> simp [IovPtr.add, Nat.add_assoc]

@[simp] theorem modify_modify (w : DisWqe) (p : IovPtr) (f g : Iovec → Iovec) :
    (w.modify p f).modify p g = w.modify p (g ∘ f) := by
  cases p with
  | null => rfl
  | static i => simp [DisWqe.modify]
  | dynamic i => cases h : w.pageMapDynamic <;> simp [DisWqe.modify, h]

@[simp] theorem modify_byteLen (w : DisWqe) (p : IovPtr) (f : Iovec → Iovec) :
    (w.modify p f).byteLen = w.byteLen := by cases p <;> rfl

@[simp] theorem modify_sciMsg (w : DisWqe) (p : IovPtr) (f : Iovec → Iovec) :
    (w.modify p f).sciMsg = w.sciMsg := by cases p <;> rfl

@[simp] theorem mapEntries_append (w : DisWqe) (p : IovPtr) (es fs : List Iovec) :
    w.mapEntries p (es ++ fs) = (w.mapEntries p es).mapEntries (p.add es.length) fs := by
  induction es generalizing w p with
  | nil => simp [DisWqe.mapEntries]
  | cons e es ih => simp [DisWqe.mapEntries, ih, Nat.add_comm]

@[simp] theorem mapEntries_sciMsg (w : DisWqe) (p : IovPtr) (es : List Iovec) :
    (w.mapEntries p es).sciMsg = w.sciMsg := by
  induction es generalizing w p with
  | nil => rfl
  | cons e es ih => simp [DisWqe.mapEntries, DisWqe.mapEntry, ih]

theorem storeEntry_runs {p : IovPtr} {e : Iovec} {w w' : DisWqe} {u : Unit} :
    Runs A (storeEntry p e) w u w' ↔ w' = w.mapEntry p e := by
  have hput : (WqeStore.byteLen (w.byteLen + e.iovLen.toUInt32)).put
      ((WqeStore.len p e.iovLen).put ((WqeStore.base p e.iovBase).put w)) = w.mapEntry p e := by
    simp only [WqeStore.put, modify_modify, DisWqe.mapEntry, Function.comp_def]
  have hbyte : ((WqeStore.len p e.iovLen).put ((WqeStore.base p e.iovBase).put w)).byteLen =
      w.byteLen := by simp [WqeStore.put]
  simp only [storeEntry, addByteLen, runs_bind, runs_store, runs_load, Cell.put]
  constructor
  · rintro ⟨_, _, rfl, _, _, rfl, _, _, ⟨rfl, rfl⟩, rfl⟩
    rw [hbyte, hput]
  · rintro rfl
    exact ⟨(), _, rfl, (), _, rfl, _, _, ⟨rfl, rfl⟩, by rw [hbyte, hput]⟩

theorem map_range_succ (j n : Nat) :
    (List.range (n + 1)).map (j + ·) = j :: (List.range n).map (j + 1 + ·) := by
  simp [List.range_succ_eq_map, Function.comp_def, Nat.add_comm, Nat.add_left_comm]

/-- The chunk loop stores exactly the entries of `chunks`, one after the other. -/
theorem mapPages_runs (pages : Nat → Iovec) {fuel j : Nat} {len off : UInt64} {p : IovPtr}
    {w w' : DisWqe} {r : IovPtr × List Nat} :
    Runs A (mapPages pages fuel j len off p) w r w' ↔
      r = (p.add (chunks pages fuel j len off).length,
        (List.range (chunks pages fuel j len off).length).map (j + ·)) ∧
      w' = w.mapEntries p (chunks pages fuel j len off) := by
  induction fuel generalizing j len off p w w' r with
  | zero => simp [mapPages, chunks, DisWqe.mapEntries]
  | succ fuel ih =>
    rw [mapPages, chunks]
    split
    next hpos =>
      simp only [runs_bind, runs_pure, storeEntry_runs, ih, List.length_cons, map_range_succ,
        DisWqe.mapEntries]
      constructor
      · rintro ⟨_, _, rfl, _, _, ⟨rfl, rfl⟩, rfl, rfl⟩
        simp [Nat.add_comm]
      · rintro ⟨rfl, rfl⟩
        exact ⟨(), _, rfl, _, _, ⟨rfl, rfl⟩, by simp [Nat.add_comm], rfl⟩
    next => simp [DisWqe.mapEntries]

def DisSgeMap.entries (sge : DisSgeMap) : List Iovec :=
  if sge.isDma then []
  else chunks sge.mrPages.pages sge.sgeLen.toNat sge.mrPages.idx sge.sgeLen sge.baseOffset

def DisSgeMap.usedPages (sge : DisSgeMap) : List Nat :=
  (List.range sge.entries.length).map (sge.mrPages.idx + ·)

theorem DisSgeMap.entries_user {sge : DisSgeMap} (hd : ¬ sge.isDma = true) : sge.entries =
    chunks sge.mrPages.pages sge.sgeLen.toNat sge.mrPages.idx sge.sgeLen sge.baseOffset := if_neg hd

theorem mapSges_runs {sges : List DisSgeMap} {p : IovPtr} {w w' : DisWqe} {used : List (List Nat)} :
    Runs A (mapSges sges p) w used w' ↔
      used = sges.map DisSgeMap.usedPages ∧
      w' = w.mapEntries p (sges.flatMap DisSgeMap.entries) := by
  induction sges generalizing p w w' used with
  | nil => simp [mapSges, DisWqe.mapEntries]
  | cons sge rest ih =>
    rw [mapSges]
    split
    next hd =>
      simp only [runs_bind, runs_pure, ih]
      constructor
      · rintro ⟨_, _, ⟨rfl, rfl⟩, rfl, rfl⟩
        simp [DisSgeMap.usedPages, DisSgeMap.entries, hd]
      · rintro ⟨rfl, rfl⟩
        exact ⟨_, _, ⟨rfl, rfl⟩, by simp [DisSgeMap.usedPages, DisSgeMap.entries, hd],
          by simp [DisSgeMap.entries, hd]⟩
    next hd =>
      simp only [runs_bind, runs_pure, mapPages_runs, ih, ← DisSgeMap.entries_user hd]
      constructor
      · rintro ⟨_, _, ⟨rfl, rfl⟩, _, _, ⟨rfl, rfl⟩, rfl, rfl⟩
        simp [DisSgeMap.usedPages]
      · rintro ⟨rfl, rfl⟩
        exact ⟨_, _, ⟨rfl, rfl⟩, _, _, ⟨rfl, rfl⟩, by simp [DisSgeMap.usedPages], by simp⟩

/-- Pointers through which a store reaches memory. -/
def DisWqe.Valid (w : DisWqe) : IovPtr → Prop
  | .null => False
  | .static _ => True
  | .dynamic _ => w.pageMapDynamic.isSome

theorem valid_add {w : DisWqe} {p : IovPtr} (h : w.Valid p) (n : Nat) : w.Valid (p.add n) := by
  cases p <;> exact h

theorem valid_mapEntry {w : DisWqe} {p q : IovPtr} {e : Iovec} (h : w.Valid q) :
    (w.mapEntry p e).Valid q := by
  cases q with
  | null => exact h
  | static => trivial
  | dynamic i => cases p <;> simpa [DisWqe.Valid, DisWqe.mapEntry, DisWqe.modify] using h

theorem deref_mapEntry_self {w : DisWqe} {p : IovPtr} (h : w.Valid p) (e : Iovec) :
    (w.mapEntry p e).deref p = e := by
  cases p with
  | null => exact h.elim
  | static i => simp [DisWqe.mapEntry, DisWqe.modify, DisWqe.deref]
  | dynamic i =>
    obtain ⟨m, hm⟩ := Option.isSome_iff_exists.mp h
    simp [DisWqe.mapEntry, DisWqe.modify, DisWqe.deref, hm]

theorem deref_mapEntry_other {w : DisWqe} {p q : IovPtr} (hne : q ≠ p) (e : Iovec) :
    (w.mapEntry p e).deref q = w.deref q := by
  cases p with
  | null => rfl
  | static i =>
    cases q with
    | static j => simp_all [DisWqe.mapEntry, DisWqe.modify, DisWqe.deref]
    | _ => rfl
  | dynamic i =>
    cases q with
    | dynamic j =>
      cases hm : w.pageMapDynamic <;> simp_all [DisWqe.mapEntry, DisWqe.modify, DisWqe.deref]
    | _ => rfl

theorem add_ne {p : IovPtr} (hp : p ≠ .null) {m n : Nat} (hmn : m ≠ n) : p.add m ≠ p.add n := by
  cases p <;> simp_all [IovPtr.add]

theorem deref_mapEntries_other {w : DisWqe} {p q : IovPtr} {es : List Iovec}
    (hq : ∀ k < es.length, q ≠ p.add k) : (w.mapEntries p es).deref q = w.deref q := by
  induction es generalizing w p with
  | nil => rfl
  | cons e es ih =>
    rw [DisWqe.mapEntries, ih]
    · exact deref_mapEntry_other (by simpa using hq 0 (by simp)) e
    · intro k hk
      simpa [Nat.add_comm] using hq (k + 1) (by simpa using hk)

theorem deref_mapEntries {w : DisWqe} {p : IovPtr} {es : List Iovec} (hv : w.Valid p) {k : Nat}
    (hk : k < es.length) : (w.mapEntries p es).deref (p.add k) = es[k] := by
  have hne : p ≠ .null := by rintro rfl; exact hv
  induction es generalizing w p k with
  | nil => simp at hk
  | cons e es ih =>
    rw [DisWqe.mapEntries]
    cases k with
    | zero =>
      rw [deref_mapEntries_other, IovPtr.add_zero, deref_mapEntry_self hv]
      · rfl
      · intro k _
        simpa using add_ne hne (show 0 ≠ 1 + k by omega)
    | succ k =>
      have hn : p.add 1 ≠ .null := by cases p <;> simp_all [IovPtr.add]
      simpa [Nat.add_comm] using
        ih (valid_add (valid_mapEntry hv) 1) (by simpa using hk) hn

end DisKverbs
