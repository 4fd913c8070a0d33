import DisKverbs.MapSpec

namespace DisKverbs

open CellProg

variable {A : Option PageMap → Prop} (lib : SciLib) (t : MrTable)

instance : Inhabited DisMr := ⟨⟨0, fun _ => default, 0, 0, 0, 0, false⟩⟩

def MrTable.mrOf (ibsge : IbSge) : DisMr := (t.lookup ibsge.lkey).getD default

def sgeMapOf (ibsge : IbSge) : DisSgeMap :=
  if (t.mrOf ibsge).isDma then dmaSgeMap else userSgeMap (t.mrOf ibsge) ibsge

/-- What the first loop adds to `iovlen` for an SGE. -/
def sgeCount (ibsge : IbSge) : Nat :=
  if (t.mrOf ibsge).isDma then 1 else (userSgeMap (t.mrOf ibsge) ibsge).pageCount.toNat

def iovTotal (gs : List IbSge) : Nat := (gs.map (sgeCount t)).sum

def DisWqe.bumpIovlen (w : DisWqe) (n : Nat) : DisWqe :=
  { w with sciMsg := { w.sciMsg with iovlen := (w.sciMsg.iovlen + n) % 2 ^ lib.iovlenBits } }

def DisWqe.span (w : DisWqe) (i : Nat) (ibsge : IbSge) : DisWqe :=
  if (t.mrOf ibsge).isDma then
    (WqeStore.put (.iov (.static i))
      (w.mapEntry (.static i) ⟨ibsge.addr, ibsge.length.toUInt64⟩)).bumpIovlen lib 1
  else w.bumpIovlen lib (userSgeMap (t.mrOf ibsge) ibsge).pageCount.toNat

def DisWqe.spanAll : DisWqe → Nat → List IbSge → DisWqe
  | w, _, [] => w
  | w, i, g :: gs => (w.span lib t i g).spanAll (i + 1) gs

theorem addIovlen_runs {n : Nat} {w w' : DisWqe} {u : Unit} :
    Runs A (addIovlen lib n) w u w' ↔ w' = w.bumpIovlen lib n := by
  simp only [addIovlen, runs_bind, runs_load, runs_store, Cell.put]
  constructor
  · rintro ⟨_, _, ⟨rfl, rfl⟩, rfl⟩; rfl
  · rintro rfl; exact ⟨_, _, ⟨rfl, rfl⟩, rfl⟩

theorem spanSge_runs {i : Nat} {g : IbSge} {w w' : DisWqe} {r : Option DisSgeMap} :
    Runs A (spanSge lib i g (t.lookup g.lkey)) w r w' ↔
      if (t.lookup g.lkey).isSome then r = some (sgeMapOf t g) ∧ w' = w.span lib t i g
      else r = none ∧ w' = w := by
  cases hl : t.lookup g.lkey with
  | none => simp [spanSge]
  | some mr =>
    have hm : t.mrOf g = mr := by simp [MrTable.mrOf, hl]
    simp only [spanSge, sgeMapOf, DisWqe.span, hm, Option.isSome_some, ↓reduceIte]
    split
    · simp only [runs_bind, runs_pure, storeEntry_runs, runs_store, addIovlen_runs, Cell.put]
      constructor
      · rintro ⟨_, _, rfl, _, _, rfl, _, _, rfl, rfl, rfl⟩; exact ⟨rfl, rfl⟩
      · rintro ⟨rfl, rfl⟩; exact ⟨(), _, rfl, (), _, rfl, (), _, rfl, rfl, rfl⟩
    · simp only [runs_bind, runs_pure, addIovlen_runs]
      constructor
      · rintro ⟨_, _, rfl, rfl, rfl⟩; exact ⟨rfl, rfl⟩
      · rintro ⟨rfl, rfl⟩; exact ⟨(), _, rfl, rfl, rfl⟩

theorem spanSges_some {i : Nat} {gs : List IbSge} {w w' : DisWqe} {sges : List DisSgeMap}
    (h : Runs A (spanSges lib t i gs) w (some sges) w') :
    (∀ g ∈ gs, (t.lookup g.lkey).isSome) ∧ sges = gs.map (sgeMapOf t) ∧
      w' = w.spanAll lib t i gs := by
  induction gs generalizing i w sges with
  | nil =>
    obtain ⟨he, rfl⟩ := runs_pure.mp h
    cases he
    exact ⟨by simp, rfl, rfl⟩
  | cons g gs ih =>
    rw [spanSges, runs_bind] at h
    obtain ⟨first, w₁, hg, h⟩ := h
    rw [spanSge_runs] at hg
    split at hg
    next hl =>
      obtain ⟨rfl, rfl⟩ := hg
      simp only [runs_bind] at h
      obtain ⟨rest, w₂, hr, h⟩ := h
      cases rest with
      | none => exact absurd (runs_pure.mp h).1 (by simp)
      | some rest =>
        obtain ⟨he, rfl⟩ := runs_pure.mp h
        cases he
        obtain ⟨hall, rfl, rfl⟩ := ih hr
        exact ⟨by simpa [hl] using hall, rfl, rfl⟩
    next =>
      obtain ⟨rfl, rfl⟩ := hg
      exact absurd (runs_pure.mp h).1 (by simp)

theorem spanSges_none {i : Nat} {gs : List IbSge} {w w' : DisWqe}
    (h : Runs A (spanSges lib t i gs) w none w') : ∃ g ∈ gs, t.lookup g.lkey = none := by
  induction gs generalizing i w w' with
  | nil => exact absurd (runs_pure.mp h).1 (by simp)
  | cons g gs ih =>
    rw [spanSges, runs_bind] at h
    obtain ⟨first, w₁, hg, h⟩ := h
    rw [spanSge_runs] at hg
    split at hg
    next hl =>
      obtain ⟨rfl, rfl⟩ := hg
      simp only [runs_bind] at h
      obtain ⟨rest, w₂, hr, h⟩ := h
      cases rest with
      | none =>
        obtain ⟨g', hg', hn⟩ := ih hr
        exact ⟨g', List.mem_cons_of_mem g hg', hn⟩
      | some rest => exact absurd (runs_pure.mp h).1 (by simp)
    next hl => exact ⟨g, by simp, by simpa using hl⟩

@[simp] theorem span_iovlen (w : DisWqe) (i : Nat) (g : IbSge) :
    (w.span lib t i g).sciMsg.iovlen = (w.sciMsg.iovlen + sgeCount t g) % 2 ^ lib.iovlenBits := by
  unfold DisWqe.span sgeCount
  split <;> simp [DisWqe.bumpIovlen, WqeStore.put, DisWqe.mapEntry]

@[simp] theorem span_pageMapDynamic (w : DisWqe) (i : Nat) (g : IbSge) :
    (w.span lib t i g).pageMapDynamic = w.pageMapDynamic := by
  unfold DisWqe.span
  split <;> rfl

@[simp] theorem spanAll_pageMapDynamic (w : DisWqe) (i : Nat) (gs : List IbSge) :
    (w.spanAll lib t i gs).pageMapDynamic = w.pageMapDynamic := by
  induction gs generalizing w i with
  | nil => rfl
  | cons g gs ih => rw [DisWqe.spanAll, ih, span_pageMapDynamic]

theorem spanAll_iovlen {w : DisWqe} (i : Nat) (gs : List IbSge)
    (hw : w.sciMsg.iovlen < 2 ^ lib.iovlenBits) :
    (w.spanAll lib t i gs).sciMsg.iovlen =
      (w.sciMsg.iovlen + iovTotal t gs) % 2 ^ lib.iovlenBits := by
  induction gs generalizing w i with
  | nil => simp [DisWqe.spanAll, iovTotal, Nat.mod_eq_of_lt hw]
  | cons g gs ih =>
    rw [DisWqe.spanAll, ih _ (by rw [span_iovlen]; exact Nat.mod_lt _ (Nat.two_pow_pos _)), span_iovlen]
    simp [iovTotal, Nat.add_assoc]

theorem spanAll_user {w : DisWqe} (i : Nat) {gs : List IbSge}
    (hu : ∀ g ∈ gs, (t.mrOf g).isDma = false) :
    ∃ n, w.spanAll lib t i gs = { w with sciMsg := { w.sciMsg with iovlen := n } } := by
  induction gs generalizing w i with
  | nil => exact ⟨w.sciMsg.iovlen, rfl⟩
  | cons g gs ih =>
    have hg := hu g (by simp)
    obtain ⟨n, hn⟩ := ih (w := w.span lib t i g) (i + 1) (fun g hm => hu g (by simp [hm]))
    exact ⟨n, by rw [DisWqe.spanAll, hn]; simp [DisWqe.span, hg, DisWqe.bumpIovlen]⟩

theorem chooseStore_true {w w' : DisWqe} (h : Runs A chooseStore w true w') :
    w.sciMsg.iovlen ≤ disMaxIovlen ∧
      ((w.sciMsg.iovlen ≤ disSgePerWqe ∧ w' = WqeStore.put (.iov (.static 0)) w) ∨
        ∃ buf, A (some buf) ∧ disSgePerWqe < w.sciMsg.iovlen ∧
          w' = WqeStore.put (.iov (.dynamic 0)) (WqeStore.put (.pageMapDynamic (some buf)) w)) := by
  simp only [chooseStore, runs_bind, runs_load] at h
  obtain ⟨_, _, ⟨rfl, rfl⟩, h⟩ := h
  split at h
  next => exact absurd (runs_pure.mp h).1 (by simp)
  next hmax =>
    refine ⟨by omega, ?_⟩
    split at h
    next hs =>
      simp only [runs_bind, runs_store, runs_pure, Cell.put] at h
      obtain ⟨_, _, rfl, _, rfl⟩ := h
      exact .inl ⟨hs, rfl⟩
    next hs =>
      simp only [runs_bind, runs_ask, runs_store, runs_load, Cell.put] at h
      obtain ⟨buf, _, ⟨hbuf, rfl⟩, _, _, rfl, _, _, ⟨rfl, rfl⟩, h⟩ := h
      cases buf with
      | none => exact absurd (runs_pure.mp h).1 (by simp)
      | some buf =>
        simp only [WqeStore.put, Option.isNone_some, Bool.false_eq_true, ↓reduceIte, runs_bind,
          runs_store, runs_pure, Cell.put] at h
        obtain ⟨_, _, rfl, _, rfl⟩ := h
        exact .inr ⟨buf, hbuf, by omega, rfl⟩

theorem chooseStore_false {w w' : DisWqe} (h : Runs A chooseStore w false w') :
    disMaxIovlen < w.sciMsg.iovlen ∨ (disSgePerWqe < w.sciMsg.iovlen ∧ A none) := by
  simp only [chooseStore, runs_bind, runs_load] at h
  obtain ⟨_, _, ⟨rfl, rfl⟩, h⟩ := h
  split at h
  next hmax => exact .inl hmax
  next =>
    split at h
    next hs =>
      simp only [runs_bind, runs_store, runs_pure] at h
      obtain ⟨_, _, _, he, _⟩ := h
      simp at he
    next hs =>
      simp only [runs_bind, runs_ask, runs_store, runs_load, Cell.put] at h
      obtain ⟨buf, _, ⟨hbuf, rfl⟩, _, _, rfl, _, _, ⟨rfl, rfl⟩, h⟩ := h
      cases buf with
      | none => exact .inr ⟨by omega, hbuf⟩
      | some buf =>
        simp only [WqeStore.put, Option.isNone_some, Bool.false_eq_true, ↓reduceIte, runs_bind,
          runs_store, runs_pure] at h
        obtain ⟨_, _, _, he, _⟩ := h
        simp at he

end DisKverbs
