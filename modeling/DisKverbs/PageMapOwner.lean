import DisKverbs.WqSpec
import Mathlib.Data.List.Nodup

namespace DisKverbs

open CellProg CircBuf RingMachine StepSystem

def PosterPc.owned : PosterPc → List Nat
  | .fill _ _ _ owned _ => owned
  | _ => []

/-- The page map a consumed WQE releases, under the index of that WQE. -/
def Posted.release (e : Posted) (i : Nat) : Option (Nat × Nat) :=
  e.wqe.pageMapDynamic.map fun m => (i, m.id)

def freedBy (posted : List Posted) (n : Nat) : List (Nat × Nat) :=
  (List.range n).filterMap fun i => posted[i]?.bind fun e => e.release i

/-- Between its `kfree` and its store of tail the worker has freed one WQE more than it retired. -/
def WorkerPc.freed : WorkerPc → Nat
  | .retire _ _ => 1
  | _ => 0

def WqState.freed (s : WqState) : Nat := s.retired.length + s.worker.freed

/-- No WR that fits the static map is accepted into a slot whose dynamic pointer is set. -/
def CleanSlots (s : WqState) : WqAct → Prop
  | .poster _ => ∀ req head used owned start,
      s.poster = .fill req head (.ret (some used)) owned start →
      iovTotal req.table req.wr.visited ≤ disSgePerWqe → (s.slots head).pageMapDynamic = none
  | _ => True

/-- An accepted WQE points to a page map of its own or, with the static map, to none. -/
structure Posted.Owns (e : Posted) : Prop where
  own : ∀ m, e.wqe.pageMapDynamic = some m → m.id ∈ e.owned
  static : ∀ i, e.wqe.sciMsg.iov = .static i → e.wqe.pageMapDynamic = none

structure OwnInv (s : WqState) : Prop where
  owns : ∀ e ∈ s.posted, e.Owns
  nodup : (s.posted.flatMap Posted.owned ++ s.poster.owned).Nodup
  lt_fresh : ∀ id ∈ s.posted.flatMap Posted.owned ++ s.poster.owned, id < s.fresh
  frees : s.frees = freedBy s.posted s.freed

@[simp] theorem modify_mapId (w : DisWqe) (p : IovPtr) (f : Iovec → Iovec) :
    (w.modify p f).pageMapDynamic.map PageMap.id = w.pageMapDynamic.map PageMap.id := by
  cases p with
  | dynamic i => cases h : w.pageMapDynamic <;> simp [DisWqe.modify, h]
  | _ => rfl

@[simp] theorem mapEntries_mapId (w : DisWqe) (p : IovPtr) (es : List Iovec) :
    (w.mapEntries p es).pageMapDynamic.map PageMap.id = w.pageMapDynamic.map PageMap.id := by
  induction es generalizing w p with
  | nil => rfl
  | cons e es ih => rw [DisWqe.mapEntries, ih, DisWqe.mapEntry, modify_mapId]

theorem postOneBody_owns {cfg : WqCfg} {e : Posted}
    (h : Runs (Owned e.owned) (cfg.body e.req) e.start (some e.used) e.wqe)
    (hclean : iovTotal e.req.table e.req.wr.visited ≤ disSgePerWqe →
      e.wqe.pageMapDynamic = none) : e.Owns := by
  obtain ⟨_, _, _, w₁, hm, hw⟩ := postOneBody_some _ _ h
  have hid : e.wqe.pageMapDynamic.map PageMap.id = w₁.pageMapDynamic.map PageMap.id := by
    rw [hw, mapEntries_mapId]
  have hiov : e.wqe.sciMsg.iov = w₁.sciMsg.iov := by rw [hw, mapEntries_sciMsg]
  rcases hm with ⟨hle, _⟩ | ⟨buf, _, hbuf, rfl⟩
  · have hnone := hclean hle
    exact ⟨fun m hs => by simp [hnone] at hs, fun _ _ => hnone⟩
  · refine ⟨fun m hs => ?_, fun i hs => ?_⟩
    · rw [hs] at hid
      have he : m.id = buf.id := by simpa [WqeStore.put] using hid
      exact he ▸ hbuf buf rfl
    · simp [hiov, WqeStore.put] at hs

theorem freedBy_append {posted : List Posted} {n : Nat} (hn : n ≤ posted.length) (e : Posted) :
    freedBy (posted ++ [e]) n = freedBy posted n := by
  apply List.filterMap_congr
  intro i hi
  rw [List.getElem?_append_left (by have := List.mem_range.mp hi; omega)]

theorem freedBy_succ {posted : List Posted} {n : Nat} {e : Posted} (he : posted[n]? = some e) :
    freedBy posted (n + 1) = freedBy posted n ++ (e.release n).toList := by
  rw [freedBy, List.range_succ, List.filterMap_append, ← freedBy]
  cases hr : e.release n <;> simp [he, hr]

theorem mem_freedBy {posted : List Posted} {n i id : Nat} (h : (i, id) ∈ freedBy posted n) :
    i < n ∧ ∃ e m, posted[i]? = some e ∧ e.wqe.pageMapDynamic = some m ∧ m.id = id := by
  obtain ⟨j, hj, hs⟩ := List.mem_filterMap.mp h
  obtain ⟨e, he, hr⟩ := Option.bind_eq_some_iff.mp hs
  obtain ⟨m, hm, heq⟩ := Option.map_eq_some_iff.mp hr
  obtain ⟨rfl, rfl⟩ := Prod.mk.inj heq
  exact ⟨List.mem_range.mp hj, e, m, he, hm, rfl⟩

theorem owned_unique {posted : List Posted} (hd : (posted.flatMap Posted.owned).Nodup)
    {i j id : Nat} {e e' : Posted} (hi : posted[i]? = some e) (hj : posted[j]? = some e')
    (he : id ∈ e.owned) (he' : id ∈ e'.owned) : i = j := by
  have disjoint := List.pairwise_iff_getElem.mp (List.nodup_flatMap.mp hd).2
  obtain ⟨hli, rfl⟩ := List.getElem?_eq_some_iff.mp hi
  obtain ⟨hlj, rfl⟩ := List.getElem?_eq_some_iff.mp hj
  rcases Nat.lt_trichotomy i j with hlt | heq | hgt
  · exact (disjoint i j hli hlj hlt he he').elim
  · exact heq
  · exact (disjoint j i hlj hli hgt he' he).elim

/-- Page maps of different WQEs are different, so no `kfree` releases one twice. -/
theorem freedBy_nodup {posted : List Posted} (ho : ∀ e ∈ posted, e.Owns)
    (hd : (posted.flatMap Posted.owned).Nodup) (n : Nat) :
    ((freedBy posted n).map Prod.snd).Nodup := by
  induction n with
  | zero => simp [freedBy]
  | succ n ih =>
    cases he : posted[n]? with
    | none =>
      rw [freedBy, List.range_succ, List.filterMap_append, ← freedBy]
      simpa [he] using ih
    | some e =>
      rw [freedBy_succ he]
      cases hm : e.wqe.pageMapDynamic with
      | none => simpa [Posted.release, hm] using ih
      | some m =>
        have hmem := (ho e (List.mem_of_getElem? he)).own m hm
        simp only [Posted.release, hm, Option.map_some, Option.toList_some, List.map_append,
          List.map_cons, List.map_nil]
        refine List.nodup_append.mpr ⟨ih, by simp, ?_⟩
        intro id hid id' hid' heq
        rw [List.mem_singleton.mp hid'] at heq
        obtain ⟨⟨i, id⟩, hf, rfl⟩ := List.mem_map.mp hid
        obtain ⟨hlt, e₁, m₁, he₁, hm₁, rfl⟩ := mem_freedBy hf
        have hmem₁ := (ho e₁ (List.mem_of_getElem? he₁)).own m₁ hm₁
        rw [show m₁.id = m.id from heq] at hmem₁
        exact absurd (owned_unique hd he₁ he hmem₁ hmem) (by omega)

end DisKverbs
