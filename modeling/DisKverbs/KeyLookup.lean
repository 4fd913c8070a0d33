import DisKverbs.SgeLimits
import DisKverbs.StaleKeys

namespace DisKverbs

open CircBuf StepSystem

/-- The key that a registration hands out. -/
def returnedKey (r : Option Nat × DisPd × Kernel) : List UInt32 :=
  r.1.toList.map fun p => (r.2.2.mr p).lkey

/-- The keys handed out by a PD, one action later. -/
def issuedKeys (s : MrState) (a : MrAct) (keys : List UInt32) : List UInt32 :=
  match a with
  | .reg env start length va => returnedKey (disRegUserMr env start length va s.pd s.k) ++ keys
  | .getDma kzalloc => returnedKey (disGetDmaMr kzalloc s.pd s.k) ++ keys
  | _ => keys

abbrev KeyState := MrState × List UInt32

def keyStep (lib : SciLib) : KeyState → MrAct → Option KeyState :=
  recording (mrStep lib) issuedKeys

def KeyInit (p : KeyState) : Prop := MrInit p.1 ∧ p.2 = []

/-- `mr_list` as C indexes it: past its last entry lies other memory of the PD. -/
def MrState.tableWith (s : MrState) (beyond : Nat → Option Nat) : MrTable :=
  ⟨fun i => if i < disMrMax then s.pd.mrList i else beyond i, s.k.mr⟩

/-- The indices at which the first loop reads `mr_list`: it ends at the first NULL. -/
def MrTable.lookups (t : MrTable) : List IbSge → List Nat
  | [] => []
  | g :: gs => g.lkey.toNat :: if (t.lookup g.lkey).isSome then t.lookups gs else []

def postOneLookups (t : MrTable) (wq : DisWq) (wr : IbWr) : List Nat :=
  if circSpace wq.head wq.tail wq.wqeMax < 1 then [] else t.lookups wr.visited

/-- Only the slot at head, which holds no WQE, may have changed. -/
structure SameQueue (wq wq' : DisWq) : Prop where
  head : wq'.head = wq.head
  tail : wq'.tail = wq.tail
  slots : ∀ i, i ≠ wq.head → wq'.buf i = wq.buf i
  status : wq'.wqFlag = wq.wqFlag ∧ wq'.wqState = wq.wqState

/-- What a post is to do about keys: stay inside the table, and refuse a WR with a key that was
never handed out. -/
structure KeysChecked (lib : SciLib) (type : DisWqType) (t : MrTable) (keys : List UInt32)
    (kmalloc : Option PageMap) (wq : DisWq) (wr : IbWr) : Prop where
  inTable : ∀ i ∈ postOneLookups t wq wr, i < disMrMax
  refused : (∃ g ∈ wr.sges, g.lkey ∉ keys) →
    (disQpPostOne lib type t kmalloc wq wr).ret ≠ 0 ∧
      SameQueue wq (disQpPostOne lib type t kmalloc wq wr).wq

/-- The first key that was not handed out lies inside the table. -/
def FirstKeysInTable (keys : List UInt32) (gs : List IbSge) : Prop :=
  ∀ before g after, gs = before ++ g :: after → (∀ g' ∈ before, g'.lkey ∈ keys) →
    g.lkey.toNat < disMrMax

/-- A WR is refused for its size: too many entries, or no memory for them. -/
def TooLarge (t : MrTable) (kmalloc : Option PageMap) (wr : IbWr) : Prop :=
  disMaxIovlen < iovTotal t wr.visited ∨ disSgePerWqe < iovTotal t wr.visited ∧ kmalloc = none

/-- The table of a PD holds an MR at the keys it handed out and nothing else. -/
structure KeyInv (p : KeyState) : Prop where
  issued : ∀ key, key ∈ p.2 ↔ key.toNat < p.1.pd.mrC
  used : ∀ i < p.1.pd.mrC, (p.1.pd.mrList i).isSome

section

variable {lib : SciLib} {s : MrState} {keys : List UInt32}

theorem KeyInv.register (hi : KeyInv (s, keys)) {r : Option Nat × DisPd × Kernel}
    (h : Registers s.pd s.k r) : KeyInv (s.register r, returnedKey r ++ keys) := by
  cases h with
  | failed _ _ => exact ⟨hi.issued, hi.used⟩
  | @added k' mr hmax hkey hf hm =>
    simp only [disMrMax] at hmax
    have hlt : s.pd.mrC < 2 ^ 32 := lt_trans hmax (by decide)
    have hnew : (mr.lkey).toNat = s.pd.mrC := by
      rw [hkey]
      exact UInt32.toNat_ofNat_of_lt' hlt
    refine ⟨?_, ?_⟩
    · intro key
      have hmem : key ∈ returnedKey (some s.k.fresh, s.pd.addMr s.k.fresh, k') ++ keys ↔
          key = mr.lkey ∨ key ∈ keys := by simp [returnedKey, hm]
      rw [hmem, hi.issued key]
      show _ ↔ key.toNat < s.pd.mrC + 1
      constructor
      · rintro (rfl | hk)
        · omega
        · simp only at hk
          omega
      · intro hk
        rcases Nat.lt_or_ge key.toNat s.pd.mrC with hlt | hge
        · exact .inr hlt
        · exact .inl (UInt32.toNat_inj.mp (by omega))
    · intro i hlt'
      show (Function.update s.pd.mrList s.pd.mrC (some s.k.fresh) i).isSome
      by_cases he : i = s.pd.mrC
      · simp [he]
      · rw [Function.update_of_ne he]
        have hlt'' : i < s.pd.mrC + 1 := hlt'
        exact hi.used i (by show i < s.pd.mrC; omega)

theorem KeyInv.step {p q : KeyState} (hi : KeyInv p) {a : MrAct}
    (h : keyStep lib p a = some q) : KeyInv q := by
  obtain ⟨s, keys⟩ := p
  obtain ⟨t, keys'⟩ := q
  obtain ⟨hs, hn⟩ := recording_some.mp h
  simp only at hs hn
  subst hn
  cases a with
  | reg env start length va =>
    cases Option.some.inj hs
    exact hi.register (disRegUserMr_registers ..)
  | getDma kzalloc =>
    cases Option.some.inj hs
    exact hi.register (disGetDmaMr_registers ..)
  | dereg p =>
    simp only [mrStep] at hs
    split at hs
    next => cases Option.some.inj hs; exact ⟨hi.issued, hi.used⟩
    next => simp at hs
  | post type kmalloc wr =>
    cases Option.some.inj hs
    exact ⟨hi.issued, hi.used⟩

theorem reach_keyInv {ok : KeyState → MrAct → Prop} {p : KeyState}
    (h : Reach KeyInit (Acts (keyStep lib) ok) p) : KeyInv p := by
  apply h.invariant
  · rintro ⟨s, keys⟩ ⟨⟨hp, _, _⟩, hk⟩
    simp only at hp hk
    subst hk
    refine ⟨?_, ?_⟩
    · intro key
      simp [hp, disAllocPd, disMrIni]
    · intro i hi
      simp [hp, disAllocPd, disMrIni] at hi
  · rintro p q _ hi ⟨a, _, hs⟩
    exact hi.step hs

end

section

variable {lib : SciLib} {s : MrState} {keys : List UInt32} {beyond : Nat → Option Nat}

theorem KeyInv.inTable (hi : KeyInv (s, keys)) (hm : MrInv s) {key : UInt32} (hk : key ∈ keys) :
    key.toNat < disMrMax := Nat.lt_of_lt_of_le ((hi.issued key).mp hk) hm.count_le

/-- Inside the table the keys that were handed out are those that resolve. -/
theorem KeyInv.lookup (hi : KeyInv (s, keys)) (hm : MrInv s) {key : UInt32}
    (hlt : key.toNat < disMrMax) : ((s.tableWith beyond).lookup key).isSome ↔ key ∈ keys := by
  have hentry : ((s.tableWith beyond).lookup key).isSome ↔ (s.pd.mrList key.toNat).isSome := by
    simp [MrTable.lookup, MrState.tableWith, hlt]
  rw [hentry, hi.issued key]
  constructor
  · intro hsome
    by_contra hge
    rw [hm.unused key.toNat (Nat.le_of_not_lt hge)] at hsome
    cases hsome
  · exact hi.used key.toNat

theorem firstKeys_cons {g : IbSge} {gs : List IbSge} : FirstKeysInTable keys (g :: gs) ↔
    g.lkey.toNat < disMrMax ∧ (g.lkey ∈ keys → FirstKeysInTable keys gs) := by
  constructor
  · intro h
    refine ⟨h [] g gs rfl (by simp), ?_⟩
    intro hk before g' after he hbefore
    refine h (g :: before) g' after (by rw [he]; rfl) ?_
    intro g'' hg''
    rcases List.mem_cons.mp hg'' with rfl | hg''
    · exact hk
    · exact hbefore g'' hg''
  · rintro ⟨hg, hgs⟩ before g' after he hbefore
    cases before with
    | nil =>
      cases he
      exact hg
    | cons b before =>
      cases he
      exact hgs (hbefore _ (by simp)) before g' after rfl
        fun g'' hg'' => hbefore g'' (by simp [hg''])

theorem KeyInv.lookups_iff (hi : KeyInv (s, keys)) (hm : MrInv s) (gs : List IbSge) :
    (∀ i ∈ (s.tableWith beyond).lookups gs, i < disMrMax) ↔ FirstKeysInTable keys gs := by
  induction gs with
  | nil =>
    refine ⟨fun _ before g after he => ?_, fun _ => by simp [MrTable.lookups]⟩
    simp at he
  | cons g gs ih =>
    rw [firstKeys_cons, MrTable.lookups, List.forall_mem_cons]
    refine and_congr_right fun hlt => ?_
    by_cases hk : g.lkey ∈ keys
    · rw [if_pos ((hi.lookup hm hlt).mpr hk), ih]
      simp [hk]
    · rw [if_neg (mt (hi.lookup hm hlt).mp hk)]
      simp [hk]

theorem first_unissued {gs : List IbSge} (h : FirstKeysInTable keys gs)
    (hu : ∃ g ∈ gs, g.lkey ∉ keys) :
    ∃ g ∈ gs, g.lkey ∉ keys ∧ g.lkey.toNat < disMrMax := by
  induction gs with
  | nil => simp at hu
  | cons g gs ih =>
    obtain ⟨hlt, hrest⟩ := firstKeys_cons.mp h
    by_cases hk : g.lkey ∈ keys
    · obtain ⟨g', hg', hu'⟩ := hu
      have hmem : g' ∈ gs := by
        rcases List.mem_cons.mp hg' with rfl | hg'
        · exact absurd hk hu'
        · exact hg'
      obtain ⟨g'', hg'', hu''⟩ := ih (hrest hk) ⟨g', hmem, hu'⟩
      exact ⟨g'', List.mem_cons_of_mem g hg'', hu''⟩
    · exact ⟨g, by simp, hk, hlt⟩

theorem postOne_refused {opcode : IbWcOpcode} {t : MrTable} {kmalloc : Option PageMap} {wq : DisWq}
    {wr : IbWr} (h : (postOne lib opcode t kmalloc wq wr).ret ≠ 0) :
    SameQueue wq (postOne lib opcode t kmalloc wq wr).wq := by
  unfold postOne at h ⊢
  split
  next => exact ⟨rfl, rfl, fun _ _ => rfl, rfl, rfl⟩
  next hs =>
    rw [if_neg hs] at h
    split
    next => exact ⟨rfl, rfl, fun _ hi => Function.update_of_ne hi _ _, rfl, rfl⟩
    next he => simp [he] at h

/-- Keys are checked as far as the table goes: the first one that was not handed out has to lie
inside it, and among the SGEs that are visited. -/
theorem disQpPostOne_keys_iff (lib : SciLib) (s : MrState) (keys : List UInt32)
    (h : Reach KeyInit (Acts (keyStep lib) anyAct) (s, keys)) (beyond : Nat → Option Nat)
    (type : DisWqType) (kmalloc : Option PageMap) (wq : DisWq) (wr : IbWr) :
    KeysChecked lib type (s.tableWith beyond) keys kmalloc wq wr ↔
      circSpace wq.head wq.tail wq.wqeMax < 1 ∨ FirstKeysInTable keys wr.visited ∧
        ((∀ g ∈ wr.sges, g.lkey ∈ keys) ∨ (∃ g ∈ wr.visited, g.lkey ∉ keys) ∨
          TooLarge (s.tableWith beyond) kmalloc wr) := by
  have hi := reach_keyInv h
  have hm : MrInv s := reach_mrInv (reach_recorded h (fun p hp => hp.1) fun _ _ _ => trivial)
  have hsame : (disQpPostOne lib type (s.tableWith beyond) kmalloc wq wr).ret ≠ 0 →
      SameQueue wq (disQpPostOne lib type (s.tableWith beyond) kmalloc wq wr).wq := by
    rw [disQpPostOne_eq]
    exact postOne_refused
  by_cases hfull : circSpace wq.head wq.tail wq.wqeMax < 1
  · refine ⟨fun _ => .inl hfull, fun _ => ⟨?_, fun _ => ?_⟩⟩
    · simp [postOneLookups, hfull]
    · have hne : (disQpPostOne lib type (s.tableWith beyond) kmalloc wq wr).ret ≠ 0 :=
        fun hz => (disQpPostOne_zero_iff.mp hz).1 hfull
      exact ⟨hne, hsame hne⟩
  · constructor
    · intro hc
      have hfirst : FirstKeysInTable keys wr.visited := by
        have hin := hc.inTable
        rw [postOneLookups, if_neg hfull] at hin
        exact (hi.lookups_iff hm wr.visited).mp hin
      refine .inr ⟨hfirst, ?_⟩
      by_contra hnot
      obtain ⟨hsges, hnot⟩ := not_or.mp hnot
      obtain ⟨hvisited, hsmall⟩ := not_or.mp hnot
      obtain ⟨hcount, hstore⟩ := not_or.mp hsmall
      push Not at hsges hvisited hstore
      refine (hc.refused hsges).1 (disQpPostOne_zero_iff.mpr ⟨hfull, ?_, by omega, ?_⟩)
      · intro g hg
        exact (hi.lookup hm (hi.inTable hm (hvisited g hg))).mpr (hvisited g hg)
      · exact fun hlt => Option.isSome_iff_ne_none.mpr (hstore hlt)
    · intro hcond
      obtain ⟨hfirst, hrest⟩ := hcond.resolve_left hfull
      refine ⟨?_, ?_⟩
      · rw [postOneLookups, if_neg hfull]
        exact (hi.lookups_iff hm wr.visited).mpr hfirst
      · rintro ⟨g, hg, hu⟩
        have hne : (disQpPostOne lib type (s.tableWith beyond) kmalloc wq wr).ret ≠ 0 := by
          intro hz
          obtain ⟨_, hkeys, hcount, hstore⟩ := disQpPostOne_zero_iff.mp hz
          rcases hrest with hall | hvisited | hbig | ⟨hlt, hnone⟩
          · exact hu (hall g hg)
          · obtain ⟨g', hg', hu', hlt⟩ := first_unissued hfirst hvisited
            exact hu' ((hi.lookup hm hlt).mp (hkeys g' hg'))
          · omega
          · have := hstore hlt
            rw [hnone] at this
            cases this
        exact ⟨hne, hsame hne⟩

end

/-- An SGE whose key is the number of entries of the table. -/
def beyondWr : IbWr := ⟨7, [⟨0x7200, 8, 100⟩], 1, by decide⟩

theorem disQpPostOne_keys_fresh :
    KeysChecked sciLib64 .sq (freshMrState.tableWith fun _ => some 0) [] none (emptyWq 2) beyondWr ↔
      circSpace 0 0 2 < 1 ∨ FirstKeysInTable [] beyondWr.visited ∧
        ((∀ g ∈ beyondWr.sges, g.lkey ∈ ([] : List UInt32)) ∨
          (∃ g ∈ beyondWr.visited, g.lkey ∉ ([] : List UInt32)) ∨
          TooLarge (freshMrState.tableWith fun _ => some 0) none beyondWr) :=
  disQpPostOne_keys_iff sciLib64 freshMrState []
    (reach_start ⟨⟨rfl, rfl, rfl⟩, rfl⟩) (fun _ => some 0) .sq none (emptyWq 2) beyondWr

/-- The lookup leaves the table, and a post with a key that no PD hands out succeeds. -/
theorem beyond_looked_up :
    Reach KeyInit (Acts (keyStep sciLib64) anyAct) (freshMrState, []) ∧
      postOneLookups (freshMrState.tableWith fun _ => some 0) (emptyWq 2) beyondWr = [disMrMax] ∧
      ¬ KeysChecked sciLib64 .sq (freshMrState.tableWith fun _ => some 0) [] none (emptyWq 2)
        beyondWr := by
  refine ⟨reach_start ⟨⟨rfl, rfl, rfl⟩, rfl⟩, by decide, fun h => ?_⟩
  have hin := h.inTable 100 (by decide)
  revert hin
  decide

end DisKverbs
