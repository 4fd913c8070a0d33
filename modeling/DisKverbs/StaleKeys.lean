import DisKverbs.MrLifetime

namespace DisKverbs

open CircBuf StepSystem

/-- Every non-null entry is an MR that was registered and not yet deregistered. -/
def TableLive (s : MrState) : Prop := ∀ i p, s.pd.mrList i = some p → p ∈ s.live

/-- Every post that carries the key of a deregistered MR fails. -/
def StalePostsFail (lib : SciLib) (s : MrState) : Prop :=
  ∀ type kmalloc wq wr, (∃ g ∈ wr.visited, g.lkey ∈ s.dead) →
    (disQpPostOne lib type s.table kmalloc wq wr).ret ≠ 0

/-- An empty WR element on a stale key. -/
def staleWr (key : UInt32) : IbWr := ⟨0, [⟨0, 0, key⟩], 1, by simp⟩

theorem sgeCount_empty (t : MrTable) (key : UInt32) : sgeCount t ⟨0, 0, key⟩ = 1 := by
  unfold sgeCount
  split
  · rfl
  · rw [userSgeMap_pageCount]
    simp

theorem MrInv.stale_post {lib : SciLib} {s : MrState} (hi : MrInv s) {key : UInt32}
    (hkey : key ∈ s.dead) :
    (disQpPostOne lib .sq s.table none (emptyWq 2) (staleWr key)).ret = 0 := by
  obtain ⟨p, hp, _⟩ := hi.retired key hkey
  have hv : (staleWr key).visited = [⟨0, 0, key⟩] := rfl
  have ht : iovTotal s.table (staleWr key).visited = 1 := by
    simp [hv, iovTotal, sgeCount_empty]
  rw [disQpPostOne_zero_iff]
  refine ⟨by decide, ?_, by rw [ht]; decide, fun hlt => ?_⟩
  · simp [hv, MrTable.lookup, MrState.table, hp]
  · rw [ht] at hlt
    exact absurd hlt (by decide)

/-- The table is sound, and stale keys are refused, exactly until the first
deregistration. -/
theorem mrTable_sound_iff (lib : SciLib) (s : MrState)
    (h : Reach MrInit (Acts (mrStep lib) anyAct) s) :
    (TableLive s ↔ s.dead = []) ∧ (StalePostsFail lib s ↔ s.dead = []) := by
  have hi := reach_mrInv h
  refine ⟨⟨fun ht => ?_, hi.kept⟩, ⟨fun hf => ?_, fun hd => ?_⟩⟩
  · by_contra hne
    obtain ⟨key, hkey⟩ := List.exists_mem_of_ne_nil _ hne
    obtain ⟨p, hp, hn⟩ := hi.retired key hkey
    exact hn (ht _ p hp)
  · by_contra hne
    obtain ⟨key, hkey⟩ := List.exists_mem_of_ne_nil _ hne
    exact hf .sq none (emptyWq 2) (staleWr key) ⟨_, List.mem_singleton_self _, hkey⟩
      (hi.stale_post hkey)
  · rintro type kmalloc wq wr ⟨g, _, hg⟩
    simp [hd] at hg

def freshMrState : MrState := ⟨emptyPd, emptyKernel, [], [], fun _ => emptyWq 2⟩

def oneMrState : MrState :=
  freshMrState.register (disRegUserMr twoPageEnv 0x1100 0x1000 0x7100 emptyPd emptyKernel)

theorem mrTable_sound_oneMr :
    (TableLive oneMrState ↔ oneMrState.dead = []) ∧
      (StalePostsFail sciLib64 oneMrState ↔ oneMrState.dead = []) :=
  mrTable_sound_iff sciLib64 oneMrState
    ((reach_start (s := freshMrState) ⟨rfl, rfl, rfl⟩).next
      ⟨.reg twoPageEnv 0x1100 0x1000 0x7100, trivial, rfl⟩)

/-- Register, deregister, post: the key still names the freed MR. -/
theorem mrTable_stale : ∃ s t,
    runActs (mrStep sciLib64) freshMrState
      [.reg twoPageEnv 0x1100 0x1000 0x7100, .dereg 0] = some s ∧
    s.pd.mrList 0 = some 0 ∧ 0 ∉ s.live ∧ s.dead = [0] ∧
    (disQpPostOne sciLib64 .sq s.table none (s.wq .sq) crossingWr).ret = 0 ∧
    mrStep sciLib64 s (.post .sq none crossingWr) = some t ∧ (t.wq .sq).head = 1 :=
  ⟨_, _, rfl, rfl, by decide, rfl, by decide, rfl, by decide⟩

end DisKverbs
