import DisKverbs.CqMoves

namespace DisKverbs

open CircBuf RingMachine StepSystem

variable {ι : Type} [DecidableEq ι] {r : RingSize} {s t : CqState ι}

def HolderPc.ring : HolderPc → ProdPc
  | .enter => .idle
  | .gotHead head => .gotHead head
  | .fill head _ => .filling head
  | .unlock _ => .idle

def CqState.prod (s : CqState ι) : ProdPc :=
  match s.holder with
  | some (_, _, pc) => pc.ring
  | none => .idle

def PollerPc.ring : PollerPc → ConsPc
  | .idle => .idle
  | .loop _ _ => .idle
  | .gotHead _ _ head _ => .gotHead head
  | .copy _ _ tail _ => .holding tail

/-- A completion queue as a ring: the lock makes its producers one. -/
def CqState.ring (s : CqState ι) : RingState DisCqe :=
  ⟨s.head, s.tail, s.slots, s.prod, s.poller.ring, s.inserted.map (·.cqe), s.taken⟩

omit [DecidableEq ι] in
theorem holder_prod {i : ι} {call : CqeCall} {pc : HolderPc}
    (h : s.holder = some (i, call, pc)) : s.ring.prod = pc.ring := by
  simp only [CqState.ring, CqState.prod, h]

theorem CqMove.ring {a : CqAct ι} (h : CqMove r s a t) :
    t.ring = s.ring ∨ RingStep r id s.ring t.ring := by
  cases h with
  | wait _ _ => exact .inl rfl
  | lock hh _ =>
    have hp : s.prod = .idle := by simp only [CqState.prod, hh]
    exact .inl (by simp only [CqState.ring, hp]; rfl)
  | loadHead hh => exact .inr (.loadHead (holder_prod hh))
  | full hh hs => exact .inr (.full (holder_prod hh) hs)
  | reserve hh hs => exact .inr (.reserve (holder_prod hh) hs)
  | @load i call head k hh =>
    have hp : s.prod = .filling head := holder_prod hh
    exact .inl (by simp only [CqState.ring, hp]; rfl)
  | @store i call head w k hh =>
    have hp : s.prod = .filling head := holder_prod hh
    have hr : RingStep r id s.ring _ := .fill (w.put (s.slots head)) hp
    simp only [CqState.ring, hp] at hr
    exact .inr (by simp only [CqState.ring, hp]; exact hr)
  | @ask i call head k hh =>
    have hp : s.prod = .filling head := holder_prod hh
    exact .inl (by simp only [CqState.ring, hp]; rfl)
  | @insert i call head hh =>
    have hp : s.ring.prod = .filling head := holder_prod hh
    have hr : RingStep r id s.ring _ := .publish hp
    exact .inr (by simpa [CqState.ring, CqState.prod, HolderPc.ring] using hr)
  | @unlock i call ret hh =>
    have hp : s.prod = .idle := holder_prod hh
    exact .inl (by simp only [CqState.ring, hp]; rfl)
  | poll hp => exact .inl (by simp only [CqState.ring, hp]; rfl)
  | peek hp _ => exact .inr (.peekHead (by simp only [CqState.ring, hp]; rfl))
  | finish hp _ => exact .inl (by simp only [CqState.ring, hp]; rfl)
  | empty hp hs => exact .inr (.empty (by simp only [CqState.ring, hp]; rfl) hs)
  | acquire hp hs => exact .inr (.acquire (by simp only [CqState.ring, hp]; rfl) hs)
  | copy hp => exact .inl (by simp only [CqState.ring, hp]; rfl)
  | @release numWc got tail wc hp =>
    have hc : s.ring.cons = .holding tail := by simp only [CqState.ring, hp]; rfl
    exact .inr (.release hc)

theorem reach_cqRing {ok : CqState ι → CqAct ι → Prop} (h : Reach CqInit (Acts (cqStep r) ok) s) :
    RingInv r id s.ring := by
  apply reach_ringInv
  apply h.project CqState.ring
  · rintro s rfl
    exact ⟨rfl, rfl, rfl, rfl, rfl, rfl⟩
  · rintro s t _ _ ⟨a, _, hs⟩
    exact (cqStep_move hs).ring

omit [DecidableEq ι] in
theorem taken_le_inserted (hr : RingInv r id s.ring) : s.taken ≤ s.inserted.length := by
  have hle := hr.taken_le
  simp only [CqState.ring, List.length_map] at hle
  exact hle

end DisKverbs
