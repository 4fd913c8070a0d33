import DisKverbs.WqMoves
import DisKverbs.RingRuns

namespace DisKverbs

open CircBuf RingMachine StepSystem

def PosterPc.ring : PosterPc → ProdPc
  | .idle => .idle
  | .gotHead _ head => .gotHead head
  | .fill _ head _ _ _ => .filling head

def WorkerPc.ring (pc : WorkerPc) : ConsPc :=
  match pc.holds with
  | some tail => .holding tail
  | none =>
    match pc with
    | .gotHead head => .gotHead head
    | _ => .idle

def WqState.ring (s : WqState) : RingState DisWqe :=
  ⟨s.head, s.tail, s.slots, s.poster.ring, s.worker.ring, s.posted.map (·.wqe), s.retired.length⟩

/-- The worker changes no field of a slot but `byte_len`. -/
def DisWqe.eraseLen (w : DisWqe) : DisWqe := { w with byteLen := 0 }

theorem ring_holds {pc : WorkerPc} {tail : Nat} (h : pc.holds = some tail) :
    pc.ring = .holding tail := by
  unfold WorkerPc.ring
  rw [h]

section

variable {cfg : WqCfg} {s t : WqState}

theorem PosterMove.ring (h : PosterMove cfg s t) :
    t.ring = s.ring ∨ RingStep cfg.ring DisWqe.eraseLen s.ring t.ring := by
  cases h with
  | full hp hs => exact .inr (.full (by rw [WqState.ring, hp]; rfl) hs)
  | reserve hp hs => exact .inr (.reserve (by rw [WqState.ring, hp]; rfl) hs)
  | load hp => exact .inl (by simp only [WqState.ring, hp, PosterPc.ring])
  | @store req head w k owned start hp =>
    have hf : s.ring.prod = .filling head := by rw [WqState.ring, hp]; rfl
    have hr : RingStep cfg.ring DisWqe.eraseLen s.ring _ := .fill (w.put (s.slots head)) hf
    rw [WqState.ring, hp] at hr
    exact .inr (by rw [WqState.ring, hp]; exact hr)
  | noMem hp => exact .inl (by simp only [WqState.ring, hp, PosterPc.ring])
  | alloc _ hp => exact .inl (by simp only [WqState.ring, hp, PosterPc.ring])
  | abandon hp => exact .inr (.abandon (by rw [WqState.ring, hp]; rfl))
  | @publish req head used owned start hp =>
    have hf : s.ring.prod = .filling head := by rw [WqState.ring, hp]; rfl
    have hr : RingStep cfg.ring DisWqe.eraseLen s.ring _ := .publish hf
    exact .inr (by simpa [WqState.ring, PosterPc.ring] using hr)

theorem WorkerMove.ring (h : WorkerMove cfg s t) :
    t.ring = s.ring ∨ RingStep cfg.ring DisWqe.eraseLen s.ring t.ring := by
  cases h with
  | @rest pc hw hpc =>
    have hs : s.worker.ring = .idle := by rcases hw with hw | hw <;> rw [hw] <;> rfl
    have ht : pc.ring = .idle := by rcases hpc with rfl | rfl | rfl <;> rfl
    exact .inl (by simp only [WqState.ring, hs, ht])
  | peek hw => exact .inr (.peekHead (by rw [WqState.ring, hw]; rfl))
  | empty hw hs => exact .inr (.empty (by rw [WqState.ring, hw]; rfl) hs)
  | @acquire head pc hw hs hpc =>
    have hg : s.ring.cons = .gotHead head := by rw [WqState.ring, hw]; rfl
    have hr : RingStep cfg.ring DisWqe.eraseLen s.ring _ := .acquire hg hs
    exact .inr (by simpa only [WqState.ring, ring_holds (consumes_holds hpc)] using hr)
  | hold hs hpc =>
    have hold := ring_holds (consumes_holds hs)
    exact .inl (by simp only [WqState.ring, hold, ring_holds hpc.holds])
  | @touch tail pc n hs hpc =>
    have hold : s.worker.ring = .holding tail := ring_holds (consumes_holds hs)
    have hr : RingStep cfg.ring DisWqe.eraseLen s.ring _ :=
      .touch { s.slots tail with byteLen := n } hold rfl
    exact .inr (by
      simpa only [WqState.ring, WqState.setByteLen, hold, ring_holds hpc.holds] using hr)
  | @complete tail status hw => exact .inl (by simp only [WqState.ring, hw]; rfl)
  | @free tail status hw => exact .inl (by simp only [WqState.ring, hw]; rfl)
  | @retire tail status hw =>
    have hold : s.ring.cons = .holding tail := by rw [WqState.ring, hw]; rfl
    have hr : RingStep cfg.ring DisWqe.eraseLen s.ring _ := .release hold
    have ht : WorkerPc.top.ring = .idle := rfl
    exact .inr (by
      simpa only [WqState.ring, List.length_append, List.length_singleton, ht] using hr)

/-- Every step of a work queue is a step of its ring or leaves the ring alone. -/
theorem wqStep_ring {a : WqAct} (h : wqStep cfg s a = some t) :
    t.ring = s.ring ∨ RingStep cfg.ring DisWqe.eraseLen s.ring t.ring := by
  cases a with
  | start req =>
    obtain ⟨hp, rfl⟩ := wqStep_start h
    exact .inr (.loadHead (by rw [WqState.ring, hp]; rfl))
  | poster buf => exact (posterStep_move h).ring
  | worker out => exact (workerStep_move h).ring
  | stop => cases Option.some.inj h; exact .inl rfl

theorem reach_wqRing {ok : WqState → WqAct → Prop} (h : Reach WqInit (Acts (wqStep cfg) ok) s) :
    RingInv cfg.ring DisWqe.eraseLen s.ring := by
  apply reach_ringInv
  apply h.project WqState.ring
  · rintro s rfl
    exact ⟨rfl, rfl, rfl, rfl, rfl, rfl⟩
  · rintro s t _ _ ⟨a, _, hs⟩
    exact wqStep_ring hs

/-- Head and tail of a queue count its accepted and its retired WQEs. -/
structure WqBounds (cfg : WqCfg) (s : WqState) : Prop where
  le : s.retired.length ≤ s.posted.length
  room : s.posted.length < s.retired.length + cfg.ring.size
  head : s.head = s.posted.length % cfg.ring.size
  tail : s.tail = s.retired.length % cfg.ring.size

theorem wqBounds (hr : RingInv cfg.ring DisWqe.eraseLen s.ring) : WqBounds cfg s := by
  have hle := hr.taken_le
  have hroom := hr.room
  have hhead := hr.head_eq
  simp only [WqState.ring, List.length_map] at hle hroom hhead
  exact ⟨hle, hroom, hhead, hr.tail_eq⟩

end

end DisKverbs
