import DisKverbs.WorkQueue

namespace DisKverbs

open CellProg CircBuf

inductive PosterMove (cfg : WqCfg) (s : WqState) : WqState → Prop
  | full {req head} : s.poster = .gotHead req head → circSpace head s.tail cfg.ring.size < 1 →
      PosterMove cfg s { s with poster := .idle, rets := s.rets ++ [-42] }
  | reserve {req head} : s.poster = .gotHead req head →
      ¬ circSpace head s.tail cfg.ring.size < 1 →
      PosterMove cfg s { s with poster := .fill req head (cfg.body req) [] (s.slots head) }
  | load {req head k owned start} : s.poster = .fill req head (.load k) owned start →
      PosterMove cfg s { s with poster := .fill req head (k (s.slots head)) owned start }
  | store {req head w k owned start} : s.poster = .fill req head (.store w k) owned start →
      PosterMove cfg s { s with
        slots := Function.update s.slots head (w.put (s.slots head))
        poster := .fill req head k owned start }
  | noMem {req head k owned start} : s.poster = .fill req head (.ask k) owned start →
      PosterMove cfg s { s with poster := .fill req head (k none) owned start }
  | alloc {req head k owned start} (entries : Nat → Iovec) :
      s.poster = .fill req head (.ask k) owned start →
      PosterMove cfg s { s with
        fresh := s.fresh + 1
        poster := .fill req head (k (some ⟨s.fresh, entries⟩)) (s.fresh :: owned) start }
  | abandon {req head owned start} : s.poster = .fill req head (.ret none) owned start →
      PosterMove cfg s { s with poster := .idle, rets := s.rets ++ [-42] }
  | publish {req head used owned start} :
      s.poster = .fill req head (.ret (some used)) owned start →
      PosterMove cfg s { s with
        head := circNext head cfg.ring.size
        poster := .idle
        rets := s.rets ++ [0]
        posted := s.posted ++ [⟨req, s.slots head, used, owned, start⟩] }

theorem posterStep_move {cfg : WqCfg} {buf : Option (Nat → Iovec)} {s t : WqState}
    (h : posterStep cfg buf s = some t) : PosterMove cfg s t := by
  unfold posterStep at h
  split at h
  next => simp at h
  next hp =>
    split at h
    next hs => cases Option.some.inj h; exact .full hp hs
    next hs => cases Option.some.inj h; exact .reserve hp hs
  next hp => cases Option.some.inj h; exact .load hp
  next hp => cases Option.some.inj h; exact .store hp
  next hp =>
    split at h
    next => cases Option.some.inj h; exact .noMem hp
    next entries => cases Option.some.inj h; exact .alloc entries hp
  next hp => cases Option.some.inj h; exact .abandon hp
  next hp => cases Option.some.inj h; exact .publish hp

theorem wqStep_start {cfg : WqCfg} {s t : WqState} {req : PostReq}
    (h : wqStep cfg s (.start req) = some t) :
    s.poster = .idle ∧ t = { s with poster := .gotHead req s.head } := by
  simp only [wqStep] at h
  split at h
  next hp => exact ⟨hp, (Option.some.inj h).symm⟩
  next => simp at h

/-- The accesses of the worker, each with the place in the code it leads to. -/
inductive WorkerAccess (cfg : WqCfg) (s : WqState) : Option UInt32 → WqState → Prop
  | wake {out} : s.worker = .idle → WorkerAccess cfg s out { s with worker := .top }
  | leave {out} : s.worker = .top → s.shouldStop = true →
      WorkerAccess cfg s out { s with worker := .exited }
  | enter {out} : s.worker = .top → s.shouldStop = false →
      WorkerAccess cfg s out { s with worker := .check }
  | peek {out} : s.worker = .check → WorkerAccess cfg s out { s with worker := .gotHead s.head }
  | empty {out head} : s.worker = .gotHead head → circCnt head s.tail cfg.ring.size < 1 →
      WorkerAccess cfg s out { s with worker := .idle }
  | acquireSqe {out head} : s.worker = .gotHead head →
      ¬ circCnt head s.tail cfg.ring.size < 1 → cfg.type = .sq →
      WorkerAccess cfg s out { s with worker := .sendTop s.tail }
  | acquireRqe {out head} : s.worker = .gotHead head →
      ¬ circCnt head s.tail cfg.ring.size < 1 → cfg.type = .rq →
      WorkerAccess cfg s out { s with worker := .recvTotal s.tail }
  | sendStopped {out tail} : s.worker = .sendTop tail → s.shouldStop = true →
      WorkerAccess cfg s out { s with worker := .complete tail .respTimeoutErr }
  | sendCalled {out tail} : s.worker = .sendTop tail → s.shouldStop = false →
      WorkerAccess cfg s out { s with worker := .sendCall tail }
  | sendFailed {tail} : s.worker = .sendCall tail →
      WorkerAccess cfg s none { s with worker := .sendTop tail }
  | sent {tail n} : s.worker = .sendCall tail →
      WorkerAccess cfg s (some n) { s with worker := .complete tail .success }
  | loadTotal {out tail} : s.worker = .recvTotal tail →
      WorkerAccess cfg s out { s with worker := .recvLeft tail (s.slots tail).byteLen }
  | loadLeft {out tail total} : s.worker = .recvLeft tail total →
      WorkerAccess cfg s out { s with worker := .recvTop tail total (s.slots tail).byteLen }
  | recvStopped {out tail total left} : s.worker = .recvTop tail total left →
      s.shouldStop = true →
      WorkerAccess cfg s out { s with worker := .complete tail .respTimeoutErr }
  | recvCalled {out tail total left} : s.worker = .recvTop tail total left →
      s.shouldStop = false →
      WorkerAccess cfg s out { s with worker := .recvCall tail total left }
  | recvFailed {tail total left} : s.worker = .recvCall tail total left →
      WorkerAccess cfg s none { s with worker := .recvAgain tail total left }
  | received {tail total left n} : s.worker = .recvCall tail total left →
      WorkerAccess cfg s (some n)
        { s.setByteLen tail n with worker := .recvGot tail total left }
  | whole {out tail total left} : s.worker = .recvGot tail total left →
      left - (s.slots tail).byteLen = 0 →
      WorkerAccess cfg s out { s with worker := .recvWhole tail total }
  | part {out tail total left} : s.worker = .recvGot tail total left →
      left - (s.slots tail).byteLen ≠ 0 →
      WorkerAccess cfg s out
        { s with worker := .recvAgain tail total (left - (s.slots tail).byteLen) }
  | restore {out tail total} : s.worker = .recvWhole tail total →
      WorkerAccess cfg s out
        { s.setByteLen tail total with worker := .complete tail .success }
  | again {out tail total left} : s.worker = .recvAgain tail total left →
      WorkerAccess cfg s out { s.setByteLen tail left with worker := .recvTop tail total left }
  | complete {out tail status} : s.worker = .complete tail status →
      WorkerAccess cfg s out { s with worker := .free tail status }
  | free {out tail status} : s.worker = .free tail status →
      WorkerAccess cfg s out { s with frees := s.kfree tail, worker := .retire tail status }
  | retire {out tail status} : s.worker = .retire tail status →
      WorkerAccess cfg s out { s with
        tail := circNext tail cfg.ring.size
        worker := .top
        retired := s.retired ++ [status] }

theorem workerStep_access {cfg : WqCfg} {out : Option UInt32} {s t : WqState}
    (h : workerStep cfg out s = some t) : WorkerAccess cfg s out t := by
  unfold workerStep at h
  split at h
  next hw => cases Option.some.inj h; exact .wake hw
  next hw =>
    cases Option.some.inj h
    by_cases hs : s.shouldStop = true
    · rw [if_pos hs]
      exact .leave hw hs
    · rw [if_neg hs]
      exact .enter hw (eq_false_of_ne_true hs)
  next hw => cases Option.some.inj h; exact .peek hw
  next hw =>
    split at h
    next hc => cases Option.some.inj h; exact .empty hw hc
    next hc =>
      split at h
      next ht => cases Option.some.inj h; exact .acquireSqe hw hc ht
      next ht => cases Option.some.inj h; exact .acquireRqe hw hc ht
  next hw =>
    cases Option.some.inj h
    by_cases hs : s.shouldStop = true
    · rw [if_pos hs]
      exact .sendStopped hw hs
    · rw [if_neg hs]
      exact .sendCalled hw (eq_false_of_ne_true hs)
  next hw =>
    split at h
    next => cases Option.some.inj h; exact .sendFailed hw
    next => cases Option.some.inj h; exact .sent hw
  next hw => cases Option.some.inj h; exact .loadTotal hw
  next hw => cases Option.some.inj h; exact .loadLeft hw
  next hw =>
    cases Option.some.inj h
    by_cases hs : s.shouldStop = true
    · rw [if_pos hs]
      exact .recvStopped hw hs
    · rw [if_neg hs]
      exact .recvCalled hw (eq_false_of_ne_true hs)
  next hw =>
    split at h
    next => cases Option.some.inj h; exact .recvFailed hw
    next => cases Option.some.inj h; exact .received hw
  next tail total left hw =>
    cases Option.some.inj h
    by_cases hl : left - (s.slots tail).byteLen = 0
    · rw [if_pos hl]
      exact .whole hw hl
    · rw [if_neg hl]
      exact .part hw hl
  next hw => cases Option.some.inj h; exact .restore hw
  next hw => cases Option.some.inj h; exact .again hw
  next hw => cases Option.some.inj h; exact .complete hw
  next hw => cases Option.some.inj h; exact .free hw
  next hw => cases Option.some.inj h; exact .retire hw
  next => simp at h

/-- The tail of the slot whose transport a worker is working on. -/
def WorkerPc.consumes : WorkerPc → Option Nat
  | .sendTop tail | .sendCall tail | .recvTotal tail | .recvLeft tail _ | .recvTop tail _ _
  | .recvCall tail _ _ | .recvGot tail _ _ | .recvWhole tail _ | .recvAgain tail _ _ => some tail
  | _ => none

/-- The tail of the slot a worker holds, up to its store of tail. -/
def WorkerPc.holds : WorkerPc → Option Nat
  | .complete tail _ | .free tail _ | .retire tail _ => some tail
  | pc => pc.consumes

def WorkerPc.Works (pc : WorkerPc) (tail : Nat) : Prop :=
  pc.consumes = some tail ∨ ∃ status, pc = .complete tail status

theorem consumes_holds {pc : WorkerPc} {tail : Nat} (h : pc.consumes = some tail) :
    pc.holds = some tail := by
  cases pc <;> first | exact h | simp [WorkerPc.consumes] at h

theorem WorkerPc.Works.holds {pc : WorkerPc} {tail : Nat} (h : pc.Works tail) :
    pc.holds = some tail := by
  rcases h with h | ⟨status, rfl⟩
  · exact consumes_holds h
  · rfl

/-- The steps of the worker: most only move its program counter. -/
inductive WorkerMove (cfg : WqCfg) (s : WqState) : WqState → Prop
  | rest {pc} : s.worker = .idle ∨ s.worker = .top → pc = .top ∨ pc = .check ∨ pc = .exited →
      WorkerMove cfg s { s with worker := pc }
  | peek : s.worker = .check → WorkerMove cfg s { s with worker := .gotHead s.head }
  | empty {head} : s.worker = .gotHead head → circCnt head s.tail cfg.ring.size < 1 →
      WorkerMove cfg s { s with worker := .idle }
  | acquire {head pc} : s.worker = .gotHead head → ¬ circCnt head s.tail cfg.ring.size < 1 →
      pc.consumes = some s.tail → WorkerMove cfg s { s with worker := pc }
  | hold {tail pc} : s.worker.consumes = some tail → pc.Works tail →
      WorkerMove cfg s { s with worker := pc }
  | touch {tail pc} (n : UInt32) : s.worker.consumes = some tail → pc.Works tail →
      WorkerMove cfg s { s.setByteLen tail n with worker := pc }
  | complete {tail status} : s.worker = .complete tail status →
      WorkerMove cfg s { s with worker := .free tail status }
  | free {tail status} : s.worker = .free tail status →
      WorkerMove cfg s { s with frees := s.kfree tail, worker := .retire tail status }
  | retire {tail status} : s.worker = .retire tail status →
      WorkerMove cfg s { s with
        tail := circNext tail cfg.ring.size
        worker := .top
        retired := s.retired ++ [status] }

theorem workerStep_move {cfg : WqCfg} {out : Option UInt32} {s t : WqState}
    (h : workerStep cfg out s = some t) : WorkerMove cfg s t := by
  cases workerStep_access h with
  | wake hw => exact .rest (.inl hw) (by simp)
  | leave hw | enter hw => exact .rest (.inr hw) (by simp)
  | peek hw => exact .peek hw
  | empty hw hc => exact .empty hw hc
  | acquireSqe hw hc | acquireRqe hw hc => exact .acquire hw hc rfl
  | sendStopped hw | sent hw | recvStopped hw => exact .hold (by rw [hw]; rfl) (.inr ⟨_, rfl⟩)
  | sendCalled hw | sendFailed hw | loadTotal hw | loadLeft hw | recvCalled hw | recvFailed hw
  | whole hw | part hw => exact .hold (by rw [hw]; rfl) (.inl rfl)
  | received hw | again hw => exact .touch _ (by rw [hw]; rfl) (.inl rfl)
  | restore hw => exact .touch _ (by rw [hw]; rfl) (.inr ⟨_, rfl⟩)
  | complete hw => exact .complete hw
  | free hw => exact .free hw
  | retire hw => exact .retire hw

theorem workerStep_stop {cfg : WqCfg} {out : Option UInt32} {s t : WqState}
    (h : workerStep cfg out s = some t) :
    t.shouldStop = s.shouldStop ∧ (t.worker = .exited → s.shouldStop = true) := by
  cases workerStep_access h with
  | leave _ hs => exact ⟨rfl, fun _ => hs⟩
  | _ => exact ⟨rfl, fun he => by simp at he⟩

end DisKverbs
