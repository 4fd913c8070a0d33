import DisKverbs.WholeMessages
import DisKverbs.CompletionStage

namespace DisKverbs

open CellProg CircBuf RingMachine StepSystem

/-- One when the message of the oldest WQE has been transferred. -/
def WorkerPc.transferred : WorkerPc → Nat
  | .recvGot _ _ _ | .recvWhole _ _ | .complete _ _ | .free _ _ | .retire _ _ => 1
  | _ => 0

/-- One when the completion of the oldest WQE has been reported. -/
def WorkerPc.reported : WorkerPc → Nat
  | .free _ _ | .retire _ _ => 1
  | _ => 0

def WqState.transfers (s : WqState) : Nat := s.retired.length + s.worker.transferred

def WqState.reports (s : WqState) : Nat := s.retired.length + s.worker.reported

/-- The slot whose message an action transfers. -/
def WqState.moving (s : WqState) : WqAct → Option Nat
  | .worker (some _) =>
    match s.worker with
    | .sendCall tail => some tail
    | .recvCall tail _ _ => some tail
    | _ => none
  | _ => none

/-- The slot that an action reports as completed with success. -/
def WqState.completing (s : WqState) : WqAct → Option Nat
  | .worker _ =>
    match s.worker with
    | .complete tail .success => some tail
    | _ => none
  | _ => none

/-- What a step does to the messages of a queue: nothing but posts, the transfer of the
oldest one, or the report of its completion. -/
inductive Progress (s : WqState) (a : WqAct) (t : WqState) : Prop
  | post (es : List Posted) : s.moving a = none → s.completing a = none →
      t.posted = s.posted ++ es → t.transfers = s.transfers → t.reports = s.reports →
      Progress s a t
  | transfer (tail : Nat) : s.moving a = some tail → s.completing a = none →
      s.worker.holds = some tail → s.transfers = s.retired.length → t.posted = s.posted →
      t.transfers = s.transfers + 1 → t.reports = s.reports → Progress s a t
  | report (tail : Nat) : s.moving a = none → s.completing a = some tail →
      s.worker.holds = some tail → s.reports = s.retired.length → t.posted = s.posted →
      t.transfers = s.transfers → t.reports = s.reports + 1 → Progress s a t

section

variable {cfg : WqCfg} {s t : WqState}

theorem transferred_le (pc : WorkerPc) : pc.reported ≤ pc.transferred := by
  cases pc <;> simp [WorkerPc.reported, WorkerPc.transferred]

theorem reports_le (s : WqState) : s.reports ≤ s.transfers := by
  have := transferred_le s.worker
  simp only [WqState.reports, WqState.transfers]
  omega

theorem progress_keep {a : WqAct} (hm : s.moving a = none) (hc : s.completing a = none)
    (hp : t.posted = s.posted) (hr : t.retired = s.retired)
    (ht : t.worker.transferred = s.worker.transferred)
    (hd : t.worker.reported = s.worker.reported) : Progress s a t := by
  refine .post [] hm hc (by rw [hp, List.append_nil]) ?_ ?_
  · rw [WqState.transfers, WqState.transfers, hr, ht]
  · rw [WqState.reports, WqState.reports, hr, hd]

theorem moving_none {out : Option UInt32} (hs : ∀ tail, s.worker ≠ .sendCall tail)
    (hr : ∀ tail total left, s.worker ≠ .recvCall tail total left) :
    s.moving (.worker out) = none := by
  unfold WqState.moving
  split
  next he =>
    split
    next tail hw => exact absurd hw (hs tail)
    next tail total left hw => exact absurd hw (hr tail total left)
    next => rfl
  next => rfl

theorem completing_none {out : Option UInt32}
    (h : ∀ tail status, s.worker ≠ .complete tail status) : s.completing (.worker out) = none := by
  simp only [WqState.completing]
  split
  next tail hw => exact absurd hw (h tail _)
  next => rfl

theorem workerStep_progress (hv : WholeInv s) {out : Option UInt32}
    (h : workerStep cfg out s = some t) : Progress s (.worker out) t := by
  have hwh := hv.whole
  have keep {pc : WorkerPc} {out : Option UInt32} (hw : s.worker = pc)
      (hm : s.moving (.worker out) = none) (hn : ∀ tail status, pc ≠ .complete tail status)
      (hp : t.posted = s.posted) (hr : t.retired = s.retired)
      (ht : t.worker.transferred = pc.transferred) (hd : t.worker.reported = pc.reported) :
      Progress s (.worker out) t := by
    have hc : s.completing (.worker out) = none := completing_none (by rw [hw]; exact hn)
    exact progress_keep hm hc hp hr (by rw [hw]; exact ht) (by rw [hw]; exact hd)
  cases workerStep_access h with
  | wake hw | enter hw | peek hw | empty hw | acquireSqe hw | acquireRqe hw | sendCalled hw
  | loadTotal hw | loadLeft hw | recvCalled hw | whole hw | restore hw | again hw | free hw =>
    exact keep hw (moving_none (by simp [hw]) (by simp [hw])) (by simp) rfl rfl rfl rfl
  | leave _ hs | sendStopped _ hs | recvStopped _ hs => simp [hv.runs] at hs
  | sendFailed hw | recvFailed hw => exact keep hw rfl (by simp) rfl rfl rfl rfl
  | @sent tail _ hw | @received tail _ _ _ hw =>
    refine .transfer tail (by simp [WqState.moving, hw]) (completing_none (by simp [hw]))
      (by rw [hw]; rfl) ?_ rfl ?_ ?_
    · rw [WqState.transfers, hw]; rfl
    · rw [WqState.transfers, WqState.transfers, hw]; rfl
    · rw [WqState.reports, WqState.reports, hw]; rfl
  | part hw hmore =>
    rw [hw] at hwh
    exact absurd (by rw [hwh.2, UInt32.sub_self]) hmore
  | @complete _ tail status hw =>
    rw [hw] at hwh
    cases hwh
    refine .report tail (moving_none (by simp [hw]) (by simp [hw]))
      (by simp [WqState.completing, hw]) (by rw [hw]; rfl) ?_ rfl ?_ ?_
    · rw [WqState.reports, hw]; rfl
    · rw [WqState.transfers, WqState.transfers, hw]; rfl
    · rw [WqState.reports, WqState.reports, hw]; rfl
  | retire hw =>
    refine .post [] (moving_none (by simp [hw]) (by simp [hw])) (completing_none (by simp [hw]))
      (List.append_nil _).symm ?_ ?_
    · rw [WqState.transfers, WqState.transfers, hw]
      simp [WorkerPc.transferred]
    · rw [WqState.reports, WqState.reports, hw]
      simp [WorkerPc.reported]

/-- Every step of a queue that only sees whole messages makes one of three kinds of progress. -/
theorem wqStep_progress (hv : WholeInv s) {a : WqAct} (h : wqStep cfg s a = some t) :
    Progress s a t := by
  by_cases ha : ∃ out, a = .worker out
  · obtain ⟨out, rfl⟩ := ha
    exact workerStep_progress hv h
  · obtain ⟨hw, hr, es, hp⟩ := wqStep_other (not_exists.mp ha) h
    refine .post es ?_ ?_ hp ?_ ?_
    · cases a <;> first | rfl | exact absurd ⟨_, rfl⟩ ha
    · cases a <;> first | rfl | exact absurd ⟨_, rfl⟩ ha
    · rw [WqState.transfers, WqState.transfers, hw, hr]
    · rw [WqState.reports, WqState.reports, hw, hr]

end

end DisKverbs
