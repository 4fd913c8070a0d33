import DisKverbs.WqHistory

namespace DisKverbs

open CellProg CircBuf RingMachine StepSystem

/-- The worker is never told to stop, and a receive that succeeds brings a whole message. -/
def WholeAct (s : WqState) : WqAct → Prop
  | .stop => False
  | .worker (some n) => ∀ tail total left, s.worker = .recvCall tail total left →
      n = (s.slots tail).byteLen
  | _ => True

/-- What a worker that only sees whole messages has in its variables. -/
def WorkerPc.Whole (slots : Nat → DisWqe) : WorkerPc → Prop
  | .recvLeft tail total | .recvWhole tail total => total = (slots tail).byteLen
  | .recvTop tail total left | .recvCall tail total left | .recvGot tail total left
  | .recvAgain tail total left => total = (slots tail).byteLen ∧ left = (slots tail).byteLen
  | .complete _ status | .free _ status | .retire _ status => status = .success
  | .exited => False
  | _ => True

/-- The slot in the worker's hands is the oldest accepted WQE, its length included. -/
structure WholeInv (s : WqState) : Prop where
  runs : s.shouldStop = false
  done : ∀ status ∈ s.retired, status = .success
  whole : s.worker.Whole s.slots
  slot : ∀ (tail : Nat), s.worker.holds = some tail →
    (s.posted[s.retired.length]?).map (·.wqe) = some (s.slots tail)

section

variable {cfg : WqCfg} {s t : WqState}

theorem setByteLen_self (s : WqState) (tail : Nat) :
    s.setByteLen tail (s.slots tail).byteLen = s := by
  rw [WqState.setByteLen, Function.update_eq_self]

theorem whole_congr {pc : WorkerPc} {slots slots' : Nat → DisWqe} (h : pc.Whole slots)
    (hs : ∀ tail, pc.holds = some tail → slots' tail = slots tail) : pc.Whole slots' := by
  cases pc with
  | recvLeft tail _ | recvTop tail _ _ | recvCall tail _ _ | recvGot tail _ _
  | recvWhole tail _ | recvAgain tail _ _ =>
    simpa only [WorkerPc.Whole, hs tail rfl] using h
  | _ => exact h

theorem whole_touch (hv : WholeInv s) {tail : Nat} {n : UInt32} {pc : WorkerPc}
    (hs : s.worker.holds = some tail) (hn : n = (s.slots tail).byteLen)
    (hpc : pc.holds = some tail) (hw : pc.Whole s.slots) :
    WholeInv { s.setByteLen tail n with worker := pc } := by
  rw [hn, setByteLen_self]
  refine ⟨hv.runs, hv.done, hw, fun j hj => ?_⟩
  have he : j = tail := Option.some.inj (hj.symm.trans hpc)
  rw [he]
  exact hv.slot tail hs

theorem whole_hold (hv : WholeInv s) {tail : Nat} {pc : WorkerPc}
    (hs : s.worker.holds = some tail) (hpc : pc.holds = some tail) (hw : pc.Whole s.slots) :
    WholeInv { s with worker := pc } := by
  have h := whole_touch hv hs rfl hpc hw
  rwa [setByteLen_self] at h

theorem whole_rest (hv : WholeInv s) {pc : WorkerPc} (hpc : pc.holds = none)
    (hw : pc.Whole s.slots) : WholeInv { s with worker := pc } :=
  ⟨hv.runs, hv.done, hw, fun j hj => by simp [hpc] at hj⟩

/-- The worker acquires the oldest accepted WQE as it was published. -/
theorem acquired_slot (hr : RingInv cfg.ring DisWqe.eraseLen s.ring) {head : Nat}
    (hw : s.worker = .gotHead head) (hc : ¬ circCnt head s.tail cfg.ring.size < 1) :
    (s.posted[s.retired.length]?).map (·.wqe) = some (s.slots s.tail) := by
  have hg : s.ring.cons = .gotHead head := by rw [WqState.ring, hw]; rfl
  obtain ⟨_, hlt⟩ := (hr.step (.acquire hg hc)).cons_hold s.tail rfl
  have hlt' : s.retired.length < s.posted.length := by simpa [WqState.ring] using hlt
  have hsame := hr.same s.retired.length s.posted[s.retired.length].wqe le_rfl
    (fun _ => by simp [hg, ConsPc.isHolding])
    (by simp [WqState.ring, List.getElem?_eq_getElem hlt'])
  have htail : s.tail = s.retired.length % cfg.ring.size := hr.tail_eq
  rw [List.getElem?_eq_getElem hlt', htail]
  exact congrArg some hsame.symm

theorem workerStep_whole (hr : RingInv cfg.ring DisWqe.eraseLen s.ring) (hv : WholeInv s)
    {out : Option UInt32} (ha : WholeAct s (.worker out))
    (h : workerStep cfg out s = some t) : WholeInv t := by
  have hwh := hv.whole
  cases workerStep_access h with
  | wake | enter | peek | empty => exact whole_rest hv rfl trivial
  | leave _ hs | sendStopped _ hs | recvStopped _ hs => simp [hv.runs] at hs
  | acquireSqe hw hc | acquireRqe hw hc =>
    have hslot := acquired_slot hr hw hc
    exact ⟨hv.runs, hv.done, trivial, fun j hj => Option.some.inj hj ▸ hslot⟩
  | sendCalled hw | sendFailed hw => exact whole_hold hv (by rw [hw]; rfl) rfl trivial
  | sent hw | loadTotal hw => exact whole_hold hv (by rw [hw]; rfl) rfl rfl
  | loadLeft hw =>
    rw [hw] at hwh
    exact whole_hold hv (by rw [hw]; rfl) rfl ⟨hwh, rfl⟩
  | recvCalled hw | recvFailed hw | complete hw =>
    rw [hw] at hwh
    exact whole_hold hv (by rw [hw]; rfl) rfl hwh
  | received hw =>
    rw [hw] at hwh
    exact whole_touch hv (by rw [hw]; rfl) (ha _ _ _ hw) rfl hwh
  | whole hw =>
    rw [hw] at hwh
    exact whole_hold hv (by rw [hw]; rfl) rfl hwh.1
  | part hw hmore =>
    -- the receive got all it asked for, so nothing is left
    rw [hw] at hwh
    exact absurd (by rw [hwh.2, UInt32.sub_self]) hmore
  | restore hw =>
    rw [hw] at hwh
    exact whole_touch hv (by rw [hw]; rfl) hwh rfl rfl
  | again hw =>
    rw [hw] at hwh
    exact whole_touch hv (by rw [hw]; rfl) hwh.2 rfl hwh
  | free hw =>
    rw [hw] at hwh
    exact ⟨hv.runs, hv.done, hwh, fun j hj => hv.slot j (by rw [hw]; exact hj)⟩
  | retire hw =>
    rw [hw] at hwh
    refine ⟨hv.runs, ?_, trivial, fun j hj => by simp [WorkerPc.holds, WorkerPc.consumes] at hj⟩
    intro st hst
    rcases List.mem_append.mp hst with hst | hst
    · exact hv.done st hst
    · exact (List.mem_singleton.mp hst).trans hwh

theorem posterStep_whole (hr : RingInv cfg.ring DisWqe.eraseLen s.ring) (hv : WholeInv s)
    (h : PosterMove cfg s t) : WholeInv t := by
  have hheld : ∀ tail, s.worker.holds = some tail → t.slots tail = s.slots tail :=
    fun tail hw => h.held_slot hr hw
  cases h with
  | store hp =>
    refine ⟨hv.runs, hv.done, whole_congr hv.whole hheld, fun j hj => ?_⟩
    exact (hv.slot j hj).trans (congrArg some (hheld j hj).symm)
  | publish hp =>
    refine ⟨hv.runs, hv.done, hv.whole, fun j hj => ?_⟩
    have hlt := (worker_slot hr hj).2
    simp only [List.getElem?_append_left hlt]
    exact hv.slot j hj
  | _ => exact ⟨hv.runs, hv.done, hv.whole, hv.slot⟩

theorem reach_wholeInv (h : Reach WqInit (Acts (wqStep cfg) WholeAct) s) : WholeInv s := by
  apply h.invariant
  · rintro s rfl
    exact ⟨rfl, by simp, trivial, fun j hj => by simp [WorkerPc.holds, WorkerPc.consumes] at hj⟩
  · rintro s t hrs hv ⟨a, ha, hs⟩
    have hr := reach_wqRing hrs
    cases a with
    | start req =>
      obtain ⟨_, rfl⟩ := wqStep_start hs
      exact ⟨hv.runs, hv.done, hv.whole, hv.slot⟩
    | poster buf => exact posterStep_whole hr hv (posterStep_move hs)
    | worker out => exact workerStep_whole hr hv ha hs
    | stop => exact ha.elim

end

end DisKverbs
