import DisKverbs.WqMoves
import Mathlib.Logic.Relation

namespace DisKverbs

open CircBuf

/-- Accesses of the worker alone, with some outcomes of its transport calls. -/
def WorkerRuns (cfg : WqCfg) : WqState → WqState → Prop :=
  Relation.ReflTransGen fun q q' => ∃ out, workerStep cfg out q = some q'

/-- The worker alone can come back to the top of its loop with `n` more WQEs retired. -/
def Serves (cfg : WqCfg) (q : WqState) (n : Nat) : Prop :=
  ∃ q', WorkerRuns cfg q q' ∧ q'.worker = .top ∧ q'.shouldStop = false ∧
    q'.retired.length = q.retired.length + n

section

variable {cfg : WqCfg} {q q' : WqState} {tail : Nat} {n : Nat}

theorem workerStep_some (out : Option UInt32) (hw : q.worker ≠ .exited) :
    ∃ q', workerStep cfg out q = some q' := by
  cases hp : q.worker with
  | exited => exact absurd hp hw
  | gotHead head =>
    simp only [workerStep, hp]
    split
    next => exact ⟨_, rfl⟩
    next => split <;> exact ⟨_, rfl⟩
  | sendCall tail | recvCall tail total left =>
    simp only [workerStep, hp]
    split <;> exact ⟨_, rfl⟩
  | _ => exact ⟨_, by simp only [workerStep, hp]; rfl⟩

theorem serves_after {out : Option UInt32} (hs : workerStep cfg out q = some q')
    (hret : q'.retired = q.retired) (h : Serves cfg q' n) : Serves cfg q n := by
  obtain ⟨t, hrun, htop, hstop, hlen⟩ := h
  exact ⟨t, .head ⟨out, hs⟩ hrun, htop, hstop, by rw [hlen, hret]⟩

theorem serves_top (hw : q.worker = .top) (hs : q.shouldStop = false) : Serves cfg q 0 :=
  ⟨q, .refl, hw, hs, rfl⟩

theorem serves_retire {status : IbWcStatus} (hw : q.worker = .retire tail status)
    (hs : q.shouldStop = false) : Serves cfg q 1 := by
  have hstep : workerStep cfg none q = some { q with
      tail := circNext tail cfg.ring.size
      worker := .top
      retired := q.retired ++ [status] } := by simp only [workerStep, hw]
  exact ⟨_, .single ⟨none, hstep⟩, rfl, hs, by simp⟩

theorem serves_free {status : IbWcStatus} (hw : q.worker = .free tail status)
    (hs : q.shouldStop = false) : Serves cfg q 1 := by
  have hstep : workerStep cfg none q =
      some { q with frees := q.kfree tail, worker := .retire tail status } := by
    simp only [workerStep, hw]
  exact serves_after hstep rfl (serves_retire rfl hs)

theorem serves_complete {status : IbWcStatus} (hw : q.worker = .complete tail status)
    (hs : q.shouldStop = false) : Serves cfg q 1 := by
  have hstep : workerStep cfg none q = some { q with worker := .free tail status } := by
    simp only [workerStep, hw]
  exact serves_after hstep rfl (serves_free rfl hs)

theorem serves_sendCall (hw : q.worker = .sendCall tail) (hs : q.shouldStop = false) :
    Serves cfg q 1 := by
  have hstep : workerStep cfg (some 0) q = some { q with worker := .complete tail .success } := by
    simp only [workerStep, hw]
  exact serves_after hstep rfl (serves_complete rfl hs)

theorem serves_sendTop (hw : q.worker = .sendTop tail) (hs : q.shouldStop = false) :
    Serves cfg q 1 := by
  have hstep : workerStep cfg none q = some { q with worker := .sendCall tail } := by
    simp [workerStep, hw, hs]
  exact serves_after hstep rfl (serves_sendCall rfl hs)

theorem serves_recvWhole {total : UInt32} (hw : q.worker = .recvWhole tail total)
    (hs : q.shouldStop = false) : Serves cfg q 1 := by
  have hstep : workerStep cfg none q =
      some { q.setByteLen tail total with worker := .complete tail .success } := by
    simp only [workerStep, hw]
  exact serves_after hstep rfl (serves_complete rfl hs)

/-- A receive that delivers all that is left ends the loop of the WQE. -/
theorem serves_recvCall {total left : UInt32} (hw : q.worker = .recvCall tail total left)
    (hs : q.shouldStop = false) : Serves cfg q 1 := by
  have hcall : workerStep cfg (some left) q =
      some { q.setByteLen tail left with worker := .recvGot tail total left } := by
    simp only [workerStep, hw]
  have hgot : workerStep cfg none { q.setByteLen tail left with
      worker := .recvGot tail total left } =
      some { q.setByteLen tail left with worker := .recvWhole tail total } := by
    simp [workerStep, WqState.setByteLen]
  exact serves_after hcall rfl (serves_after hgot rfl (serves_recvWhole rfl hs))

theorem serves_recvTop {total left : UInt32} (hw : q.worker = .recvTop tail total left)
    (hs : q.shouldStop = false) : Serves cfg q 1 := by
  have hstep : workerStep cfg none q = some { q with worker := .recvCall tail total left } := by
    simp [workerStep, hw, hs]
  exact serves_after hstep rfl (serves_recvCall rfl hs)

theorem serves_recvAgain {total left : UInt32} (hw : q.worker = .recvAgain tail total left)
    (hs : q.shouldStop = false) : Serves cfg q 1 := by
  have hstep : workerStep cfg none q =
      some { q.setByteLen tail left with worker := .recvTop tail total left } := by
    simp only [workerStep, hw]
  exact serves_after hstep rfl (serves_recvTop rfl hs)

theorem serves_recvGot {total left : UInt32} (hw : q.worker = .recvGot tail total left)
    (hs : q.shouldStop = false) : Serves cfg q 1 := by
  by_cases hl : left - (q.slots tail).byteLen = 0
  · have hstep : workerStep cfg none q = some { q with worker := .recvWhole tail total } := by
      simp only [workerStep, hw, if_pos hl]
    exact serves_after hstep rfl (serves_recvWhole rfl hs)
  · have hstep : workerStep cfg none q = some { q with
        worker := .recvAgain tail total (left - (q.slots tail).byteLen) } := by
      simp only [workerStep, hw, if_neg hl]
    exact serves_after hstep rfl (serves_recvAgain rfl hs)

theorem serves_recvLeft {total : UInt32} (hw : q.worker = .recvLeft tail total)
    (hs : q.shouldStop = false) : Serves cfg q 1 := by
  have hstep : workerStep cfg none q =
      some { q with worker := .recvTop tail total (q.slots tail).byteLen } := by
    simp only [workerStep, hw]
  exact serves_after hstep rfl (serves_recvTop rfl hs)

theorem serves_recvTotal (hw : q.worker = .recvTotal tail) (hs : q.shouldStop = false) :
    Serves cfg q 1 := by
  have hstep : workerStep cfg none q =
      some { q with worker := .recvLeft tail (q.slots tail).byteLen } := by
    simp only [workerStep, hw]
  exact serves_after hstep rfl (serves_recvLeft rfl hs)

theorem serves_acquire {head : Nat} (hw : q.worker = .gotHead head)
    (hc : ¬ circCnt head q.tail cfg.ring.size < 1) (hs : q.shouldStop = false) :
    Serves cfg q 1 := by
  cases ht : cfg.type with
  | sq =>
    have hstep : workerStep cfg none q = some { q with worker := .sendTop q.tail } := by
      simp only [workerStep, hw, if_neg hc, ht]
    exact serves_after hstep rfl (serves_sendTop rfl hs)
  | rq =>
    have hstep : workerStep cfg none q = some { q with worker := .recvTotal q.tail } := by
      simp only [workerStep, hw, if_neg hc, ht]
    exact serves_after hstep rfl (serves_recvTotal rfl hs)

/-- At the top of its loop the worker finds an entry whenever the ring has one. -/
theorem serves_one (hw : q.worker = .top) (hc : ¬ circCnt q.head q.tail cfg.ring.size < 1)
    (hs : q.shouldStop = false) : Serves cfg q 1 := by
  have henter : workerStep cfg none q = some { q with worker := .check } := by
    simp [workerStep, hw, hs]
  have hpeek : workerStep cfg none { q with worker := .check } =
      some { q with worker := .gotHead q.head } := rfl
  exact serves_after henter rfl (serves_after hpeek rfl (serves_acquire rfl hc hs))

/-- Wherever the worker is, it can come to the top of its loop. -/
theorem serves_some (hw : q.worker ≠ .exited) (hs : q.shouldStop = false) :
    ∃ n, Serves cfg q n := by
  have hidle (hidle : q.worker = .idle) : Serves cfg q 0 := by
    have hstep : workerStep cfg none q = some { q with worker := .top } := by
      simp only [workerStep, hidle]
    exact serves_after hstep rfl (serves_top rfl hs)
  have hgot (q : WqState) (hs : q.shouldStop = false) (head : Nat)
      (hg : q.worker = .gotHead head) : ∃ n, Serves cfg q n := by
    by_cases hc : circCnt head q.tail cfg.ring.size < 1
    · have hempty : workerStep cfg none q = some { q with worker := .idle } := by
        simp only [workerStep, hg, if_pos hc]
      have hwake : workerStep cfg none { q with worker := .idle } =
          some { q with worker := .top } := rfl
      exact ⟨0, serves_after hempty rfl (serves_after hwake rfl (serves_top rfl hs))⟩
    · exact ⟨1, serves_acquire hg hc hs⟩
  cases hpc : q.worker with
  | idle => exact ⟨0, hidle hpc⟩
  | top => exact ⟨0, serves_top hpc hs⟩
  | check =>
    have hstep : workerStep cfg none q = some { q with worker := .gotHead q.head } := by
      simp only [workerStep, hpc]
    obtain ⟨n, hn⟩ := hgot { q with worker := .gotHead q.head } hs q.head rfl
    exact ⟨n, serves_after hstep rfl hn⟩
  | gotHead head => exact hgot q hs head hpc
  | sendTop => exact ⟨1, serves_sendTop hpc hs⟩
  | sendCall => exact ⟨1, serves_sendCall hpc hs⟩
  | recvTotal => exact ⟨1, serves_recvTotal hpc hs⟩
  | recvLeft => exact ⟨1, serves_recvLeft hpc hs⟩
  | recvTop => exact ⟨1, serves_recvTop hpc hs⟩
  | recvCall => exact ⟨1, serves_recvCall hpc hs⟩
  | recvGot => exact ⟨1, serves_recvGot hpc hs⟩
  | recvWhole => exact ⟨1, serves_recvWhole hpc hs⟩
  | recvAgain => exact ⟨1, serves_recvAgain hpc hs⟩
  | complete => exact ⟨1, serves_complete hpc hs⟩
  | free => exact ⟨1, serves_free hpc hs⟩
  | retire => exact ⟨1, serves_retire hpc hs⟩
  | exited => exact absurd hpc hw

end

end DisKverbs
