import DisKverbs.OneWorker
import DisKverbs.HeldMaps

namespace DisKverbs

open CircBuf RingMachine StepSystem

/-- The queues of a QP, as `dis_create_qp` sets them up. -/
structure QpCfg where
  lib : SciLib
  ring : DisWqType → RingSize
  ibqp : Nat
  sciMsq : DisWqType → Nat

def QpCfg.wq (cfg : QpCfg) (type : DisWqType) : WqCfg :=
  ⟨cfg.lib, cfg.ring type, type, cfg.ibqp, cfg.sciMsq type⟩

/-- A QP with its two rings, and where each thread made for them is in `dis_wq_consume_all`.
The `worker` and `shouldStop` of a ring are those of the thread that used it last. -/
structure QpRings where
  life : QpLife
  ring : DisWqType → WqState
  pc : DisWqType → Nat → WorkerPc

/-- A ring in the eyes of thread `i`. -/
def QpRings.seen (s : QpRings) (type : DisWqType) (i : Nat) : WqState :=
  { s.ring type with
    worker := s.pc type i
    shouldStop := ((s.life.wq type).tasks i).shouldStop }

def QpRings.setRing (s : QpRings) (type : DisWqType) (w : WqState) : QpRings :=
  { s with ring := Function.update s.ring type w }

/-- Where a thread goes on that is done with an access of `dis_wq_consume_all`. -/
def WorkerPc.next : WorkerPc → TaskPc
  | .idle => .wait
  | .exited => .tearDown
  | _ => .drain

/-- Thread `i` has made an access of `dis_wq_consume_all` that left `w`. -/
def QpRings.drained (s : QpRings) (type : DisWqType) (i : Nat) (w : WqState) : QpRings :=
  { life := s.life.setWq type ((s.life.wq type).setTask i w.worker.next)
    ring := Function.update s.ring type w
    pc := Function.update s.pc type (Function.update (s.pc type) i w.worker) }

def PosterPc.isIdle : PosterPc → Bool
  | .idle => true
  | _ => false

/-- `dis_destroy_qp` has been called. -/
def QpCall.ending : QpCall → Bool
  | .destroy .. | .destroyed => true
  | _ => false

inductive QpRingsAct
  | life (a : QpAct)
  | drain (type : DisWqType) (i : Nat) (out : Option UInt32)
  | post (type : DisWqType) (req : PostReq)
  | poster (type : DisWqType) (buf : Option (Nat → Iovec))

/-- A QP with everything that is done to its rings. No post is under way when the QP is
destroyed, and none follows. -/
def qpRingsStep (p : SciIf) (cfg : QpCfg) (s : QpRings) : QpRingsAct → Option QpRings
  | .life .destroy =>
    if (s.ring .sq).poster.isIdle && (s.ring .rq).poster.isIdle then
      (qpStep p s.life .destroy).map fun life => { s with life := life }
    else none
  | .life (.task type i env) =>
    if ((s.life.wq type).tasks i).pc = .drain then none
    else (qpStep p s.life (.task type i env)).map fun life => { s with life := life }
  | .life a => (qpStep p s.life a).map fun life => { s with life := life }
  | .drain type i out =>
    if ((s.life.wq type).tasks i).pc = .drain then
      (workerStep (cfg.wq type) out (s.seen type i)).map (s.drained type i)
    else none
  | .post type req =>
    if s.life.call.ending then none
    else (wqStep (cfg.wq type) (s.ring type) (.start req)).map (s.setRing type)
  | .poster type buf => (posterStep (cfg.wq type) buf (s.ring type)).map (s.setRing type)

/-- A new QP with zeroed rings. -/
def QpRingsInit (lQpn : UInt32) (s : QpRings) : Prop :=
  QpInit lQpn s.life ∧ (∀ type, WqInit (s.ring type)) ∧ ∀ type i, s.pc type i = .top

/-- The steps by what they change. -/
inductive QpRingsMove (p : SciIf) (cfg : QpCfg) (s : QpRings) : QpRingsAct → QpRings → Prop
  | life {a life} : qpStep p s.life a = some life →
      (a = .destroy → ∀ type, (s.ring type).poster = .idle) →
      (∀ type i env, a = .task type i env → ((s.life.wq type).tasks i).pc ≠ .drain) →
      QpRingsMove p cfg s (.life a) { s with life := life }
  | drain {type i out w} : ((s.life.wq type).tasks i).pc = .drain →
      workerStep (cfg.wq type) out (s.seen type i) = some w →
      QpRingsMove p cfg s (.drain type i out) (s.drained type i w)
  | post {type req w} : s.life.call.ending = false →
      wqStep (cfg.wq type) (s.ring type) (.start req) = some w →
      QpRingsMove p cfg s (.post type req) (s.setRing type w)
  | poster {type buf w} : posterStep (cfg.wq type) buf (s.ring type) = some w →
      QpRingsMove p cfg s (.poster type buf) (s.setRing type w)

section

variable {p : SciIf} {cfg : QpCfg} {s t : QpRings}

theorem isIdle_eq {pc : PosterPc} (h : pc.isIdle = true) : pc = .idle := by
  cases pc <;> simp [PosterPc.isIdle] at h ⊢

theorem qpRingsStep_move {a : QpRingsAct} (h : qpRingsStep p cfg s a = some t) :
    QpRingsMove p cfg s a t := by
  cases a with
  | life a =>
    cases a with
    | destroy =>
      simp only [qpRingsStep] at h
      split at h
      next hidle =>
        obtain ⟨life, hs, rfl⟩ := Option.map_eq_some_iff.mp h
        obtain ⟨hsq, hrq⟩ := Bool.and_eq_true_iff.mp hidle
        refine .life hs (fun _ type => ?_) (by simp)
        cases type with
        | sq => exact isIdle_eq hsq
        | rq => exact isIdle_eq hrq
      next => simp at h
    | task type i env =>
      simp only [qpRingsStep] at h
      split at h
      next => simp at h
      next hne =>
        obtain ⟨life, hs, rfl⟩ := Option.map_eq_some_iff.mp h
        refine .life hs (by simp) fun type' i' env' he => ?_
        cases he
        exact hne
    | modify attr attrMask =>
      obtain ⟨life, hs, rfl⟩ := Option.map_eq_some_iff.mp h
      exact .life hs (by simp) (by simp)
    | call out =>
      obtain ⟨life, hs, rfl⟩ := Option.map_eq_some_iff.mp h
      exact .life hs (by simp) (by simp)
  | drain type i out =>
    simp only [qpRingsStep] at h
    split at h
    next hd =>
      obtain ⟨w, hs, rfl⟩ := Option.map_eq_some_iff.mp h
      exact .drain hd hs
    next => simp at h
  | post type req =>
    simp only [qpRingsStep] at h
    split at h
    next => simp at h
    next hover =>
      obtain ⟨w, hs, rfl⟩ := Option.map_eq_some_iff.mp h
      exact .post (by simpa using hover) hs
  | poster type buf =>
    obtain ⟨w, hs, rfl⟩ := Option.map_eq_some_iff.mp h
    exact .poster hs

/-- An access of `dis_wq_consume_all` is a step of its thread, or within one. -/
theorem drained_life {type : DisWqType} {i : Nat} {out : Option UInt32} {w : WqState}
    (hd : ((s.life.wq type).tasks i).pc = .drain)
    (h : workerStep (cfg.wq type) out (s.seen type i) = some w) :
    (s.drained type i w).life = s.life ∨
      ∃ env, qpStep p s.life (.task type i env) = some (s.drained type i w).life := by
  obtain ⟨_, hstop⟩ := workerStep_stop h
  cases hw : w.worker.next with
  | wait =>
    refine .inr ⟨⟨fun _ => .ok, true⟩, ?_⟩
    simp [qpStep, taskStep, hd, QpRings.drained, hw]
  | tearDown =>
    have hex : w.worker = .exited := by
      cases hp : w.worker <;> simp [hp, WorkerPc.next] at hw ⊢
    have hs : ((s.life.wq type).tasks i).shouldStop = true := hstop hex
    refine .inr ⟨⟨fun _ => .ok, false⟩, ?_⟩
    simp [qpStep, taskStep, hd, hs, QpRings.drained, hw]
  | drain =>
    left
    have htask : (s.life.wq type).setTask i .drain = s.life.wq type := by
      rw [LifeQueue.setTask, ← hd, Function.update_eq_self]
    rw [QpRings.drained, hw, htask, QpLife.setWq, Function.update_eq_self]
  | _ => cases hp : w.worker <;> simp [hp, WorkerPc.next] at hw

end

end DisKverbs
