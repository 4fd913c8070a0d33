import DisKverbs.Tally

namespace DisKverbs

open CellProg CircBuf RingMachine StepSystem

/-- A queue of a QP. -/
abbrev QueueId := Nat × DisWqType

/-- Any number of QPs: the rings of their queues, and the completion queue of each queue. -/
structure QpsCfg where
  lib : SciLib
  ring : QueueId → RingSize
  sciMsq : QueueId → Nat
  cqOf : QueueId → Nat
  cqRing : Nat → RingSize

def QpsCfg.wq (cfg : QpsCfg) (i : QueueId) : WqCfg :=
  ⟨cfg.lib, cfg.ring i, i.2, i.1, cfg.sciMsq i⟩

/-- `inserted` counts the entries each completion queue had been given when `dis_destroy_qp`
freed the QP. -/
inductive QpStage
  | unused
  | live
  | destroyed (inserted : Nat → Nat)

structure Qps where
  wq : QueueId → WqState
  called : QueueId → Bool
  started : QueueId → Bool
  cq : Nat → CqState QueueId
  stage : Nat → QpStage

inductive QpsAct
  | create (q : Nat)
  | start (i : QueueId)
  | queue (i : QueueId) (a : WqAct)
  | complete (i : QueueId)
  | cq (c : Nat) (a : CqAct QueueId)
  | destroy (q : Nat)

section

variable (cfg : QpsCfg)

/-- A queue with its completion queue. -/
def Qps.pair (s : Qps) (i : QueueId) : PairState QueueId := ⟨s.wq i, s.cq (cfg.cqOf i), s.called i⟩

def Qps.setPair (s : Qps) (i : QueueId) (t : PairState QueueId) : Qps :=
  { s with
    wq := Function.update s.wq i t.wq
    cq := Function.update s.cq (cfg.cqOf i) t.cq
    called := Function.update s.called i t.called }

def WqAct.byWorker : WqAct → Bool
  | .worker _ => true
  | _ => false

/-- `kthread_stop` has returned for the worker of a queue, or there is none. -/
def Qps.stopped (s : Qps) (i : QueueId) : Bool :=
  match s.started i, (s.wq i).worker with
  | true, .exited => true
  | true, _ => false
  | false, _ => true

def queueStep (s : Qps) (i : QueueId) (byWorker : Bool) (a : PairAct QueueId) : Option Qps :=
  match s.stage i.1 with
  | .live =>
    if s.started i || !byWorker then
      (pairStep (cfg.wq i) (cfg.cqRing (cfg.cqOf i)) i (s.pair cfg i) a).map (s.setPair cfg i)
    else none
  | _ => none

/-- The queues of a QP are used while it lives, and a QP is freed when its workers are gone;
the completion queues belong to nobody. -/
def qpsStep (s : Qps) : QpsAct → Option Qps
  | .create q =>
    match s.stage q with
    | .unused => some { s with stage := Function.update s.stage q .live }
    | _ => none
  | .start i =>
    match s.stage i.1 with
    | .live => some { s with started := Function.update s.started i true }
    | _ => none
  | .queue i a => queueStep cfg s i a.byWorker (.wq a)
  | .complete i => queueStep cfg s i true .call
  | .cq _ (.call _ _) => none
  | .cq c a =>
    (cqStep (cfg.cqRing c) (s.cq c) a).map fun cq => { s with cq := Function.update s.cq c cq }
  | .destroy q =>
    match s.stage q with
    | .live =>
      if s.stopped (q, .rq) && s.stopped (q, .sq) then
        some { s with
          stage := Function.update s.stage q (.destroyed fun c => (s.cq c).inserted.length) }
      else none
    | _ => none

def QpsInit (s : Qps) : Prop :=
  (∀ i, WqInit (s.wq i) ∧ s.called i = false ∧ s.started i = false) ∧ (∀ c, CqInit (s.cq c)) ∧
    ∀ q, s.stage q = .unused

inductive QpsMove (s : Qps) : Qps → Prop
  | create {q} : s.stage q = .unused →
      QpsMove s { s with stage := Function.update s.stage q .live }
  | start {i} : s.stage i.1 = .live →
      QpsMove s { s with started := Function.update s.started i true }
  | queue {i a t} : s.stage i.1 = .live →
      (s.started i = false → ∃ b, a = .wq b ∧ ∀ out, b ≠ .worker out) →
      (∀ b, a ≠ .cq b) →
      pairStep (cfg.wq i) (cfg.cqRing (cfg.cqOf i)) i (s.pair cfg i) a = some t →
      QpsMove s (s.setPair cfg i t)
  | cq {c a cq} : (∀ i call, a ≠ .call i call) →
      cqStep (cfg.cqRing c) (s.cq c) a = some cq →
      QpsMove s { s with cq := Function.update s.cq c cq }
  | destroy {q} : s.stage q = .live → (∀ type, s.stopped (q, type) = true) → QpsMove s { s with
      stage := Function.update s.stage q (.destroyed fun c => (s.cq c).inserted.length) }

variable {cfg} {s t : Qps}

theorem queueStep_move {i : QueueId} {byWorker : Bool} {a : PairAct QueueId}
    (hw : byWorker = false → ∃ b, a = .wq b ∧ ∀ out, b ≠ .worker out) (ha : ∀ b, a ≠ .cq b)
    (h : queueStep cfg s i byWorker a = some t) : QpsMove cfg s t := by
  unfold queueStep at h
  split at h
  next hlive =>
    split at h
    next hon =>
      obtain ⟨u, hu, rfl⟩ := Option.map_eq_some_iff.mp h
      refine .queue hlive (fun hoff => hw ?_) ha hu
      simpa [hoff] using hon
    next => simp at h
  next => simp at h

theorem qpsStep_move {a : QpsAct} (h : qpsStep cfg s a = some t) : QpsMove cfg s t := by
  unfold qpsStep at h
  split at h
  next =>
    split at h
    next hs => cases Option.some.inj h; exact .create hs
    next => simp at h
  next =>
    split at h
    next hs => cases Option.some.inj h; exact .start hs
    next => simp at h
  next i a =>
    refine queueStep_move (fun hb => ⟨a, rfl, ?_⟩) (by simp) h
    rintro out rfl
    simp [WqAct.byWorker] at hb
  next => exact queueStep_move (by simp) (by simp) h
  next => simp at h
  next c a ha =>
    obtain ⟨cq, hs, rfl⟩ := Option.map_eq_some_iff.mp h
    exact .cq (fun i call he => ha i call he) hs
  next =>
    split at h
    next hs =>
      split at h
      next hstop =>
        cases Option.some.inj h
        rw [Bool.and_eq_true] at hstop
        refine .destroy hs fun type => ?_
        cases type with
        | sq => exact hstop.2
        | rq => exact hstop.1
      next => simp at h
    next => simp at h

theorem pairStep_cq {ι : Type} [DecidableEq ι] {wq : WqCfg} {r : RingSize} {me : ι}
    {p : PairState ι} {a : CqAct ι} {cq : CqState ι} (ha : ∀ call, a ≠ .call me call)
    (h : cqStep r p.cq a = some cq) : pairStep wq r me p (.cq a) = some { p with cq := cq } := by
  cases a with
  | call i call =>
    have hne : i ≠ me := by rintro rfl; exact ha call rfl
    simp only [pairStep, if_neg hne, h, Option.map_some]
  | producer i => simp only [pairStep, h, Option.map_some]
  | poll numWc => simp only [pairStep, h, Option.map_some]
  | poller => simp only [pairStep, h, Option.map_some]

/-- What a step of a queue does to the completion queues. -/
theorem queue_cq {i : QueueId} {a : PairAct QueueId} {u : PairState QueueId}
    (ha : ∀ b, a ≠ .cq b)
    (h : pairStep (cfg.wq i) (cfg.cqRing (cfg.cqOf i)) i (s.pair cfg i) a = some u) :
    u.cq = s.cq (cfg.cqOf i) ∨
      ∃ call, cqStep (cfg.cqRing (cfg.cqOf i)) (s.cq (cfg.cqOf i)) (.call i call) = some u.cq := by
  cases pairStep_move h with
  | wq _ _ => exact .inl rfl
  | back _ _ _ _ => exact .inl rfl
  | call _ _ hq => exact .inr ⟨_, hq⟩
  | cq _ _ => exact absurd rfl (ha _)

theorem pair_setPair_self (s : Qps) (i : QueueId) (u : PairState QueueId) :
    (s.setPair cfg i u).pair cfg i = u := by
  simp [Qps.pair, Qps.setPair]

theorem pair_setPair_other (s : Qps) {i j : QueueId} (hne : j ≠ i) (u : PairState QueueId) :
    (s.setPair cfg i u).pair cfg j =
      ⟨s.wq j, Function.update s.cq (cfg.cqOf i) u.cq (cfg.cqOf j), s.called j⟩ := by
  simp [Qps.pair, Qps.setPair, hne]

/-- Among any number of QPs, each queue is one producer of its completion queue. -/
theorem reach_pair (h : Reach QpsInit (Acts (qpsStep cfg) anyAct) s) (i : QueueId) :
    Reach PairInit (Acts (pairStep (cfg.wq i) (cfg.cqRing (cfg.cqOf i)) i) anyAct)
      (s.pair cfg i) := by
  apply h.project fun s => s.pair cfg i
  · exact fun s hi => ⟨(hi.1 i).1, hi.2.1 _, (hi.1 i).2.1⟩
  · rintro s t _ _ ⟨a, _, hs⟩
    cases qpsStep_move hs with
    | @queue j a u _ _ ha hu =>
      by_cases hne : i = j
      · subst hne
        rw [pair_setPair_self]
        exact .inr ⟨a, trivial, hu⟩
      · rw [pair_setPair_other s hne]
        by_cases hc : cfg.cqOf i = cfg.cqOf j
        · rw [hc, Function.update_self]
          rcases queue_cq ha hu with he | ⟨call, hq⟩
          · exact .inl (by rw [he, Qps.pair, hc])
          · have hcall : ∀ call', (CqAct.call j call : CqAct QueueId) ≠ .call i call' := by
              intro call' he
              cases he
              exact hne rfl
            rw [← hc] at hq
            exact .inr ⟨_, trivial, pairStep_cq hcall hq⟩
        · rw [Function.update_of_ne hc]
          exact .inl rfl
    | @cq c a cq ha hq =>
      by_cases hc : cfg.cqOf i = c
      · subst hc
        refine .inr ⟨.cq a, trivial, ?_⟩
        rw [pairStep_cq (fun call => ha i call) hq]
        simp [Qps.pair]
      · refine .inl ?_
        simp [Qps.pair, hc]
    | _ => exact .inl rfl

/-- A completion queue only steps by itself, and is only called by queues attached to it. -/
theorem QpsMove.cqStep (h : QpsMove cfg s t) (c : Nat) : t.cq c = s.cq c ∨
    ∃ a, (∀ i call, a = .call i call → cfg.cqOf i = c) ∧
      cqStep (cfg.cqRing c) (s.cq c) a = some (t.cq c) := by
  cases h with
  | @queue j a u _ _ ha hu =>
    by_cases hc : c = cfg.cqOf j
    · subst hc
      simp only [Qps.setPair, Function.update_self]
      rcases queue_cq ha hu with he | ⟨call, hq⟩
      · exact .inl he
      · refine .inr ⟨_, fun i call' hcall => ?_, hq⟩
        cases hcall
        rfl
    · exact .inl (Function.update_of_ne hc _ _)
  | @cq c' a cq ha hq =>
    by_cases hc : c = c'
    · subst hc
      simp only [Function.update_self]
      exact .inr ⟨a, fun i call hcall => absurd hcall (ha i call), hq⟩
    · exact .inl (Function.update_of_ne hc _ _)
  | _ => exact .inl rfl

theorem reach_qpsCq (h : Reach QpsInit (Acts (qpsStep cfg) anyAct) s) (c : Nat) :
    Reach CqInit (Acts (cqStep (cfg.cqRing c)) anyAct) (s.cq c) := by
  apply h.project fun s => s.cq c
  · exact fun s hi => hi.2.1 c
  · rintro s t _ _ ⟨a, _, hs⟩
    rcases (qpsStep_move hs).cqStep c with he | ⟨a, _, hq⟩
    · exact .inl he
    · exact .inr ⟨a, trivial, hq⟩

end

end DisKverbs
