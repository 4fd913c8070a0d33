import DisKverbs.CompletionQueue

namespace DisKverbs

open CellProg CircBuf

variable {ι : Type} [DecidableEq ι] {r : RingSize} {s t : CqState ι}

inductive CqMove (r : RingSize) (s : CqState ι) : CqAct ι → CqState ι → Prop
  | wait {i call} : s.waiting i = none → (∀ call' pc, s.holder ≠ some (i, call', pc)) →
      CqMove r s (.call i call) { s with waiting := Function.update s.waiting i (some call) }
  | lock {i call} : s.holder = none → s.waiting i = some call → CqMove r s (.producer i) { s with
      waiting := Function.update s.waiting i none, holder := some (i, call, .enter) }
  | loadHead {i call} : s.holder = some (i, call, .enter) →
      CqMove r s (.producer i) { s with holder := some (i, call, .gotHead s.head) }
  | full {i call head} : s.holder = some (i, call, .gotHead head) →
      circSpace head s.tail r.size < 1 →
      CqMove r s (.producer i) { s with holder := some (i, call, .unlock (-42)) }
  | reserve {i call head} : s.holder = some (i, call, .gotHead head) →
      ¬ circSpace head s.tail r.size < 1 → CqMove r s (.producer i) { s with
        holder := some (i, call, .fill head (disWqPostCqe call.type call.wqe call.status)) }
  | load {i call head k} : s.holder = some (i, call, .fill head (.load k)) →
      CqMove r s (.producer i) { s with holder := some (i, call, .fill head (k (s.slots head))) }
  | store {i call head w k} : s.holder = some (i, call, .fill head (.store w k)) →
      CqMove r s (.producer i) { s with
        slots := Function.update s.slots head (w.put (s.slots head))
        holder := some (i, call, .fill head k) }
  | ask {i call head k} : s.holder = some (i, call, .fill head (.ask k)) →
      CqMove r s (.producer i) { s with holder := some (i, call, .fill head (k ())) }
  | insert {i call head} : s.holder = some (i, call, .fill head (.ret ())) →
      CqMove r s (.producer i) { s with
        head := circNext head r.size
        holder := some (i, call, .unlock 0)
        inserted := s.inserted ++ [⟨i, call, s.slots head⟩] }
  | unlock {i call ret} : s.holder = some (i, call, .unlock ret) →
      CqMove r s (.producer i) { s with holder := none, rets := s.rets ++ [(i, ret)] }
  | poll {numWc} : s.poller = .idle → CqMove r s (.poll numWc) { s with poller := .loop numWc [] }
  | peek {numWc got} : s.poller = .loop numWc got → (got.length : Int) < numWc →
      CqMove r s .poller { s with poller := .gotHead numWc got s.head (s.inserted.length - s.taken) }
  | finish {numWc got} : s.poller = .loop numWc got → ¬ (got.length : Int) < numWc →
      CqMove r s .poller { s with poller := .idle, polls := s.polls ++ [⟨numWc, got, none⟩] }
  | empty {numWc got head pending} : s.poller = .gotHead numWc got head pending →
      circCnt head s.tail r.size < 1 →
      CqMove r s .poller { s with poller := .idle, polls := s.polls ++ [⟨numWc, got, some pending⟩] }
  | acquire {numWc got head pending} : s.poller = .gotHead numWc got head pending →
      ¬ circCnt head s.tail r.size < 1 →
      CqMove r s .poller { s with poller := .copy numWc got s.tail copyCqe }
  | copy {numWc got tail k} : s.poller = .copy numWc got tail (.load k) →
      CqMove r s .poller { s with poller := .copy numWc got tail (k (s.slots tail)) }
  | release {numWc got tail wc} : s.poller = .copy numWc got tail (.ret wc) →
      CqMove r s .poller { s with
        tail := circNext tail r.size
        poller := .loop numWc (got ++ [wc])
        taken := s.taken + 1 }

theorem holderStep_move {i : ι} {call : CqeCall} {pc : HolderPc}
    (hh : s.holder = some (i, call, pc)) (h : holderStep r s i call pc = some t) :
    CqMove r s (.producer i) t := by
  unfold holderStep at h
  split at h
  next => cases Option.some.inj h; exact .loadHead hh
  next =>
    split at h
    next hs => cases Option.some.inj h; exact .full hh hs
    next hs => cases Option.some.inj h; exact .reserve hh hs
  next => cases Option.some.inj h; exact .load hh
  next => cases Option.some.inj h; exact .store hh
  next => cases Option.some.inj h; exact .ask hh
  next => cases Option.some.inj h; exact .insert hh
  next => cases Option.some.inj h; exact .unlock hh

theorem pollerStep_move (h : pollerStep r s = some t) : CqMove r s .poller t := by
  unfold pollerStep at h
  split at h
  next => simp at h
  next hp =>
    split at h
    next hlt => cases Option.some.inj h; exact .peek hp hlt
    next hlt => cases Option.some.inj h; exact .finish hp hlt
  next hp =>
    split at h
    next hs => cases Option.some.inj h; exact .empty hp hs
    next hs => cases Option.some.inj h; exact .acquire hp hs
  next hp => cases Option.some.inj h; exact .copy hp
  next hp => cases Option.some.inj h; exact .release hp
  next => simp at h

theorem cqStep_move {a : CqAct ι} (h : cqStep r s a = some t) : CqMove r s a t := by
  cases a with
  | call i call =>
    simp only [cqStep] at h
    split at h
    next hw hh =>
      split at h
      next => simp at h
      next hne =>
        cases Option.some.inj h
        exact .wait hw fun call' pc he => hne (by rw [hh] at he; cases he; rfl)
    next hw hh =>
      cases Option.some.inj h
      exact .wait hw fun call' pc he => by rw [hh] at he; cases he
    next => simp at h
  | producer i =>
    simp only [cqStep] at h
    split at h
    next j call pc hh =>
      split at h
      next he => subst he; exact holderStep_move hh h
      next => simp at h
    next hh =>
      split at h
      next hw => cases Option.some.inj h; exact .lock hh hw
      next => simp at h
  | poll numWc =>
    simp only [cqStep] at h
    split at h
    next hp => cases Option.some.inj h; exact .poll hp
    next => simp at h
  | poller => exact pollerStep_move h

end DisKverbs
