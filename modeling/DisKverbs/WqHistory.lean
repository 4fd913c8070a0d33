import DisKverbs.WqRing

namespace DisKverbs

open CellProg CircBuf RingMachine StepSystem

/-- The answers of `kmalloc` that hand out page maps of a list. -/
def Owned (ids : List Nat) : Option PageMap → Prop := fun m => ∀ b, m = some b → b.id ∈ ids

/-- A slot being filled is on its way to the end of the posting function, and every
accepted WQE is the result of the whole function. -/
structure WqInv (cfg : WqCfg) (s : WqState) : Prop where
  fill : ∀ req head prog owned start, s.poster = .fill req head prog owned start →
    ∀ ids, owned ⊆ ids → Rest (Owned ids) (cfg.body req) start prog (s.slots head)
  entries : ∀ e ∈ s.posted, Runs (Owned e.owned) (cfg.body e.req) e.start (some e.used) e.wqe
  accepted : s.posted.length = s.rets.count 0

section

variable {cfg : WqCfg} {s t : WqState}

theorem WorkerMove.frame (h : WorkerMove cfg s t) :
    t.poster = s.poster ∧ t.posted = s.posted ∧ t.fresh = s.fresh ∧ t.rets = s.rets ∧
      t.head = s.head ∧ ∀ j, s.worker.holds ≠ some j → t.slots j = s.slots j := by
  cases h with
  | @touch tail pc n hs _ =>
    refine ⟨rfl, rfl, rfl, rfl, rfl, fun j hj => ?_⟩
    have hne : j ≠ tail := by rintro rfl; exact hj (consumes_holds hs)
    exact Function.update_of_ne hne _ _
  | _ => exact ⟨rfl, rfl, rfl, rfl, rfl, fun _ _ => rfl⟩

theorem posterRing_fill {req : PostReq} {head : Nat} {prog : SlotProg (Option (List (List Nat)))}
    {owned : List Nat} {start : DisWqe} (hp : s.poster = .fill req head prog owned start) :
    s.ring.prod = .filling head := by rw [WqState.ring, hp]; rfl

theorem fill_slot_free (hr : RingInv cfg.ring DisWqe.eraseLen s.ring) {req : PostReq} {head : Nat}
    {prog : SlotProg (Option (List (List Nat)))} {owned : List Nat} {start : DisWqe}
    (hp : s.poster = .fill req head prog owned start) {i : Nat} (hle : s.retired.length ≤ i)
    (hlt : i < s.posted.length) : i % cfg.ring.size ≠ head :=
  hr.fill_slot_free (posterRing_fill hp) hle (by simpa [WqState.ring] using hlt)

theorem worker_slot (hr : RingInv cfg.ring DisWqe.eraseLen s.ring) {tail : Nat}
    (hw : s.worker.holds = some tail) :
    tail = s.retired.length % cfg.ring.size ∧ s.retired.length < s.posted.length := by
  obtain ⟨ht, hlt⟩ := hr.cons_hold tail (ring_holds hw)
  exact ⟨ht.trans hr.tail_eq, by simpa [WqState.ring] using hlt⟩

/-- The slot in the worker's hands holds the oldest accepted WQE, up to its length. -/
theorem held_posted (hr : RingInv cfg.ring DisWqe.eraseLen s.ring) {tail : Nat}
    (hw : s.worker.holds = some tail) :
    ∃ e, s.posted[s.retired.length]? = some e ∧ (s.slots tail).eraseLen = e.wqe.eraseLen := by
  obtain ⟨htail, hlt⟩ := worker_slot hr hw
  refine ⟨s.posted[s.retired.length], List.getElem?_eq_getElem hlt, ?_⟩
  rw [htail]
  exact hr.keys s.retired.length s.posted[s.retired.length].wqe le_rfl
    (by simp [WqState.ring, List.getElem?_eq_getElem hlt])

/-- A WQE that the worker is done with, but has not retired, was accepted. -/
theorem count_le (hr : RingInv cfg.ring DisWqe.eraseLen s.ring) {n : Nat} (h₁ : n ≤ 1)
    (h₀ : s.worker.holds = none → n = 0) : s.retired.length + n ≤ s.posted.length := by
  have hle := (wqBounds hr).le
  cases hw : s.worker.holds with
  | none =>
    have := h₀ hw
    omega
  | some tail =>
    have := (worker_slot hr hw).2
    omega

theorem fill_slot_not_held (hr : RingInv cfg.ring DisWqe.eraseLen s.ring) {req : PostReq}
    {head : Nat} {prog : SlotProg (Option (List (List Nat)))} {owned : List Nat} {start : DisWqe}
    (hp : s.poster = .fill req head prog owned start) : s.worker.holds ≠ some head := by
  intro hw
  obtain ⟨ht, hlt⟩ := worker_slot hr hw
  exact fill_slot_free hr hp le_rfl hlt ht.symm

/-- A post does not touch the slot in the worker's hands. -/
theorem PosterMove.held_slot (hr : RingInv cfg.ring DisWqe.eraseLen s.ring)
    (h : PosterMove cfg s t) {tail : Nat} (hw : s.worker.holds = some tail) :
    t.slots tail = s.slots tail := by
  cases h with
  | @store req head w k owned start hp =>
    refine Function.update_of_ne ?_ _ _
    rintro rfl
    exact fill_slot_not_held hr hp hw
  | _ => rfl

theorem WqInv.poster (hi : WqInv cfg s) (h : PosterMove cfg s t) : WqInv cfg t := by
  have idle : ∀ req head prog owned start, PosterPc.idle ≠ .fill req head prog owned start := by
    simp
  cases h with
  | full hp hs =>
    refine { hi with fill := fun _ _ _ _ _ he => absurd he (idle _ _ _ _ _), accepted := ?_ }
    simpa using hi.accepted
  | reserve hp hs =>
    refine { hi with fill := ?_ }
    intro _ _ _ _ _ he ids _
    cases he
    exact rest_start _ _
  | load hp =>
    refine { hi with fill := ?_ }
    intro _ _ _ _ _ he ids hsub
    cases he
    exact (hi.fill _ _ _ _ _ hp ids hsub).load
  | store hp =>
    refine { hi with fill := ?_ }
    intro _ _ _ _ _ he ids hsub
    cases he
    simp only [Function.update_self]
    exact (hi.fill _ _ _ _ _ hp ids hsub).store
  | noMem hp =>
    refine { hi with fill := ?_ }
    intro _ _ _ _ _ he ids hsub
    cases he
    exact (hi.fill _ _ _ _ _ hp ids hsub).ask none (by simp [Owned])
  | alloc entries hp =>
    refine { hi with fill := ?_ }
    intro _ _ _ _ _ he ids hsub
    cases he
    obtain ⟨hid, hsub⟩ := List.cons_subset.mp hsub
    refine (hi.fill _ _ _ _ _ hp ids hsub).ask _ ?_
    intro b hb
    cases hb
    exact hid
  | abandon hp =>
    refine { hi with fill := fun _ _ _ _ _ he => absurd he (idle _ _ _ _ _), accepted := ?_ }
    simpa using hi.accepted
  | publish hp =>
    refine ⟨fun _ _ _ _ _ he => absurd he (idle _ _ _ _ _), ?_, ?_⟩
    · intro e he
      rcases List.mem_append.mp he with he | he
      · exact hi.entries e he
      · rw [List.mem_singleton.mp he]
        exact (hi.fill _ _ _ _ _ hp _ (List.Subset.refl _)).finish
    · simpa using hi.accepted

theorem WqInv.step (hi : WqInv cfg s) (hr : RingInv cfg.ring DisWqe.eraseLen s.ring) {a : WqAct}
    (h : wqStep cfg s a = some t) : WqInv cfg t := by
  cases a with
  | start req =>
    obtain ⟨_, rfl⟩ := wqStep_start h
    refine { hi with fill := ?_ }
    intro _ _ _ _ _ he
    cases he
  | poster buf => exact hi.poster (posterStep_move h)
  | worker out =>
    obtain ⟨hp, hq, _, hs, _, hslots⟩ := (workerStep_move h).frame
    refine ⟨?_, hq ▸ hi.entries, by rw [hq, hs]; exact hi.accepted⟩
    intro req head prog owned start he
    rw [hp] at he
    rw [hslots head (fill_slot_not_held hr he)]
    exact hi.fill req head prog owned start he
  | stop => cases Option.some.inj h; exact { hi with }

theorem reach_wqInv {ok : WqState → WqAct → Prop} (h : Reach WqInit (Acts (wqStep cfg) ok) s) :
    WqInv cfg s := by
  apply h.invariant
  · rintro s rfl
    exact ⟨by simp, by simp, by simp⟩
  · rintro s t hr hi ⟨a, _, hs⟩
    exact hi.step (reach_wqRing hr) hs

end

end DisKverbs
