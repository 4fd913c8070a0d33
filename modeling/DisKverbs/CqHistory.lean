import DisKverbs.CqRing

namespace DisKverbs

open CellProg CircBuf RingMachine StepSystem

variable {ι : Type} {r : RingSize} {s t : CqState ι}

/-- No program on a completion slot asks for anything. -/
def anyAnswer : Unit → Prop := fun _ => True

def PollerPc.got : PollerPc → List IbWc
  | .idle => []
  | .loop _ got => got
  | .gotHead _ got _ _ => got
  | .copy _ got _ _ => got

structure CqFill (s : CqState ι) : Prop where
  fill : ∀ i call head prog, s.holder = some (i, call, .fill head prog) →
    ∃ c, Rest anyAnswer (postCqeBody call.wqe call.status) c prog (s.slots head)
  entries : ∀ e ∈ s.inserted, e.cqe = e.call.wqe.cqe e.call.status

def PollResult.Sound (p : PollResult) : Prop :=
  (p.wcs.length : Int) ≤ max p.numWc 0 ∧ ((p.wcs.length : Int) < p.numWc → p.pending = some 0)

structure CqPoll (r : RingSize) (s : CqState ι) : Prop where
  loop : ∀ numWc got, s.poller = .loop numWc got → (got.length : Int) ≤ max numWc 0
  peeked : ∀ numWc got head pending, s.poller = .gotHead numWc got head pending →
    (got.length : Int) < numWc ∧ head = (s.taken + pending) % r.size ∧
      s.taken + pending ≤ s.inserted.length
  copy : ∀ numWc got tail prog, s.poller = .copy numWc got tail prog →
    (got.length : Int) < numWc ∧ Rest anyAnswer copyCqe (s.slots tail) prog (s.slots tail)
  copied : s.polls.flatMap PollResult.wcs ++ s.poller.got =
    (s.inserted.take s.taken).map fun e => e.cqe.wc
  polls : ∀ p ∈ s.polls, p.Sound

theorem holder_fill_free (hr : RingInv r id s.ring) {i : ι} {call : CqeCall} {head : Nat}
    {prog : CqeProg Unit} (hh : s.holder = some (i, call, .fill head prog)) {k : Nat}
    (hle : s.taken ≤ k) (hlt : k < s.inserted.length) : k % r.size ≠ head := by
  have hp : s.ring.prod = .filling head := holder_prod hh
  exact hr.fill_slot_free hp hle (by simpa [CqState.ring] using hlt)

/-- The entry the poller copies is the oldest one it has not released. -/
theorem copy_slot (hr : RingInv r id s.ring) {numWc : Int} {got : List IbWc} {tail : Nat}
    {prog : CqeProg IbWc} (hp : s.poller = .copy numWc got tail prog) :
    tail = s.taken % r.size ∧ ∃ e, s.inserted[s.taken]? = some e ∧ s.slots tail = e.cqe := by
  have hc : s.ring.cons = .holding tail := by simp only [CqState.ring, hp]; rfl
  obtain ⟨ht, hlt⟩ := hr.cons_hold tail hc
  have htail : tail = s.taken % r.size := ht.trans hr.tail_eq
  have hb : s.taken < s.inserted.length := by simpa [CqState.ring] using hlt
  have hk := hr.keys s.taken s.inserted[s.taken].cqe le_rfl
    (by simp [CqState.ring, List.getElem?_eq_getElem hb])
  refine ⟨htail, s.inserted[s.taken], List.getElem?_eq_getElem hb, ?_⟩
  rw [htail]
  exact hk

theorem CqFill.same (hf : CqFill s) (hi : t.inserted = s.inserted)
    (hh : ∀ i call head prog, t.holder ≠ some (i, call, .fill head prog)) : CqFill t :=
  ⟨fun i call head prog he => absurd he (hh i call head prog), hi ▸ hf.entries⟩

theorem CqPoll.producer (hp : CqPoll r s) (hr : RingInv r id s.ring) (hpc : t.poller = s.poller)
    (hpolls : t.polls = s.polls) (htaken : t.taken = s.taken)
    (hins : ∃ es, t.inserted = s.inserted ++ es)
    (hslots : ∀ j, (∀ i call prog, s.holder ≠ some (i, call, .fill j prog)) →
      t.slots j = s.slots j) : CqPoll r t := by
  obtain ⟨es, hins⟩ := hins
  have hle := taken_le_inserted hr
  refine ⟨?_, ?_, ?_, ?_, hpolls ▸ hp.polls⟩
  · rw [hpc]
    exact hp.loop
  · intro numWc got head pending he
    obtain ⟨hlt, hh, hb⟩ := hp.peeked numWc got head pending (hpc ▸ he)
    refine ⟨hlt, by rw [htaken]; exact hh, ?_⟩
    rw [htaken, hins, List.length_append]
    omega
  · intro numWc got tail prog he
    rw [hpc] at he
    obtain ⟨htail, e, he', _⟩ := copy_slot hr he
    have hb := (List.getElem?_eq_some_iff.mp he').1
    have hfree : ∀ i call prog, s.holder ≠ some (i, call, .fill tail prog) := by
      intro i call prog hh
      exact holder_fill_free hr hh le_rfl hb htail.symm
    rw [hslots tail hfree]
    exact hp.copy numWc got tail prog he
  · rw [hpolls, hpc, htaken, hins, List.take_append_of_le_length hle]
    exact hp.copied

variable [DecidableEq ι]

theorem CqFill.move (hf : CqFill s) {a : CqAct ι} (h : CqMove r s a t) : CqFill t := by
  cases h with
  | wait _ _ => exact { hf with }
  | lock hh _ => exact hf.same rfl (by simp)
  | loadHead hh => exact hf.same rfl (by simp)
  | full hh hs => exact hf.same rfl (by simp)
  | reserve hh hs =>
    refine { hf with fill := ?_ }
    intro i call head prog he
    cases he
    rw [disWqPostCqe_eq]
    exact ⟨_, rest_start _ _⟩
  | load hh =>
    refine { hf with fill := ?_ }
    intro i call head prog he
    cases he
    obtain ⟨c, hc⟩ := hf.fill _ _ _ _ hh
    exact ⟨c, hc.load⟩
  | store hh =>
    refine { hf with fill := ?_ }
    intro i call head prog he
    cases he
    obtain ⟨c, hc⟩ := hf.fill _ _ _ _ hh
    simp only [Function.update_self]
    exact ⟨c, hc.store⟩
  | ask hh =>
    refine { hf with fill := ?_ }
    intro i call head prog he
    cases he
    obtain ⟨c, hc⟩ := hf.fill _ _ _ _ hh
    exact ⟨c, hc.ask () trivial⟩
  | insert hh =>
    refine ⟨by simp, ?_⟩
    intro e he
    rcases List.mem_append.mp he with he | he
    · exact hf.entries e he
    · obtain ⟨c, hc⟩ := hf.fill _ _ _ _ hh
      rw [List.mem_singleton.mp he]
      exact postCqeBody_runs.mp hc.finish
  | unlock hh => exact hf.same rfl (by simp)
  | _ => exact { hf with }

end DisKverbs
