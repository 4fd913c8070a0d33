import DisKverbs.Credits

namespace DisKverbs

open Answered CellProg CircBuf RingMachine StepSystem

section

variable {cfg : QpsCfg} {s t : Qps}

/-- The completions of a queue that polls returned. -/
def Qps.polledOf (cfg : QpsCfg) (s : Qps) (i : QueueId) : Nat :=
  ((s.cq (cfg.cqOf i)).polled.filter (·.isOf i)).length

/-- What the consumer keeps to: with the WR it posts, two slots of the ring stay free of WRs that it
has not polled yet, the one that `CIRC_SPACE` never gives away and one that the worker may still
have to release. -/
def Spared (cfg : QpsCfg) (s : Qps) : QpsAct → Prop
  | .queue i (.start _) => (s.wq i).posted.length + 3 ≤ s.polledOf cfg i + (cfg.ring i).size
  | _ => True

/-- A post that has not tested the ring yet. -/
def Testing (cfg : QpsCfg) (s : Qps) (i : QueueId) : Prop :=
  ∀ req head, (s.wq i).poster = .gotHead req head →
    (s.wq i).posted.length + 3 ≤ s.polledOf cfg i + (cfg.ring i).size

theorem qpsStep_polledOf {a : QpsAct} (h : qpsStep cfg s a = some t) (i : QueueId) :
    s.polledOf cfg i ≤ t.polledOf cfg i :=
  ((qpsStep_polled h (cfg.cqOf i)).filter _).length_le

theorem PosterMove.tested {cfg : WqCfg} {s t : WqState} (h : PosterMove cfg s t) (req : PostReq)
    (head : Nat) : t.poster ≠ .gotHead req head := by
  cases h <;> simp

theorem Testing.step {i : QueueId} (hi : Testing cfg s i) {a : QpsAct} (hok : Spared cfg s a)
    (h : qpsStep cfg s a = some t) : Testing cfg t i := by
  have hpolled := qpsStep_polledOf h i
  intro req head hp
  rcases qpsStep_wq h i with hsame | ⟨b, hb, hstart⟩
  · rw [hsame] at hp ⊢
    have hroom := hi req head hp
    omega
  cases b with
  | start req' =>
    rw [hstart req' rfl] at hok
    have hroom : (s.wq i).posted.length + 3 ≤ s.polledOf cfg i + (cfg.ring i).size := hok
    obtain ⟨_, hwq⟩ := wqStep_start hb
    rw [hwq]
    show (s.wq i).posted.length + 3 ≤ _
    omega
  | poster buf => exact absurd hp ((posterStep_move hb).tested req head)
  | worker out =>
    obtain ⟨hposter, hposted, _⟩ := (workerStep_move hb).frame
    rw [hposter] at hp
    have hroom := hi req head hp
    rw [hposted]
    omega
  | stop =>
    have hwq : t.wq i = { s.wq i with shouldStop := true } := (Option.some.inj hb).symm
    rw [hwq] at hp ⊢
    have hroom := hi req head hp
    show (s.wq i).posted.length + 3 ≤ _
    omega

theorem reach_testing (h : Reach QpsInit (Acts (qpsStep cfg) (Spared cfg)) s) (i : QueueId) :
    Reach QpsInit (Acts (qpsStep cfg) anyAct) s ∧ Testing cfg s i := by
  apply h.invariant
  · intro s hs
    refine ⟨reach_start hs, fun req head hp => ?_⟩
    rw [(hs.1 i).1] at hp
    cases hp
  · rintro s t _ ⟨hany, hi⟩ ⟨a, hok, hs⟩
    exact ⟨hany.next ⟨a, trivial, hs⟩, hi.step hok hs⟩

/-- A queue's worker has retired what was polled, but for the WQE it is about to retire. -/
theorem polledOf_retired (h : Reach QpsInit (Acts (qpsStep cfg) anyAct) s) (i : QueueId) :
    s.polledOf cfg i ≤ (s.wq i).retired.length + 1 := by
  have hpre := (reach_polled (c := cfg.cqOf i) h).filter (·.isOf i)
  rw [mine_wcs h] at hpre
  have hmine := hpre.length_le
  rw [List.length_map] at hmine
  obtain ⟨statuses, hp, hacc⟩ := reach_accounted (reach_pair h i)
  have hlen := (answered_sublist inserts statuses ((s.pair cfg i).cq.answers i)).length_le
  rw [← hacc.reports, reported, List.length_map] at hlen
  have hentries : ((s.cq (cfg.cqOf i)).mine i).length ≤ statuses.length := hlen
  have hpolled : s.polledOf cfg i ≤ statuses.length := hmine.trans hentries
  rcases hp.length with hstat | ⟨status, hstat⟩
  · have hlength : statuses.length = (s.wq i).retired.length := congrArg List.length hstat
    omega
  · have hlength : statuses.length = (s.wq i).retired.length + 1 := by
      rw [hstat, List.length_append]
      rfl
    omega

end

/-- A consumer that leaves one slot to spare is never refused: while it posts to a queue only when
the ring has two slots more than the WRs it has not polled and the one it posts, every post that tests
the ring finds space. -/
theorem reach_spared (cfg : QpsCfg) (s : Qps)
    (h : Reach QpsInit (Acts (qpsStep cfg) (Spared cfg)) s) (i : QueueId) (req : PostReq)
    (head : Nat) (hp : (s.wq i).poster = .gotHead req head) :
    ¬ circSpace head (s.wq i).tail (cfg.ring i).size < 1 := by
  obtain ⟨hany, htest⟩ := reach_testing h i
  have hroom := htest req head hp
  have hretired := polledOf_retired hany i
  have hring := reach_wqRing (reach_pairWq (reach_pair hany i))
  have hb : WqBounds (cfg.wq i) (s.wq i) := wqBounds hring
  have hpc : (s.wq i).ring.prod = .gotHead head := by rw [WqState.ring, hp]; rfl
  have hhead : head = (s.wq i).posted.length % (cfg.ring i).size :=
    (hring.prod_head head hpc).trans hb.head
  have htail : (s.wq i).tail = (s.wq i).retired.length % (cfg.ring i).size := hb.tail
  have hle := hb.le
  rw [hhead, htail, circSpace_mod _ hle (by omega)]
  omega

/-- `Spared`, as a test of the state before the step. -/
def spared (cfg : QpsCfg) (s : Qps) : QpsAct → Bool
  | .queue i (.start _) =>
    decide ((s.wq i).posted.length + 3 ≤ s.polledOf cfg i + (cfg.ring i).size)
  | _ => true

theorem spared_sound (cfg : QpsCfg) (s : Qps) (a : QpsAct) (h : spared cfg s a = true) :
    Spared cfg s a := by
  unfold spared at h
  split at h
  next =>
    have hk := of_decide_eq_true h
    exact hk
  next hne =>
    unfold Spared
    split
    next => exact absurd rfl (hne _ _)
    next => trivial

/-- QPs with rings of four slots. -/
def fourSlotCfg : QpsCfg := { oneCq with ring := fun _ => fourSlots }

def emptyReq : PostReq := ⟨twoPageTable, emptyWr⟩

/-- A second post, before the first WR was sent. -/
def sparedQps : Qps := afterChecked (qpsStep fourSlotCfg) (spared fourSlotCfg) freshQps
  (.create 7 :: (postActs emptyWr 11).map (.queue (7, .sq)) ++ [.queue (7, .sq) (.start emptyReq)])

theorem sparedQps_reach :
    Reach QpsInit (Acts (qpsStep fourSlotCfg) (Spared fourSlotCfg)) sparedQps :=
  reach_afterChecked (spared_sound fourSlotCfg) (reach_start freshQps_init) _

theorem reach_spared_second :
    (sparedQps.wq (7, .sq)).posted.length = 1 ∧
      ¬ circSpace 1 (sparedQps.wq (7, .sq)).tail (fourSlotCfg.ring (7, .sq)).size < 1 :=
  ⟨by decide, reach_spared fourSlotCfg sparedQps sparedQps_reach (7, .sq) emptyReq 1 rfl⟩

/-- One slot less is not enough: of a queue of two slots the only WR was completed and polled, but the
worker has not released its slot, and the next WR is refused. -/
example : ∃ s : Qps, s = afterActs (qpsStep oneCq) freshQps
      ([.create 7, .start (7, .sq)] ++ (postActs emptyWr 11).map (.queue (7, .sq)) ++
        List.replicate 5 (.queue (7, .sq) (.worker (some 0))) ++ [.complete (7, .sq)] ++
        List.replicate 10 (.cq 0 (.producer (7, .sq))) ++
        .cq 0 (.poll 1) :: List.replicate 9 (.cq 0 .poller) ++
        [.queue (7, .sq) (.start emptyReq), .queue (7, .sq) (.poster none)]) ∧
    (s.wq (7, .sq)).posted.length = s.polledOf oneCq (7, .sq) ∧ (s.wq (7, .sq)).rets = [0, -42] :=
  ⟨_, rfl, by decide, by decide⟩

end DisKverbs
