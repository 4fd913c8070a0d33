import DisKverbs.LinkRun
import DisKverbs.OwnSteps
import DisKverbs.SciIf
import DisKverbs.WorkerProgress

namespace DisKverbs

open ByteMem CellProg CircBuf MessageFifo OwnSteps RingMachine StepSystem

def LinkAct.byWorkers : LinkAct → Bool
  | .sq (.worker _) | .rq (.worker _) => true
  | _ => false

/-- A link that holds at most `n` messages. -/
def roomStep (cfg : LinkCfg) (n : Nat) (s : LinkState) (a : LinkAct) : Option LinkState :=
  (linkStep cfg s a).filter fun t => t.channel.length ≤ n

/-- The outcome of a transport call that moves the whole message. -/
def WqState.granted (s : WqState) : Option UInt32 :=
  match s.worker with
  | .sendCall tail | .recvCall tail _ _ => some (s.slots tail).byteLen
  | _ => none

/-- How many accesses a worker makes until it has retired its next WQE, when its calls are granted
and it finds the WQE, also where it does so only in its next look at the ring. -/
def WqState.rank (size : Nat) (s : WqState) : Nat :=
  match s.worker with
  | .gotHead head => if circCnt head s.tail size < 1 then 14 else 10
  | .idle => 13
  | .top => 12
  | .check => 11
  | .recvTotal _ => 9
  | .recvLeft _ _ | .recvAgain _ _ _ => 8
  | .sendTop _ | .recvTop _ _ _ => 7
  | .sendCall _ | .recvCall _ _ _ => 6
  | .recvGot _ _ _ => 5
  | .recvWhole _ _ => 4
  | .complete _ _ => 3
  | .free _ _ => 2
  | .retire _ _ => 1
  | .exited => 0

section

variable {cfg : WqCfg} {s : WqState}

theorem rank_le (size : Nat) (s : WqState) : s.rank size ≤ 14 := by
  unfold WqState.rank
  split
  next => split <;> omega
  all_goals omega

/-- A worker whose calls are granted comes closer to the retirement of a WQE that was posted. -/
theorem WholeInv.advances (hr : RingInv cfg.ring DisWqe.eraseLen s.ring) (hv : WholeInv s)
    (hlt : s.retired.length < s.posted.length) : ∃ t, workerStep cfg s.granted s = some t ∧
      (t.retired.length = s.retired.length + 1 ∨
        t.retired = s.retired ∧ t.rank cfg.ring.size < s.rank cfg.ring.size) := by
  have hwh := hv.whole
  have hin : s.worker ≠ .exited := by
    intro hw
    rw [hw] at hwh
    exact hwh
  obtain ⟨t, ht⟩ : ∃ t, workerStep cfg s.granted s = some t := workerStep_some s.granted hin
  refine ⟨t, ht, ?_⟩
  have nearer {pc : WorkerPc} (hw : s.worker = pc) (hret : t.retired = s.retired)
      (hrank : t.rank cfg.ring.size < ({ s with worker := pc } : WqState).rank cfg.ring.size) :
      t.retired.length = s.retired.length + 1 ∨
        t.retired = s.retired ∧ t.rank cfg.ring.size < s.rank cfg.ring.size := by
    subst hw
    exact .inr ⟨hret, hrank⟩
  generalize hout : s.granted = out at ht
  cases workerStep_access ht with
  | leave _ hs | sendStopped _ hs | recvStopped _ hs => simp [hv.runs] at hs
  | sendFailed hw | recvFailed hw => simp [WqState.granted, hw] at hout
  | part hw hmore =>
    rw [hw] at hwh
    exact absurd (by rw [hwh.2, UInt32.sub_self]) hmore
  | peek hw =>
    -- the worker finds what was posted
    have hb := wqBounds hr
    have hcnt : ¬ circCnt s.head s.tail cfg.ring.size < 1 := by
      rw [hb.head, hb.tail, circCnt_mod cfg.ring hb.le hb.room]
      omega
    exact nearer hw rfl (by simp [WqState.rank, hcnt])
  | empty hw hc => exact nearer hw rfl (by simp [WqState.rank, hc])
  | acquireSqe hw hc | acquireRqe hw hc => exact nearer hw rfl (by simp [WqState.rank, hc])
  | retire hw => exact .inl (by simp)
  | wake hw | enter hw | sendCalled hw | sent hw | loadTotal hw | loadLeft hw | recvCalled hw
  | received hw | whole hw | restore hw | again hw | complete hw | free hw =>
    exact nearer hw rfl (by simp [WqState.rank])

/-- A call that can move a message is granted the length of the WQE in the worker's hands. -/
theorem moving_granted {tail : Nat} (h : s.moving (.worker s.granted) = some tail) :
    s.granted = some (s.slots tail).byteLen ∧ s.worker.holds = some tail ∧
      s.transfers = s.retired.length := by
  cases hw : s.worker with
  | sendCall tail' | recvCall tail' total left =>
    have hg : s.granted = some (s.slots tail').byteLen := by simp [WqState.granted, hw]
    have he : tail' = tail := by simpa [WqState.moving, hg, hw] using h
    subst he
    exact ⟨hg, rfl, by simp [WqState.transfers, WorkerPc.transferred, hw]⟩
  | _ => simp [WqState.moving, WqState.granted, hw] at h

end

/-- The send and the receive of each turn have one length. -/
def LinkState.SameLengths (s : LinkState) : Prop :=
  ∀ (i : Nat) (p q : Posted), s.sq.posted[i]? = some p → s.rq.posted[i]? = some q →
    p.req.bytes.length = q.req.bytes.length

/-- How far the two workers are from having retired `n` WQEs each. -/
def LinkState.distance (cfg : LinkCfg) (n : Nat) (s : LinkState) : Nat :=
  15 * (n - s.sq.retired.length) + s.sq.rank cfg.sq.ring.size +
    (15 * (n - s.rq.retired.length) + s.rq.rank cfg.rq.ring.size)

section

variable {keep : Nat → Prop} {cfg : LinkCfg} {s t : LinkState} {n : Nat}

theorem byWorkers_cases {a : LinkAct} (h : a.byWorkers = true) :
    ∃ out, a = .sq (.worker out) ∨ a = .rq (.worker out) := by
  unfold LinkAct.byWorkers at h
  split at h
  next out => exact ⟨out, .inl rfl⟩
  next out => exact ⟨out, .inr rfl⟩
  next => simp at h

/-- The workers post nothing. -/
theorem worker_frame {a : LinkAct} (ha : a.byWorkers = true) (hs : linkStep cfg s a = some t) :
    t.sq.posted = s.sq.posted ∧ t.rq.posted = s.rq.posted ∧ t.offered = s.offered ∧
      s.delivered.length ≤ t.delivered.length := by
  obtain ⟨out, rfl | rfl⟩ := byWorkers_cases ha
  · cases linkStep_move hs with
    | sq hq =>
      have hp := (workerStep_move hq).frame.2.1
      have hnone : s.accepted _ = [] := accepted_eq (hp.trans (List.append_nil _).symm)
      refine ⟨hp, rfl, ?_, le_rfl⟩
      rw [hnone]
      exact List.append_nil _
  · cases linkStep_move hs with
    | rq _ hq => exact ⟨rfl, (workerStep_move hq).frame.2.1, rfl, by simp⟩
    | @receive _ tail _ _ rq _ _ _ hq =>
      have hstep : workerStep cfg.rq (some (s.rq.slots tail).byteLen) s.rq = some rq := hq
      exact ⟨rfl, (workerStep_move hstep).frame.2.1, rfl, le_rfl⟩

/-- What the applications see to is not up to the workers. -/
theorem worker_ok (hf : LinkSound keep s) {a : LinkAct} (ha : a.byWorkers = true) :
    LinkOk keep cfg s a := by
  refine ⟨?_, fun t hs => ?_⟩
  · obtain ⟨out, rfl | rfl⟩ := byWorkers_cases ha <;> exact trivial
  · obtain ⟨hsq, hrq, _, hd⟩ := worker_frame ha hs
    have hu {i : Nat} (h : t.inUse keep i) : s.inUse keep i := h.imp_left hd.trans
    refine ⟨?_, ?_, ?_, ?_⟩
    · rw [hsq]
      exact hf.sends
    · rw [hrq]
      exact hf.recvs
    · intro i p hp hi
      rw [hrq] at hp
      exact hf.nodup i p hp (hu hi)
    · intro i j p q hij hp hq hi hj
      rw [hrq] at hp hq
      exact hf.apart i j p q hij hp hq (hu hi) (hu hj)

theorem reach_offeredLen (h : Reach LinkInit (Acts (linkStep cfg) (LinkOk keep cfg)) s) :
    s.offered.map List.length = s.sq.posted.map fun p => p.req.bytes.length := by
  apply h.invariant
  · rintro s ⟨hs, _, _, ho, _⟩
    rw [WqInit] at hs
    simp [hs, ho]
  · rintro s t _ hi ⟨a, _, hst⟩
    cases linkStep_move hst with
    | @sq a sq hq =>
      obtain ⟨es, hes⟩ := wqStep_posted hq
      simp [accepted_eq hes, hes, hi, Function.comp_def]
    | _ => exact hi

/-- The first message under way has the length of the receive that it is for. -/
theorem channel_length (h : Reach LinkInit (Acts (linkStep cfg) (LinkOk keep cfg)) s)
    (hm : s.SameLengths) {m : List UInt8} {rest : List (List UInt8)} (hc : s.channel = m :: rest)
    {q : Posted} (hq : s.rq.posted[s.rq.transfers]? = some q) : m.length = q.req.bytes.length := by
  obtain ⟨hs, hr⟩ := reach_linkInv h
  have hhead : s.handed[s.rq.transfers]? = some m := by
    have hdrop := congrArg List.head? (hr.channel.symm.trans hc)
    rwa [List.head?_drop, List.head?_cons] at hdrop
  have hoff : s.offered[s.rq.transfers]? = some m := by
    have hlt : s.rq.transfers < s.handed.length := (List.getElem?_eq_some_iff.mp hhead).1
    rw [hs.order, List.getElem?_take_of_lt hlt] at hhead
    exact hhead
  have hlen := congrArg (·[s.rq.transfers]?) (reach_offeredLen h)
  simp only [List.getElem?_map, hoff, Option.map_some] at hlen
  obtain ⟨p, hp, he⟩ := Option.map_eq_some_iff.mp hlen.symm
  exact he.symm.trans (hm _ p q hp hq)

/-- The requester's worker goes on, with one more message under way at most. -/
theorem sq_advances (h : Reach LinkInit (Acts (linkStep cfg) (LinkOk keep cfg)) s)
    (hlt : s.sq.retired.length < s.sq.posted.length) :
    ∃ t, linkStep cfg s (.sq (.worker s.sq.granted)) = some t ∧ t.rq = s.rq ∧
      t.channel.length ≤ s.channel.length + 1 ∧
      (t.sq.retired.length = s.sq.retired.length + 1 ∨ t.sq.retired = s.sq.retired ∧
        t.sq.rank cfg.sq.ring.size < s.sq.rank cfg.sq.ring.size) := by
  have hsq := reach_linkSq h
  obtain ⟨q, hq, hnear⟩ := (reach_wholeInv hsq).advances (reach_wqRing hsq) hlt
  have hstep : wqStep cfg.sq s.sq (.worker s.sq.granted) = some q := hq
  have hlink : linkStep cfg s (.sq (.worker s.sq.granted)) = some { s with
      sq := q
      channel := s.channel ++ s.sent (.worker s.sq.granted)
      offered := s.offered ++ s.accepted q
      handed := s.handed ++ s.sent (.worker s.sq.granted) } := by
    rw [linkStep, hstep, Option.map_some]
  refine ⟨_, hlink, rfl, ?_, hnear⟩
  have hsent : (s.sent (.worker s.sq.granted)).length ≤ 1 := by
    unfold LinkState.sent
    split <;> simp
  rw [List.length_append]
  omega

/-- The responder's worker goes on, or waits for a message. -/
theorem rq_advances (h : Reach LinkInit (Acts (linkStep cfg) (LinkOk keep cfg)) s)
    (hm : s.SameLengths) (hlt : s.rq.retired.length < s.rq.posted.length) :
    s.channel = [] ∧ s.handed.length = s.rq.retired.length ∨
    ∃ t, linkStep cfg s (.rq (.worker s.rq.granted)) = some t ∧ t.sq = s.sq ∧
      t.channel.length ≤ s.channel.length ∧
      (t.rq.retired.length = s.rq.retired.length + 1 ∨ t.rq.retired = s.rq.retired ∧
        t.rq.rank cfg.rq.ring.size < s.rq.rank cfg.rq.ring.size) := by
  have hrq := reach_linkRq h
  obtain ⟨_, hr⟩ := reach_linkInv h
  have hv := reach_wholeInv hrq
  obtain ⟨q, hq, hnear⟩ := hv.advances (reach_wqRing hrq) hlt
  have hstep : wqStep cfg.rq s.rq (.worker s.rq.granted) = some q := hq
  cases hmv : s.rq.moving (.worker s.rq.granted) with
  | none =>
    have hlink : linkStep cfg s (.rq (.worker s.rq.granted)) = some { s with
        rq := q
        delivered := s.delivered ++ s.completed (.worker s.rq.granted) } := by
      simp only [linkStep, LinkState.rqStep, hmv, hstep, Option.map_some]
    exact .inr ⟨_, hlink, rfl, le_rfl, hnear⟩
  | some tail =>
    obtain ⟨hgrant, hholds, hcount⟩ := moving_granted hmv
    cases hc : s.channel with
    | nil =>
      have hdrop := hr.channel.symm.trans hc
      have htaken := hr.taken
      rw [List.drop_eq_nil_iff] at hdrop
      exact .inl ⟨rfl, by omega⟩
    | cons m rest =>
      obtain ⟨p, hp, _, hlen⟩ := held_message hv (reach_wqInv hrq) (reach_linkSound h).recvs hholds
      have hmlen : m.length = (s.rq.slots tail).byteLen.toNat :=
        (channel_length h hm hc (by rw [hcount]; exact hp)).trans hlen.symm
      rw [hgrant] at hstep
      have hlink : linkStep cfg s (.rq (.worker s.rq.granted)) = some { s with
          rq := q
          channel := rest
          recvMem := writeBytes s.recvMem (s.rq.slots tail).msgBytes m } := by
        simp only [linkStep, LinkState.rqStep, hmv, hc, if_pos hmlen, hstep, Option.map_some]
      exact .inr ⟨_, hlink, rfl, by simp, hnear⟩

/-- As long as a receive is left whose send was posted, one of the two workers can come closer to
the end of its WQE, however little room the link has. -/
theorem link_advances (h : Reach LinkInit (Acts (linkStep cfg) (LinkOk keep cfg)) s)
    (hm : s.SameLengths) {room : Nat} (hroom : s.channel.length ≤ room) (hpos : 0 < room)
    (hn : n ≤ s.sq.posted.length) (hn' : n ≤ s.rq.posted.length) (hlt : s.rq.retired.length < n) :
    ∃ a t, a.byWorkers = true ∧ roomStep cfg room s a = some t ∧
      t.distance cfg n < s.distance cfg n := by
  rcases rq_advances h hm (lt_of_lt_of_le hlt hn') with ⟨hempty, hwait⟩ | ⟨t, ht, hsq, hch, hnear⟩
  · obtain ⟨hs, _⟩ := reach_linkInv h
    have hless : s.sq.retired.length < n := by
      have hcount := hs.count
      rw [WqState.transfers] at hcount
      omega
    obtain ⟨t, ht, hrq, hch, hnear⟩ := sq_advances h (lt_of_lt_of_le hless hn)
    refine ⟨.sq (.worker s.sq.granted), t, rfl, ?_, ?_⟩
    · rw [hempty] at hch
      exact Option.filter_eq_some_iff.mpr ⟨ht, by simpa using hch.trans hpos⟩
    · have hrank := rank_le cfg.sq.ring.size t.sq
      unfold LinkState.distance
      rw [hrq]
      rcases hnear with hret | ⟨hret, hrk⟩
      · omega
      · rw [hret]
        omega
  · refine ⟨.rq (.worker s.rq.granted), t, rfl,
      Option.filter_eq_some_iff.mpr ⟨ht, by simpa using hch.trans hroom⟩, ?_⟩
    have hrank := rank_le cfg.rq.ring.size t.rq
    unfold LinkState.distance
    rw [hsq]
    rcases hnear with hret | ⟨hret, hrk⟩
    · omega
    · rw [hret]
      omega

/-- The workers alone can retire all receives whose sends were posted. -/
theorem link_retires (h : Reach LinkInit (Acts (linkStep cfg) (LinkOk keep cfg)) s)
    (hm : s.SameLengths) {room : Nat} (hroom : s.channel.length ≤ room) (hpos : 0 < room)
    (hn : n ≤ s.sq.posted.length) (hn' : n ≤ s.rq.posted.length) :
    ∃ t, LeadsTo (roomStep cfg room) LinkAct.byWorkers s t ∧
      Reach LinkInit (Acts (linkStep cfg) (LinkOk keep cfg)) t ∧ n ≤ t.rq.retired.length ∧
      t.sq.posted = s.sq.posted ∧ t.rq.posted = s.rq.posted ∧ t.offered = s.offered := by
  induction hd : s.distance cfg n using Nat.strongRecOn generalizing s with
  | ind d ih =>
    by_cases hlt : s.rq.retired.length < n
    · obtain ⟨a, t, ha, hs, hless⟩ := link_advances h hm hroom hpos hn hn' hlt
      obtain ⟨hstep, hroom'⟩ := Option.filter_eq_some_iff.mp hs
      obtain ⟨hsq, hrq, hoff, _⟩ := worker_frame ha hstep
      have ht := h.next ⟨a, worker_ok (reach_linkSound h) ha, hstep⟩
      have hm' : t.SameLengths := by
        unfold LinkState.SameLengths
        rw [hsq, hrq]
        exact hm
      obtain ⟨u, hu, hreach, hret, hsq', hrq', hoff'⟩ := ih _ (hd ▸ hless) ht hm'
        (by simpa using hroom') (hsq ▸ hn) (hrq ▸ hn') rfl
      exact ⟨u, (leadsTo_one ha hs).trans hu, hreach, hret, hsq'.trans hsq, hrq'.trans hrq,
        hoff'.trans hoff⟩
    · exact ⟨s, leadsTo_refl s, h, by omega, rfl, rfl, rfl⟩

end

theorem sameLengths_single {s : LinkState} {req : PostReq} (hs : s.sq.posted.map (·.req) = [req])
    (hr : s.rq.posted.map (·.req) = [req]) : s.SameLengths := by
  intro i p q hp hq
  have hsend : p.req ∈ [req] := hs ▸ List.mem_map_of_mem (List.mem_of_getElem? hp)
  have hrecv : q.req ∈ [req] := hr ▸ List.mem_map_of_mem (List.mem_of_getElem? hq)
  rw [List.mem_singleton.mp hsend, List.mem_singleton.mp hrecv]

/-- The responder waits for the message of a send that is posted and not looked at. -/
def waitingLink : LinkState := afterActs (linkStep twoSlotLink) freshLink (linkActs.take 53)

theorem waitingLink_reach :
    Reach LinkInit (Acts (linkStep twoSlotLink) (LinkOk keepAll twoSlotLink)) waitingLink :=
  reach_afterQuiet (reach_start freshLink_init) (by decide)
    (linkSound_single crossingReq_fits (by decide) rfl rfl)

end DisKverbs
