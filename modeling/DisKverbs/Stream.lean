import DisKverbs.ByteCount
import DisKverbs.AcceptedWqe
import DisKverbs.CompletionStage

namespace DisKverbs

open CellProg CircBuf RingMachine StepSystem

/-- A byte of a message: the message's place among those sent, and the byte's in it. -/
structure MsgByte where
  msg : Nat
  pos : Nat
  deriving DecidableEq

def msgBytesFrom (msg off n : Nat) : List MsgByte := (List.range n).map fun k => ⟨msg, off + k⟩

/-- The first `n` bytes of a message. -/
def msgPrefix (msg n : Nat) : List MsgByte := msgBytesFrom msg 0 n

/-- How far the transport is in the messages of the peer: `off` bytes of message `cur` are
delivered, `got` are the bytes delivered to the calls for the WQE in the worker's hands,
`contents` those delivered for each retired WQE, and `moved` counts the former. Where in memory
the bytes were put is not recorded. -/
structure Stream where
  moved : Nat
  cur : Nat
  off : Nat
  got : List MsgByte
  contents : List (List MsgByte)

/-- The transport delivers `n` more bytes of the current message to the receive under way. -/
def Stream.deliver (msgs : List Nat) (g : Stream) (n : Nat) : Stream :=
  let got := g.got ++ msgBytesFrom g.cur g.off n
  if msgs[g.cur]? = some (g.off + n) then { g with cur := g.cur + 1, off := 0, got := got }
  else { g with off := g.off + n, got := got }

def streamNote (msgs : List Nat) (s : WqState) (a : WqAct) (g : Stream) : Stream :=
  let g := { g with moved := movedBytes s a g.moved }
  match a with
  | .worker out =>
    match s.worker, out with
    | .recvCall _ _ _, some n => g.deliver msgs n.toNat
    | .retire _ _, _ => { g with got := [], contents := g.contents ++ [g.got] }
    | _, _ => g
  | _ => g

abbrev StreamState := WqState × Stream

def streamStep (cfg : WqCfg) (msgs : List Nat) : StreamState → WqAct → Option StreamState :=
  recording (wqStep cfg) (streamNote msgs)

def StreamInit (p : StreamState) : Prop := WqInit p.1 ∧ p.2 = Stream.mk 0 0 0 [] []

/-- A successful receive delivers bytes of one message, in order, and no more than it asks for;
`msgs` are the lengths of the messages sent. -/
def InTurn (msgs : List Nat) (p : StreamState) : WqAct → Prop
  | .worker (some n) => ∀ tail total left, p.1.worker = .recvCall tail total left →
      n.toNat ≤ (p.1.slots tail).byteLen.toNat ∧
        ∃ len, msgs[p.2.cur]? = some len ∧ p.2.off + n.toNat ≤ len
  | _ => True

/-- Every message has the length of the receive of its turn, and one that a completion
can report. -/
def Matched (msgs : List Nat) (posted : List Posted) : Prop :=
  ∀ (i : Nat) (len : Nat) (e : Posted), msgs[i]? = some len → posted[i]? = some e →
    e.req.wr.length = len ∧ len < 2 ^ 16

/-- The receive of turn `i` has the first `n` bytes of its message, which has not arrived. -/
structure Stream.At (g : Stream) (i n : Nat) : Prop where
  cur : g.cur = i
  off : g.off = n
  got : g.got = msgPrefix i n

/-- The receive of turn `i` has its message, and nothing of the next one. -/
structure Stream.Arrived (msgs : List Nat) (g : Stream) (i : Nat) : Prop where
  cur : g.cur = i + 1
  off : g.off = 0
  got : ∃ len, msgs[i]? = some len ∧ g.got = msgPrefix i len

def WorkerPc.Streams (msgs : List Nat) (i : Nat) (g : Stream) (stop : Bool) : WorkerPc → Prop
  | .idle | .check | .gotHead _ | .recvTotal _ | .recvLeft _ _ => g.At i 0
  | .top => g.got = [] ∧ (g.At i 0 ∨ stop = true ∧ g.cur ≤ i)
  | .exited => g.got = [] ∧ g.cur ≤ i
  | .sendTop _ | .sendCall _ => False
  | .recvTop _ _ _ | .recvCall _ _ _ | .recvAgain _ _ _ => ∃ n, g.At i n
  | .recvGot _ _ _ => (∃ n len, g.At i n ∧ msgs[i]? = some len ∧ n < len) ∨ g.Arrived msgs i
  | .recvWhole _ _ => g.Arrived msgs i
  | .complete _ status | .free _ status | .retire _ status =>
    (status = .success ∧ g.Arrived msgs i) ∨
      status = .respTimeoutErr ∧ stop = true ∧ ∃ n, g.At i n

/-- What the receive of turn `i` got. -/
def Received (msgs : List Nat) (retired : List IbWcStatus) (i : Nat) (bytes : List MsgByte) : Prop :=
  ∃ n, bytes = msgPrefix i n ∧ (retired[i]? = some .success → msgs[i]? = some n)

def WorkerPc.NoSend : WorkerPc → Prop
  | .sendTop _ | .sendCall _ => False
  | _ => True

/-- What a queue of receives got, whatever the lengths of the messages are. -/
structure GotInv (p : StreamState) : Prop where
  noSend : p.1.worker.NoSend
  moved : p.2.got.length = p.2.moved
  contents : p.2.contents.length = p.1.retired.length
  filled : ∀ (i : Nat) (bytes : List MsgByte) (e : Posted), p.2.contents[i]? = some bytes →
    p.1.retired[i]? = some .success → p.1.posted[i]? = some e →
    bytes.length = e.wqe.byteLen.toNat

structure StreamInv (msgs : List Nat) (p : StreamState) : Prop where
  worker : p.1.worker.Streams msgs p.1.retired.length p.2 p.1.shouldStop
  received : ∀ i bytes, p.2.contents[i]? = some bytes → Received msgs p.1.retired i bytes

section

variable {cfg : WqCfg} {msgs : List Nat} {s t : WqState} {g : Stream} {i n : Nat}

@[simp] theorem msgPrefix_length (i n : Nat) : (msgPrefix i n).length = n := by
  simp [msgPrefix, msgBytesFrom]

theorem msgPrefix_add (i m n : Nat) : msgPrefix i (m + n) = msgPrefix i m ++ msgBytesFrom i m n := by
  simp only [msgPrefix, msgBytesFrom, List.range_add, List.map_append, List.map_map, Nat.zero_add]
  rfl

theorem Stream.At.deliver (h : g.At i n) {k len : Nat} (hlen : msgs[i]? = some len)
    (hk : n + k ≤ len) : ((g.deliver msgs k).At i (n + k) ∧ n + k < len) ∨
      (g.deliver msgs k).Arrived msgs i := by
  obtain ⟨hcur, hoff, hgot⟩ := h
  have hbytes : g.got ++ msgBytesFrom g.cur g.off k = msgPrefix i (n + k) := by
    rw [hcur, hoff, hgot, msgPrefix_add]
  unfold Stream.deliver
  split
  next hend =>
    rw [hcur, hoff, hlen] at hend
    cases Option.some.inj hend
    exact .inr ⟨by rw [hcur], rfl, n + k, hlen, hbytes⟩
  next hmore =>
    rw [hcur, hoff, hlen] at hmore
    have hne : len ≠ n + k := fun he => hmore (congrArg some he)
    exact .inl ⟨⟨hcur, by rw [hoff], hbytes⟩, by omega⟩

theorem deliver_got_length (k : Nat) : (g.deliver msgs k).got.length = g.got.length + k := by
  unfold Stream.deliver
  split <;> simp [msgBytesFrom]

theorem deliver_moved (k : Nat) : (g.deliver msgs k).moved = g.moved := by
  unfold Stream.deliver
  split <;> rfl

theorem deliver_contents (k : Nat) : (g.deliver msgs k).contents = g.contents := by
  unfold Stream.deliver
  split <;> rfl

theorem Stream.At.start {g : Stream} (h : g.At i 0) : g.got = [] := h.got

theorem streamNote_idle {out : Option UInt32} (hr : ∀ tail status, s.worker ≠ .retire tail status)
    (hc : out = none ∨ ∀ tail total left, s.worker ≠ .recvCall tail total left) :
    streamNote msgs s (.worker out) g = { g with moved := movedBytes s (.worker out) g.moved } := by
  simp only [streamNote]
  split
  next hw =>
    rcases hc with hc | hc
    · simp at hc
    · exact absurd hw (hc _ _ _)
  next hw => exact absurd hw (hr _ _)
  next => rfl

theorem at_moved (m : Nat) : ({ g with moved := m }).At i n ↔ g.At i n :=
  ⟨fun h => ⟨h.cur, h.off, h.got⟩, fun h => ⟨h.cur, h.off, h.got⟩⟩

theorem arrived_moved (m : Nat) : ({ g with moved := m }).Arrived msgs i ↔ g.Arrived msgs i :=
  ⟨fun h => ⟨h.cur, h.off, h.got⟩, fun h => ⟨h.cur, h.off, h.got⟩⟩

/-- The ghost count does not matter to where the stream is. -/
theorem streams_moved (pc : WorkerPc) (stop : Bool) (m : Nat) :
    pc.Streams msgs i { g with moved := m } stop ↔ pc.Streams msgs i g stop := by
  cases pc <;> simp only [WorkerPc.Streams, at_moved, arrived_moved]

/-- The receive loop counts right: nothing is left exactly if the whole message is there. -/
theorem recvGot_counts {tail len : Nat} {total left : UInt32}
    (hw : s.worker = .recvGot tail total left) (hgot : g.got = msgPrefix i n)
    (hmoved : g.got.length = g.moved) (hcount : CountInv (s, g.moved))
    (hlen : s.heldLen.toNat = len) : left - (s.slots tail).byteLen = 0 ↔ n = len := by
  have hn : g.moved = n := by rw [← hmoved, hgot, msgPrefix_length]
  simp only [CountInv, hw] at hcount
  obtain ⟨_, hle, hsum⟩ := hcount
  rw [hn, hlen] at hsum
  have hsub : (left - (s.slots tail).byteLen).toNat = left.toNat - (s.slots tail).byteLen.toNat :=
    UInt32.toNat_sub_of_le _ _ (UInt32.le_iff_toNat_le.mpr hle)
  rw [← UInt32.toNat_inj, hsub, UInt32.toNat_zero]
  omega

theorem workerStep_noSend (hrq : cfg.type = .rq) (hs : s.worker.NoSend) {out : Option UInt32}
    (h : workerStep cfg out s = some t) : t.worker.NoSend := by
  cases workerStep_access h with
  | acquireSqe _ _ hsq => simp [hrq] at hsq
  | sendCalled hw | sendFailed hw =>
    rw [hw] at hs
    exact hs.elim
  | _ => trivial

/-- The ghost count follows the bytes received, and only a retirement files them. -/
theorem streamNote_got (hs : s.worker.NoSend) (hm : g.got.length = g.moved)
    (out : Option UInt32) : (streamNote msgs s (.worker out) g).got.length =
      (streamNote msgs s (.worker out) g).moved := by
  cases hw : s.worker with
  | sendTop tail => rw [hw] at hs; exact hs.elim
  | sendCall tail => rw [hw] at hs; exact hs.elim
  | recvCall tail total left =>
    cases out with
    | none => simpa [streamNote, movedBytes, hw] using hm
    | some n =>
      simp only [streamNote, hw, deliver_got_length, deliver_moved, movedBytes, hm]
  | retire tail status => simp [streamNote, movedBytes, hw]
  | _ => simpa [streamNote, movedBytes, hw] using hm

theorem workerStep_streams (hrq : cfg.type = .rq) (hi : StreamInv msgs (s, g))
    (hmoved : g.got.length = g.moved) (hcount : CountInv (s, g.moved))
    (hheld : ∀ len, s.worker.holds ≠ none → msgs[s.retired.length]? = some len →
      s.heldLen.toNat = len) {out : Option UInt32} (ha : InTurn msgs (s, g) (.worker out))
    (h : workerStep cfg out s = some t) :
    t.worker.Streams msgs t.retired.length (streamNote msgs s (.worker out) g) t.shouldStop := by
  have hw := hi.worker
  simp only at hw
  have keep {pc pc' : WorkerPc} (hpc : s.worker = pc) (hr : ∀ tail status, pc ≠ .retire tail status)
      (hc : out = none ∨ ∀ tail total left, pc ≠ .recvCall tail total left)
      (hnext : pc'.Streams msgs s.retired.length g s.shouldStop) :
      pc'.Streams msgs s.retired.length (streamNote msgs s (.worker out) g) s.shouldStop := by
    rw [streamNote_idle (by rw [hpc]; exact hr) (by rw [hpc]; exact hc)]
    exact (streams_moved _ _ _).mpr hnext
  have hlen {len : Nat} {tail total left} (hpc : s.worker = .recvGot tail total left)
      (hm : msgs[s.retired.length]? = some len) : s.heldLen.toNat = len :=
    hheld len (by simp [hpc, WorkerPc.holds, WorkerPc.consumes]) hm
  cases workerStep_access h with
  | wake hpc =>
    rw [hpc] at hw
    exact keep hpc (by simp) (by simp) ⟨hw.start, .inl hw⟩
  | leave hpc =>
    rw [hpc] at hw
    refine keep hpc (by simp) (by simp) ⟨hw.1, ?_⟩
    rcases hw.2 with hat | ⟨_, hle⟩
    · exact hat.cur.le
    · exact hle
  | enter hpc hs =>
    rw [hpc] at hw
    rcases hw.2 with hat | ⟨hstop, _⟩
    · exact keep hpc (by simp) (by simp) hat
    · simp [hs] at hstop
  | peek hpc | empty hpc | acquireRqe hpc | loadTotal hpc | recvCalled hpc | again hpc
  | complete hpc | free hpc =>
    rw [hpc] at hw
    exact keep hpc (by simp) (by simp) hw
  | acquireSqe _ _ hsq => simp [hrq] at hsq
  | sendStopped hpc | sendCalled hpc | sendFailed hpc | sent hpc =>
    rw [hpc] at hw
    exact hw.elim
  | loadLeft hpc =>
    rw [hpc] at hw
    exact keep hpc (by simp) (by simp) ⟨0, hw⟩
  | recvStopped hpc hs =>
    rw [hpc] at hw
    exact keep hpc (by simp) (by simp) (.inr ⟨rfl, hs, hw⟩)
  | recvFailed hpc =>
    rw [hpc] at hw
    exact keep hpc (by simp) (.inl rfl) hw
  | @received tail total left m hpc =>
    rw [hpc] at hw
    obtain ⟨n, hat⟩ := hw
    obtain ⟨_, len, hmsg, hle⟩ := ha tail total left hpc
    simp only [hat.cur, hat.off] at hmsg hle
    show WorkerPc.Streams msgs _ (streamNote msgs s (.worker (some m)) g) _ (.recvGot _ _ _)
    simp only [streamNote, hpc]
    rcases ((at_moved _).mpr hat).deliver hmsg hle with ⟨hat', hlt⟩ | harr
    · exact .inl ⟨_, len, hat', hmsg, hlt⟩
    · exact .inr harr
  | whole hpc hz =>
    rw [hpc] at hw
    refine keep hpc (by simp) (by simp) ?_
    rcases hw with ⟨n, len, hat, hmsg, hlt⟩ | harr
    · have hn := (recvGot_counts hpc hat.got hmoved hcount (hlen hpc hmsg)).mp hz
      omega
    · exact harr
  | part hpc hmore =>
    rw [hpc] at hw
    refine keep hpc (by simp) (by simp) ?_
    rcases hw with ⟨n, len, hat, _⟩ | harr
    · exact ⟨n, hat⟩
    · obtain ⟨len, hmsg, hgot⟩ := harr.got
      have hz := (recvGot_counts hpc hgot hmoved hcount (hlen hpc hmsg)).mpr rfl
      exact absurd hz hmore
  | restore hpc =>
    rw [hpc] at hw
    exact keep hpc (by simp) (by simp) (.inl ⟨rfl, hw⟩)
  | retire hpc =>
    rw [hpc] at hw
    simp only [streamNote, hpc, List.length_append, List.length_singleton]
    refine ⟨rfl, ?_⟩
    rcases hw with ⟨_, harr⟩ | ⟨_, hstop, n, hat⟩
    · exact .inl ⟨harr.cur, harr.off, rfl⟩
    · exact .inr ⟨hstop, by rw [hat.cur]; omega⟩

/-- A step of the worker files the bytes of a WQE when it retires it. -/
theorem streamNote_contents (msgs : List Nat) (g : Stream) {out : Option UInt32}
    (h : workerStep cfg out s = some t) :
    ((streamNote msgs s (.worker out) g).contents = g.contents ∧ t.retired = s.retired) ∨
      ∃ tail status, s.worker = .retire tail status ∧ t.retired = s.retired ++ [status] ∧
        (streamNote msgs s (.worker out) g).contents = g.contents ++ [g.got] := by
  by_cases hr : ∃ tail status, s.worker = .retire tail status
  · obtain ⟨tail, status, hw⟩ := hr
    simp only [workerStep, hw] at h
    cases Option.some.inj h
    exact .inr ⟨tail, status, hw, rfl, by simp only [streamNote, hw]⟩
  · refine .inl ⟨?_, ?_⟩
    · simp only [streamNote]
      split
      next => exact deliver_contents _
      next hw => exact absurd ⟨_, _, hw⟩ hr
      next => rfl
    · cases workerStep_move h with
      | retire hw => exact absurd ⟨_, _, hw⟩ hr
      | _ => rfl

theorem streamNote_moved (a : WqAct) :
    (streamNote msgs s a g).moved = movedBytes s a g.moved := by
  cases a with
  | worker out =>
    simp only [streamNote]
    split
    next => exact deliver_moved _
    next => rfl
    next => rfl
  | _ => rfl

theorem InTurn.within {p : StreamState} {a : WqAct} (h : InTurn msgs p a) :
    WithinRequest p.1 a := by
  cases a with
  | worker out =>
    cases out with
    | none => trivial
    | some n => exact fun tail total left hw => (h tail total left hw).1
  | _ => trivial

theorem streamNote_other {a : WqAct} (ha : ∀ out, a ≠ .worker out) : streamNote msgs s a g = g := by
  cases a with
  | worker out => exact absurd rfl (ha out)
  | _ => rfl

theorem wqStep_stops {a : WqAct} (ha : ∀ out, a ≠ .worker out) (h : wqStep cfg s a = some t)
    (hs : s.shouldStop = true) : t.shouldStop = true := by
  cases a with
  | start req =>
    obtain ⟨_, rfl⟩ := wqStep_start h
    exact hs
  | poster buf => cases posterStep_move h <;> exact hs
  | worker out => exact absurd rfl (ha out)
  | stop => cases Option.some.inj h; rfl

theorem streams_stop {pc : WorkerPc} {stop stop' : Bool} (h : pc.Streams msgs i g stop)
    (hs : stop = true → stop' = true) : pc.Streams msgs i g stop' := by
  cases pc with
  | top => exact ⟨h.1, h.2.imp_right fun hle => ⟨hs hle.1, hle.2⟩⟩
  | complete tail status => exact h.imp_right fun hr => ⟨hr.1, hs hr.2.1, hr.2.2⟩
  | free tail status => exact h.imp_right fun hr => ⟨hr.1, hs hr.2.1, hr.2.2⟩
  | retire tail status => exact h.imp_right fun hr => ⟨hr.1, hs hr.2.1, hr.2.2⟩
  | _ => exact h

theorem GotInv.step (hrq : cfg.type = .rq) (hi : GotInv (s, g))
    (hr : RingInv cfg.ring DisWqe.eraseLen s.ring) (hcount : CountInv (s, g.moved)) {a : WqAct}
    (h : wqStep cfg s a = some t) : GotInv (t, streamNote msgs s a g) := by
  have hfilled := hi.filled
  by_cases ha : ∃ out, a = .worker out
  · obtain ⟨out, rfl⟩ := ha
    have hposted := (workerStep_move h).frame.2.1
    refine ⟨workerStep_noSend hrq hi.noSend h, streamNote_got hi.noSend hi.moved out, ?_, ?_⟩
    · have hlen := hi.contents
      rcases streamNote_contents msgs g h with ⟨hc, hret⟩ | ⟨_, _, _, hret, hc⟩
      · simpa only [hc, hret] using hlen
      · simpa only [hc, hret, List.length_append, List.length_singleton] using congrArg (· + 1) hlen
    · intro i bytes e hb hs he
      simp only [hposted] at he
      rcases streamNote_contents msgs g h with ⟨hc, hret⟩ | ⟨tail, status, hw, hret, hc⟩
      · simp only [hc, hret] at hb hs
        exact hfilled i bytes e hb hs he
      · simp only [hc, hret] at hb hs
        have hlen : g.contents.length = s.retired.length := hi.contents
        rcases Nat.lt_trichotomy i s.retired.length with hlt | heq | hgt
        · rw [List.getElem?_append_left (by omega)] at hb hs
          exact hfilled i bytes e hb hs he
        · rw [List.getElem?_append_right (by omega)] at hb hs
          simp only [hlen, heq, Nat.sub_self, List.getElem?_cons_zero, Option.some.injEq] at hb hs
          simp only [CountInv, hw] at hcount
          obtain ⟨_, hmoved⟩ := hcount hs
          have hgot : g.got.length = g.moved := hi.moved
          rw [heq] at he
          rw [← hb, hgot, hmoved, heldLen_posted he]
        · have hnone : (s.retired ++ [status])[i]? = none := by
            rw [List.getElem?_eq_none_iff, List.length_append, List.length_singleton]
            omega
          rw [hnone] at hs
          cases hs
  · have ha' := not_exists.mp ha
    obtain ⟨hworker, hret, es, hposted⟩ := wqStep_other ha' h
    rw [streamNote_other ha']
    refine ⟨by rw [hworker]; exact hi.noSend, hi.moved, by rw [hret]; exact hi.contents, ?_⟩
    intro i bytes e hb hs he
    have hle := (wqBounds hr).le
    simp only [hret] at hs
    have hlt := (List.getElem?_eq_some_iff.mp hs).1
    simp only [hposted, List.getElem?_append_left (show i < s.posted.length by omega)] at he
    exact hfilled i bytes e hb hs he

theorem StreamInv.step (hrq : cfg.type = .rq) (hi : StreamInv msgs (s, g)) (hg : GotInv (s, g))
    (hcount : CountInv (s, g.moved))
    (hheld : ∀ len, s.worker.holds ≠ none → msgs[s.retired.length]? = some len →
      s.heldLen.toNat = len) {a : WqAct} (ha : InTurn msgs (s, g) a)
    (h : wqStep cfg s a = some t) : StreamInv msgs (t, streamNote msgs s a g) := by
  by_cases hact : ∃ out, a = .worker out
  · obtain ⟨out, rfl⟩ := hact
    have hstop : t.shouldStop = s.shouldStop := by cases workerStep_move h <;> rfl
    refine ⟨workerStep_streams hrq hi hg.moved hcount hheld ha h, ?_⟩
    intro i bytes hb
    have hrec := hi.received
    rcases streamNote_contents msgs g h with ⟨hc, hret⟩ | ⟨tail, status, hw, hret, hc⟩
    · simp only [hc, hret] at hb ⊢
      exact hrec i bytes hb
    · simp only [hc, hret] at hb ⊢
      have hlen : g.contents.length = s.retired.length := hg.contents
      by_cases hlt : i < g.contents.length
      · rw [List.getElem?_append_left hlt] at hb
        obtain ⟨n, hbytes, hn⟩ := hrec i bytes hb
        refine ⟨n, hbytes, fun hs => hn ?_⟩
        rwa [List.getElem?_append_left (by omega)] at hs
      · rw [List.getElem?_append_right (by omega), List.getElem?_singleton] at hb
        split at hb
        next hz =>
          have heq : i = s.retired.length := by omega
          have hbytes := Option.some.inj hb
          have hstreams := hi.worker
          simp only [hw] at hstreams
          rcases hstreams with ⟨_, harr⟩ | ⟨hst, _, n, hat⟩
          · obtain ⟨len, hmsg, hgot⟩ := harr.got
            exact ⟨len, by rw [← hbytes, hgot, heq], fun _ => by rw [heq]; exact hmsg⟩
          · refine ⟨n, by rw [← hbytes, hat.got, heq], fun hs => ?_⟩
            rw [heq, List.getElem?_append_right le_rfl, Nat.sub_self, hst] at hs
            cases hs
        next => simp at hb
  · have ha' := not_exists.mp hact
    obtain ⟨hworker, hret, _⟩ := wqStep_other ha' h
    rw [streamNote_other ha']
    refine ⟨?_, by rw [hret]; exact hi.received⟩
    rw [hworker, hret]
    exact streams_stop hi.worker (wqStep_stops ha' h)

end

end DisKverbs
