import DisKverbs.Verbs

namespace DisKverbs

open CellProg

/-- `struct dis_cqe`; `byte_len` has 16 bits here and 32 in the WQE. -/
structure DisCqe where
  ibqp : Nat
  wrId : UInt32
  status : IbWcStatus
  byteLen : UInt16
  opcode : IbWcOpcode
  deriving DecidableEq

instance : Inhabited DisCqe := ⟨⟨0, 0, .success, 0, .send⟩⟩

structure IbWc where
  wrId : UInt64
  status : IbWcStatus
  opcode : IbWcOpcode
  byteLen : UInt32
  qp : Nat
  deriving DecidableEq

/-- The fields of `struct dis_cq` and its `cqe_circ`; `cqe` is `ibcq->cqe`. -/
structure DisCq where
  head : Nat
  tail : Nat
  buf : Nat → DisCqe
  cqeMax : Nat
  cqe : Nat

inductive CqeStore
  | wrId (v : UInt32)
  | opcode (v : IbWcOpcode)
  | byteLen (v : UInt16)
  | ibqp (v : Nat)
  | status (v : IbWcStatus)

def CqeStore.put : CqeStore → DisCqe → DisCqe
  | .wrId v, c => { c with wrId := v }
  | .opcode v, c => { c with opcode := v }
  | .byteLen v, c => { c with byteLen := v }
  | .ibqp v, c => { c with ibqp := v }
  | .status v, c => { c with status := v }

instance : Cell DisCqe CqeStore := ⟨CqeStore.put⟩

abbrev CqeProg := Prog DisCqe CqeStore Unit

/-- The stores that both completion functions make, word for word. -/
def postCqeBody (wqe : DisWqe) (wqStatus : IbWcStatus) : CqeProg Unit := do
  store (.wrId wqe.wrId)
  store (.opcode wqe.opcode)
  store (.byteLen wqe.byteLen.toUInt16)
  store (.ibqp wqe.ibqp)
  store (.status wqStatus)

def disWqPostSqeCqe := postCqeBody

def disWqPostRqeCqe := postCqeBody

def disWqPostCqe : DisWqType → DisWqe → IbWcStatus → CqeProg Unit
  | .sq => disWqPostSqeCqe
  | .rq => disWqPostRqeCqe

theorem disWqPostCqe_eq (type : DisWqType) : disWqPostCqe type = postCqeBody := by
  cases type <;> rfl

def copyCqe : CqeProg IbWc := do
  let wrId := (← load).wrId.toUInt64
  let status := (← load).status
  let opcode := (← load).opcode
  let byteLen := (← load).byteLen.toUInt32
  let qp := (← load).ibqp
  pure ⟨wrId, status, opcode, byteLen, qp⟩

/-- The entry a completed WQE is reported with. -/
def DisWqe.cqe (wqe : DisWqe) (wqStatus : IbWcStatus) : DisCqe :=
  ⟨wqe.ibqp, wqe.wrId, wqStatus, wqe.byteLen.toUInt16, wqe.opcode⟩

/-- What the consumer is told about an entry. -/
def DisCqe.wc (c : DisCqe) : IbWc :=
  ⟨c.wrId.toUInt64, c.status, c.opcode, c.byteLen.toUInt32, c.ibqp⟩

section

variable {A : Unit → Prop}

/-- Whatever the slot held before, the stores leave the entry of the WQE. -/
theorem postCqeBody_runs {wqe : DisWqe} {st : IbWcStatus} {c c' : DisCqe} {u : Unit} :
    Runs A (postCqeBody wqe st) c u c' ↔ c' = wqe.cqe st := by
  simp [postCqeBody, Cell.put, CqeStore.put, DisWqe.cqe]

theorem copyCqe_runs {c c' : DisCqe} {wc : IbWc} :
    Runs A copyCqe c wc c' ↔ wc = c.wc ∧ c' = c := by
  simp only [copyCqe, runs_bind, runs_load, runs_pure]
  constructor
  · rintro ⟨_, _, ⟨rfl, rfl⟩, _, _, ⟨rfl, rfl⟩, _, _, ⟨rfl, rfl⟩, _, _, ⟨rfl, rfl⟩, _, _,
      ⟨rfl, rfl⟩, rfl, rfl⟩
    exact ⟨rfl, rfl⟩
  · rintro ⟨rfl, rfl⟩
    exact ⟨_, _, ⟨rfl, rfl⟩, _, _, ⟨rfl, rfl⟩, _, _, ⟨rfl, rfl⟩, _, _, ⟨rfl, rfl⟩, _, _,
      ⟨rfl, rfl⟩, rfl, rfl⟩

end

end DisKverbs
