import Mathlib.Data.List.Basic

/-!
The engine's data model (`types.hpp`, `vertex.hpp`).

Vertex and worker identifiers and superstep numbers are unsigned machine
integers in the source; nothing the engine does with them overflows, so they
are natural numbers here. Quantities wrap and stay `UInt64`; prices are signed
fixed point, whose overflow the language leaves undefined, and are integers.

The message union is read only through the tag that was written with it, so the
tag and the payload are one inductive type and `Message.type` recovers the tag.

The engine itself looks at nothing of a message but its destination. Its model
is therefore generic in the message type, through the class `Addressed`.
-/

namespace Pregel

abbrev VertexId := Nat

abbrev WorkerId := Nat

abbrev Superstep := Nat

inductive Side where
  | bid
  | ask
  deriving DecidableEq, Repr

inductive VertexType where
  | order
  | priceLevel
  | venue
  | marketMaker
  deriving DecidableEq, Repr

inductive MsgType where
  | orderFill
  | priceUpdate
  | cancelAck
  | positionUpdate
  | arbitrageSignal
  | heartbeat
  | barrierSync
  deriving DecidableEq, Repr

/-- `Message::type` with the member of `Message::Payload` that goes with it. -/
inductive Payload where
  | orderFill (price : Int) (qty tradeId : UInt64)
  | priceUpdate (bid ask : Int) (bidQty askQty : UInt64)
  | cancelAck
  | positionUpdate
  | arbitrageSignal (spread : Int) (venueA venueB : VertexId)
  | heartbeat
  | barrierSync
  deriving DecidableEq, Repr

structure Message where
  src : VertexId
  dst : VertexId
  step : Superstep
  payload : Payload
  deriving DecidableEq, Repr

def Message.type (m : Message) : MsgType :=
  match m.payload with
  | .orderFill .. => .orderFill
  | .priceUpdate .. => .priceUpdate
  | .cancelAck => .cancelAck
  | .positionUpdate => .positionUpdate
  | .arbitrageSignal .. => .arbitrageSignal
  | .heartbeat => .heartbeat
  | .barrierSync => .barrierSync

/-- `sizeof(Message)`: the struct is aligned to a cache line and fits in one. -/
def sizeofMessage : Nat := 64

/-- A message type the engine can route. -/
class Addressed (μ : Type) where
  dst : μ → VertexId

export Addressed (dst)

instance : Addressed Message := ⟨Message.dst⟩

@[simp] theorem dst_message (m : Message) : dst m = m.dst := rfl

structure Edge where
  dst : VertexId
  weight : Int
  type : UInt8
  deriving DecidableEq, Repr

/-- `Vertex`: the fields of the base class, and in `state` those of the derived
class. -/
@[ext] structure Vertex (σ μ : Type) where
  id : VertexId
  type : VertexType
  owner : WorkerId
  halted : Bool := false
  edges : List Edge := []
  outbox : List μ := []
  state : σ
  deriving DecidableEq, Repr

/-- `Vertex::compute`: it may change every field of its own vertex, and nothing
else. -/
abbrev Compute (σ μ : Type) := Vertex σ μ → List μ → Superstep → Vertex σ μ

namespace Vertex

variable {σ μ : Type}

def setOwner (v : Vertex σ μ) (w : WorkerId) : Vertex σ μ := { v with owner := w }

def voteToHalt (v : Vertex σ μ) : Vertex σ μ := { v with halted := true }

def wakeUp (v : Vertex σ μ) : Vertex σ μ := { v with halted := false }

def clearOutbox (v : Vertex σ μ) : Vertex σ μ := { v with outbox := [] }

@[simp] theorem halted_clearOutbox (v : Vertex σ μ) : v.clearOutbox.halted = v.halted := rfl

@[simp] theorem outbox_clearOutbox (v : Vertex σ μ) : v.clearOutbox.outbox = [] := rfl

@[simp] theorem halted_wakeUp (v : Vertex σ μ) : v.wakeUp.halted = false := rfl

@[simp] theorem outbox_wakeUp (v : Vertex σ μ) : v.wakeUp.outbox = v.outbox := rfl

theorem wakeUp_of_not_halted {v : Vertex σ μ} (h : v.halted = false) : v.wakeUp = v := by
  cases v
  simp_all [wakeUp]

theorem clearOutbox_of_nil {v : Vertex σ μ} (h : v.outbox = []) : v.clearOutbox = v := by
  cases v
  simp_all [clearOutbox]

end Vertex

/-- `Vertex::send_message`. -/
def Vertex.sendMessage {σ : Type} (v : Vertex σ Message) (target : VertexId) (m : Message) :
    Vertex σ Message :=
  { v with outbox := v.outbox ++ [{ m with src := v.id, dst := target }] }

/-- The fields of `EngineConfig` that the code reads. -/
structure EngineConfig where
  workerCount : Nat := 4
  numaNodes : Nat := 2
  maxSupersteps : Nat := 100
  heartbeatIntervalMs : Nat := 500
  failureTimeoutMs : Nat := 2000
  enableRdmaSim : Bool := true
  enableFaultInjection : Bool := false
  deriving DecidableEq, Repr

/-- The counters of `WorkerStats` that the code updates. -/
structure WorkerStats where
  verticesProcessed : Nat := 0
  messagesSent : Nat := 0
  messagesReceived : Nat := 0
  superstepsCompleted : Nat := 0
  migrationsPerformed : Nat := 0
  deriving DecidableEq, Repr

end Pregel
