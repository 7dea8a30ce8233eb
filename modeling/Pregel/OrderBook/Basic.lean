import Pregel.Types

/-!
What the four vertex classes of the order book share (`order_book_graph.cpp`): the
constants of the file, the loops that send one message over several edges, and the life of
a vertex as its worker drives it.

`Vertex.feed` calls `compute` on one inbox after the other and collects the outbox after
each call, as the worker does at the end of a superstep.
-/

namespace Pregel

/-- `FIXED_SCALE`. -/
def fixedScale : Int := 1000000

/-- `TICK_SIZE`. -/
def tickSize : Int := 100

/-- `ARB_THRESHOLD_BPS`. -/
def arbThresholdBps : Int := 5

/-- `BASE_PRICE` in `build_order_book_graph`. -/
def basePrice : Int := 150 * fixedScale

/-- A message with this payload, as the code builds one: `send_message` sets its ends. -/
def Message.plain (step : Superstep) (payload : Payload) : Message := ⟨0, 0, step, payload⟩

namespace Vertex

section Send

variable {σ : Type}

/-- The loop that sends `m` over these edges. -/
def sendAll (v : Vertex σ Message) (edges : List Edge) (m : Message) : Vertex σ Message :=
  edges.foldl (fun v e => v.sendMessage e.dst m) v

/-- `m` as vertex `v` sends it over `e`. -/
def stamp (v : Vertex σ Message) (m : Message) (e : Edge) : Message :=
  { m with src := v.id, dst := e.dst }

theorem sendAll_eq (v : Vertex σ Message) (edges : List Edge) (m : Message) :
    v.sendAll edges m = { v with outbox := v.outbox ++ edges.map (v.stamp m) } := by
  unfold sendAll
  induction edges generalizing v with
  | nil => simp
  | cons e edges ih =>
      rw [List.foldl_cons, ih]
      simp [sendMessage, stamp]

@[simp] theorem sendAll_state (v : Vertex σ Message) (edges : List Edge) (m : Message) :
    (v.sendAll edges m).state = v.state := by
  rw [sendAll_eq]

@[simp] theorem sendAll_outbox (v : Vertex σ Message) (edges : List Edge) (m : Message) :
    (v.sendAll edges m).outbox = v.outbox ++ edges.map (v.stamp m) := by
  rw [sendAll_eq]

end Send

section Frame

variable {σ τ ρ μ : Type}

/-- The vertex with `f` of its state. -/
def map (f : σ → τ) (v : Vertex σ μ) : Vertex τ μ :=
  ⟨v.id, v.type, v.owner, v.halted, v.edges, v.outbox, f v.state⟩

def withEdges (v : Vertex σ μ) (edges : List Edge) : Vertex σ μ := { v with edges := edges }

/-- `edges().push_back(e)`. -/
def pushEdge (v : Vertex σ μ) (e : Edge) : Vertex σ μ := v.withEdges (v.edges ++ [e])

@[simp] theorem withEdges_edges (v : Vertex σ μ) (edges : List Edge) :
    (v.withEdges edges).edges = edges := rfl

@[simp] theorem withEdges_id (v : Vertex σ μ) (edges : List Edge) :
    (v.withEdges edges).id = v.id := rfl

@[simp] theorem withEdges_pushEdge (v : Vertex σ μ) (edges : List Edge) (e : Edge) :
    (v.withEdges edges).pushEdge e = v.withEdges (edges ++ [e]) := rfl

/-- Two vertices that agree on what the graph is made of. -/
structure SameFrame (v : Vertex σ μ) (v' : Vertex τ μ) : Prop where
  id : v'.id = v.id
  type : v'.type = v.type
  owner : v'.owner = v.owner
  edges : v'.edges = v.edges

namespace SameFrame

theorem refl (v : Vertex σ μ) : v.SameFrame v := ⟨rfl, rfl, rfl, rfl⟩

theorem trans {v : Vertex σ μ} {v' : Vertex τ μ} {v'' : Vertex ρ μ} (h : v.SameFrame v')
    (h' : v'.SameFrame v'') : v.SameFrame v'' :=
  ⟨h'.id.trans h.id, h'.type.trans h.type, h'.owner.trans h.owner, h'.edges.trans h.edges⟩

end SameFrame

theorem sendAll_frame (v : Vertex σ Message) (edges : List Edge) (m : Message) :
    v.SameFrame (v.sendAll edges m) := by
  rw [sendAll_eq]
  exact ⟨rfl, rfl, rfl, rfl⟩

end Frame

section Feed

variable {σ μ : Type}

/-- The calls of `compute` with these inboxes and superstep numbers: what each of them
sends, and the vertex after the last one. -/
def feed (compute : Compute σ μ) (v : Vertex σ μ) :
    List (List μ × Superstep) → List (List μ) × Vertex σ μ
  | [] => ([], v)
  | (inbox, step) :: inputs =>
      let v' := compute v inbox step
      let (outs, last) := feed compute v'.clearOutbox inputs
      (v'.outbox :: outs, last)

/-- One more call. -/
theorem feed_concat (compute : Compute σ μ) (v : Vertex σ μ) (inputs : List (List μ × Superstep))
    (inbox : List μ) (step : Superstep) :
    (v.feed compute (inputs ++ [(inbox, step)])).2 =
      (compute (v.feed compute inputs).2 inbox step).clearOutbox := by
  induction inputs generalizing v with
  | nil => rfl
  | cons input inputs ih => exact ih _

/-- Everything received with these inputs. -/
def received (inputs : List (List μ × Superstep)) : List μ := inputs.flatMap Prod.fst

@[simp] theorem received_nil : received ([] : List (List μ × Superstep)) = [] := rfl

@[simp] theorem received_cons (inbox : List μ) (step : Superstep)
    (inputs : List (List μ × Superstep)) :
    received ((inbox, step) :: inputs) = inbox ++ received inputs := rfl

@[simp] theorem received_concat (inputs : List (List μ × Superstep)) (inbox : List μ)
    (step : Superstep) : received (inputs ++ [(inbox, step)]) = received inputs ++ inbox := by
  simp [received]

end Feed

end Vertex

end Pregel
