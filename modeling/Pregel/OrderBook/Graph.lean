import Pregel.OrderBook.Order
import Pregel.OrderBook.PriceLevel
import Pregel.OrderBook.Venue
import Pregel.OrderBook.MarketMaker

/-!
The order book graph (`build_order_book_graph` in `order_book_graph.cpp`).

`Builder` is the state of the function: the graph so far and its local variables. A
division by zero and an index out of range are errors. Random numbers and clock readings
come from `Draws` in the order in which the code asks for them.
-/

namespace Pregel

/-- The fields of the four derived classes. -/
inductive BookState where
  | order (o : OrderVertex)
  | priceLevel (l : PriceLevelVertex)
  | venue (u : VenueVertex)
  | marketMaker (m : MarketMakerVertex)

namespace BookState

/-- The virtual call `Vertex::compute`. -/
def compute : Compute BookState Message := fun v inbox step =>
  match v.state with
  | .order o => (OrderVertex.compute (v.map fun _ => o) inbox step).map .order
  | .priceLevel l => (PriceLevelVertex.compute (v.map fun _ => l) inbox step).map .priceLevel
  | .venue u => (VenueVertex.compute (v.map fun _ => u) inbox step).map .venue
  | .marketMaker m => (MarketMakerVertex.compute (v.map fun _ => m) inbox step).map .marketMaker

end BookState

/-- `OrderBookGraphParams`. The seed is left out: it only chooses the draws. -/
structure OrderBookGraphParams where
  venueCount : UInt32 := 5
  priceLevels : UInt32 := 20
  ordersPerLevel : UInt64 := 50
  marketMakerCount : UInt32 := 10
  workerCount : UInt32 := 4
  deriving DecidableEq, Repr

/-- What the random distributions and the clock return to the function, call after call,
and the noise of the generator that a venue makes from a seed. -/
structure Draws where
  priceNoise : Nat → Int
  qty : Nat → Fin 9901
  rng : Nat → UInt64
  clock : Nat → UInt64
  venueNoise : UInt64 → Stream' Int

/-- The `i`-th number that `qty_dist` returns: it is between 100 and 10000. -/
def Draws.qtyDist (d : Draws) (i : Nat) : UInt64 := UInt64.ofNat (100 + (d.qty i).val)

/-- `GraphData`. -/
structure GraphData where
  vertices : List (Vertex BookState Message) := []
  totalEdges : UInt64 := 0
  venueCount : UInt32 := 0
  priceLevelCount : UInt32 := 0
  orderCount : UInt64 := 0
  mmCount : UInt32 := 0

/-- The state of `build_order_book_graph`: its result and its local variables, how many
numbers were drawn so far, and a record of the vertices found by `data.vertices[i]`: the
index with the id and the type of the vertex. -/
structure Builder extends GraphData where
  nextId : VertexId := 0
  venueIds : List VertexId := []
  priceLevelIds : List VertexId := []
  orderIds : List VertexId := []
  noises : Nat := 0
  qtys : Nat := 0
  rngs : Nat := 0
  clocks : Nat := 0
  accesses : List (VertexId × VertexId × VertexType) := []

/-- What the language leaves undefined in the function. -/
inductive Fault where
  | moduloByZero
  | outOfRange
  deriving DecidableEq, Repr

/-- `a % b`. -/
def modulo (a b : Nat) : Except Fault Nat :=
  if b = 0 then .error .moduloByZero else .ok (a % b)

/-- `xs[i]`. -/
def index {α : Type} (xs : List α) (i : Nat) : Except Fault α :=
  match xs[i]? with
  | none => .error .outOfRange
  | some x => .ok x

theorem modulo_of_ne (a : Nat) {b : Nat} (hb : b ≠ 0) : modulo a b = .ok (a % b) := if_neg hb

theorem index_of_getElem? {α : Type} {xs : List α} {i : Nat} {x : α} (hi : xs[i]? = some x) :
    index xs i = .ok x := by
  simp [index, hi]

/-- The table `venue_names`. -/
def venueNames : List String := ["NYSE", "NASDAQ", "CBOE", "BATS", "IEX"]

namespace Builder

variable (p : OrderBookGraphParams) (d : Draws)

/-- `data.vertices[i]->edges().push_back(e)`. -/
def pushEdgeAt (b : Builder) (i : VertexId) (e : Edge) : Except Fault Builder := do
  let v ← index b.vertices i
  return { b with
    vertices := b.vertices.set i (v.pushEdge e)
    accesses := b.accesses ++ [(i, v.id, v.type)] }

/-- One round of the first loop. -/
def addVenue (b : Builder) (v : Nat) : Except Fault Builder := do
  let vid := b.nextId
  let name ← index venueNames (← modulo v venueNames.length)
  let owner ← modulo vid p.workerCount.toNat
  let state : VenueVertex.State := {
    venueId := v
    name := name
    bestBid := basePrice - 100 + d.priceNoise b.noises
    bestAsk := basePrice + 100 + d.priceNoise (b.noises + 1)
    bidSize := d.qtyDist b.qtys
    askSize := d.qtyDist (b.qtys + 1)
    isPrimary := v = 0 }
  return { b with
    nextId := vid + 1
    venueIds := b.venueIds ++ [vid]
    vertices := b.vertices ++ [(VenueVertex.new d.venueNoise vid owner state).map .venue]
    venueCount := b.venueCount + 1
    noises := b.noises + 2
    qtys := b.qtys + 2 }

/-- One round of the loop over the orders of the level `pl`. -/
def addOrder (v : Nat) (side : Side) (price : Int)
    (s : Builder × Vertex PriceLevelVertex Message) (_o : Nat) :
    Except Fault (Builder × Vertex PriceLevelVertex Message) := do
  let (b, pl) := s
  let ordId := b.nextId
  let owner ← modulo ordId p.workerCount.toNat
  let trader ← modulo (d.rng b.rngs).toNat 1000
  let state : OrderVertex.State := {
    limitPrice := price + d.priceNoise b.noises
    quantity := d.qtyDist b.qtys
    side := side
    venueId := v
    traderId := UInt64.ofNat trader
    timestampNs := d.clock b.clocks }
  let ord := (OrderVertex.new ordId owner state).pushEdge ⟨pl.id, 1, 0⟩
  return ({ b with
    nextId := ordId + 1
    orderIds := b.orderIds ++ [ordId]
    totalEdges := b.totalEdges + 2
    vertices := b.vertices ++ [ord.map .order]
    orderCount := b.orderCount + 1
    noises := b.noises + 1
    qtys := b.qtys + 1
    rngs := b.rngs + 1
    clocks := b.clocks + 1 }, pl.pushEdge ⟨ordId, 1, 1⟩)

/-- The variable `price` in the loop over the levels. -/
def price (side : Side) (b : Builder) (lvl : Nat) : Int :=
  let offset : Int := if side = .bid then -((lvl + 1) * tickSize) else (lvl + 1) * tickSize
  basePrice + offset + d.priceNoise b.noises

/-- The loop over the levels, up to the loop over the orders: a new level `pl` and its
link with the venue. -/
def openLevel (v : Nat) (venueVid : VertexId) (side : Side) (b : Builder) (lvl : Nat) :
    Except Fault (Builder × Vertex PriceLevelVertex Message) := do
  let plId := b.nextId
  let owner ← modulo plId p.workerCount.toNat
  let state : PriceLevelVertex.State := {
    price := b.price d side lvl
    side := side
    orderCount := p.ordersPerLevel.toUInt32
    totalQty := d.qtyDist b.qtys * p.ordersPerLevel
    venueId := v
    isBestLevel := lvl = 0 }
  let pl := (PriceLevelVertex.new plId owner state).pushEdge ⟨venueVid, 1, 2⟩
  let b := { b with
    nextId := plId + 1
    priceLevelIds := b.priceLevelIds ++ [plId]
    noises := b.noises + 1
    qtys := b.qtys + 1 }
  let b ← b.pushEdgeAt venueVid ⟨plId, 1, 0⟩
  return ({ b with totalEdges := b.totalEdges + 2 }, pl)

/-- The end of a round of the loop over the levels. -/
def closeLevel (s : Builder × Vertex PriceLevelVertex Message) : Builder :=
  let (b, pl) := s
  { b with
    vertices := b.vertices ++ [pl.map .priceLevel]
    priceLevelCount := b.priceLevelCount + 1 }

/-- One round of the loop over the levels of one side of a venue. -/
def addLevel (v : Nat) (venueVid : VertexId) (side : Side) (b : Builder) (lvl : Nat) :
    Except Fault Builder := do
  let s ← openLevel p d v venueVid side b lvl
  let s ← (List.range p.ordersPerLevel.toNat).foldlM (addOrder p d v side (b.price d side lvl)) s
  return closeLevel s

/-- One round of the loop over the two sides of a venue. -/
def addSide (v : Nat) (venueVid : VertexId) (b : Builder) (sideI : Nat) : Except Fault Builder :=
  (List.range p.priceLevels.toNat).foldlM
    (addLevel p d v venueVid (if sideI = 0 then .bid else .ask)) b

/-- One round of the second loop over the venues. -/
def addLevels (b : Builder) (v : Nat) : Except Fault Builder := do
  let venueVid ← index b.venueIds v
  (List.range 2).foldlM (addSide p d v venueVid) b

/-- One round of the loop that links the market maker `mm` to the venues. -/
def linkVenue (s : Builder × Vertex MarketMakerVertex Message) (vid : VertexId) :
    Except Fault (Builder × Vertex MarketMakerVertex Message) := do
  let (b, mm) := s
  let b ← pushEdgeAt b vid ⟨mm.id, 1, 3⟩
  return ({ b with totalEdges := b.totalEdges + 2 }, mm.pushEdge ⟨vid, 1, 0⟩)

/-- One round of the loop that links the market maker `mm` to price levels. -/
def sampleLevel (s : Builder × Vertex MarketMakerVertex Message) (_i : Nat) :
    Except Fault (Builder × Vertex MarketMakerVertex Message) := do
  let (b, mm) := s
  let plId ← index b.priceLevelIds (← modulo (d.rng b.rngs).toNat b.priceLevelIds.length)
  return ({ b with totalEdges := b.totalEdges + 1, rngs := b.rngs + 1 }, mm.pushEdge ⟨plId, 1, 2⟩)

/-- The loop over the market makers, up to the inner loops: a new market maker `mm`. -/
def openMarketMaker (b : Builder) (m : Nat) :
    Except Fault (Builder × Vertex MarketMakerVertex Message) := do
  let mmId := b.nextId
  let owner ← modulo mmId p.workerCount.toNat
  return ({ b with nextId := mmId + 1 }, MarketMakerVertex.new mmId owner { mmId := m })

/-- The end of a round of the loop over the market makers. -/
def closeMarketMaker (s : Builder × Vertex MarketMakerVertex Message) : Builder :=
  let (b, mm) := s
  { b with
    vertices := b.vertices ++ [mm.map .marketMaker]
    mmCount := b.mmCount + 1 }

/-- One round of the loop over the market makers. -/
def addMarketMaker (b : Builder) (m : Nat) : Except Fault Builder := do
  let s ← openMarketMaker p b m
  let s ← b.venueIds.foldlM linkVenue s
  let s ← (List.range (min 20 b.priceLevelIds.length)).foldlM (sampleLevel d) s
  return closeMarketMaker s

/-- The loops of `build_order_book_graph`, one after the other. -/
def run : Except Fault Builder := do
  let b ← (List.range p.venueCount.toNat).foldlM (addVenue p d) {}
  let b ← (List.range p.venueCount.toNat).foldlM (addLevels p d) b
  (List.range p.marketMakerCount.toNat).foldlM (addMarketMaker p d) b

end Builder

/-- `build_order_book_graph`. -/
def buildOrderBookGraph (p : OrderBookGraphParams) (d : Draws) : Except Fault GraphData :=
  return (← Builder.run p d).toGraphData

theorem buildOrderBookGraph_eq {p : OrderBookGraphParams} {d : Draws} {b : Builder}
    (hrun : Builder.run p d = .ok b) : buildOrderBookGraph p d = .ok b.toGraphData := by
  simp [buildOrderBookGraph, hrun, bind, Except.bind, pure, Except.pure]

theorem exists_run_of_built {p : OrderBookGraphParams} {d : Draws} {g : GraphData}
    (built : buildOrderBookGraph p d = .ok g) :
    ∃ b, Builder.run p d = .ok b ∧ b.toGraphData = g := by
  cases hrun : Builder.run p d with
  | error f =>
      rw [buildOrderBookGraph, hrun] at built
      cases built
  | ok b =>
      rw [buildOrderBookGraph_eq hrun] at built
      exact ⟨b, rfl, Except.ok.inj built⟩

end Pregel
