import Mathlib.Tactic.Ring
import Pregel.Lib.Range
import Pregel.OrderBook.Graph

/-!
The order book graph in closed form.

The levels of the book are numbered through: level `j` belongs to venue `j / (2 * depth)`.
A level takes an identifier, and its orders take the next ones; it is stored behind them.
For every loop of the builder there is a function from the number of rounds to the state
after them, and a lemma that one round leads from each state to the next.

* `Layout.vertices`: the graph that is built.
* `run_eq`: the builder ends without a fault, and with this graph.
* `vertices_of_run`: without workers it makes this graph or none.
-/

namespace Pregel

namespace Layout

variable (p : OrderBookGraphParams) (d : Draws)

abbrev venues : Nat := p.venueCount.toNat

abbrev depth : Nat := p.priceLevels.toNat

abbrev orders : Nat := p.ordersPerLevel.toNat

abbrev makers : Nat := p.marketMakerCount.toNat

abbrev workers : Nat := p.workerCount.toNat

/-- The number of price levels. -/
def levels : Nat := venues p * (2 * depth p)

def levelId (j : Nat) : Nat := venues p + j * (1 + orders p)

def orderId (j o : Nat) : Nat := levelId p j + 1 + o

def makerId (m : Nat) : Nat := levelId p (levels p) + m

/-- The number of vertices. -/
def size : Nat := makerId p (makers p)

/-- The venue of a level. -/
def levelVenue (j : Nat) : Nat := j / (2 * depth p)

def levelSide (j : Nat) : Side := if j % (2 * depth p) / depth p = 0 then .bid else .ask

/-- The number of a level on its side of the book. -/
def levelDepth (j : Nat) : Nat := j % depth p

/-! ### The vertices -/

def venueState (v : Nat) : VenueVertex.State where
  venueId := v
  name := venueNames.getD (v % 5) ""
  bestBid := basePrice - 100 + d.priceNoise (2 * v)
  bestAsk := basePrice + 100 + d.priceNoise (2 * v + 1)
  bidSize := d.qtyDist (2 * v)
  askSize := d.qtyDist (2 * v + 1)
  isPrimary := v = 0

/-- The edges of a venue after `k` levels and `m` market makers. -/
def venueEdges (k m v : Nat) : List Edge :=
  ((List.range k).filter (levelVenue p · = v)).map (fun j => ⟨levelId p j, 1, 0⟩) ++
    (List.range m).map fun i => ⟨makerId p i, 1, 3⟩

def venueVertex (edges : List Edge) (v : Nat) : Vertex BookState Message :=
  ((VenueVertex.new d.venueNoise v (v % workers p) (venueState d v)).map .venue).withEdges edges

/-- The number of prices drawn before level `j`, which is that of the quantities. -/
def drawn (j : Nat) : Nat := 2 * venues p + j * (1 + orders p)

def levelPrice (j : Nat) : Int :=
  basePrice + (if levelSide p j = .bid then -((levelDepth p j + 1) * tickSize)
    else (levelDepth p j + 1) * tickSize) + d.priceNoise (drawn p j)

def levelState (j : Nat) : PriceLevelVertex.State where
  price := levelPrice p d j
  side := levelSide p j
  orderCount := p.ordersPerLevel.toUInt32
  totalQty := d.qtyDist (drawn p j) * p.ordersPerLevel
  venueId := levelVenue p j
  isBestLevel := levelDepth p j = 0

/-- The edges of a level after `k` orders. -/
def levelEdges (k j : Nat) : List Edge :=
  ⟨levelVenue p j, 1, 2⟩ :: (List.range k).map fun o => ⟨orderId p j o, 1, 1⟩

def levelVertex (k j : Nat) : Vertex PriceLevelVertex Message :=
  (PriceLevelVertex.new (levelId p j) (levelId p j % workers p) (levelState p d j)).withEdges
    (levelEdges p k j)

def orderState (j o : Nat) : OrderVertex.State where
  limitPrice := levelPrice p d j + d.priceNoise (drawn p j + 1 + o)
  quantity := d.qtyDist (drawn p j + 1 + o)
  side := levelSide p j
  venueId := levelVenue p j
  traderId := UInt64.ofNat ((d.rng (j * orders p + o)).toNat % 1000)
  timestampNs := d.clock (j * orders p + o)

def orderVertex (j o : Nat) : Vertex BookState Message :=
  ((OrderVertex.new (orderId p j o) (orderId p j o % workers p) (orderState p d j o)).withEdges
    [⟨levelId p j, 1, 0⟩]).map .order

/-- The vertices of a level: its orders, and then itself. -/
def levelBlock (j : Nat) : List (Vertex BookState Message) :=
  (List.range (orders p)).map (orderVertex p d j) ++
    [(levelVertex p d (orders p) j).map .priceLevel]

/-- The number of price levels that a market maker is linked to. -/
def samples : Nat := min 20 (levels p)

/-- The `i`-th level that market maker `m` is linked to. -/
def sampled (m i : Nat) : Nat :=
  (d.rng (levels p * orders p + m * samples p + i)).toNat % levels p

/-- The edges of a market maker after `v` venues and `k` levels. -/
def makerEdges (v k m : Nat) : List Edge :=
  (List.range v).map (fun i => ⟨i, 1, 0⟩) ++
    (List.range k).map fun i => ⟨levelId p (sampled p d m i), 1, 2⟩

def makerVertex (v k m : Nat) : Vertex MarketMakerVertex Message :=
  (MarketMakerVertex.new (makerId p m) (makerId p m % workers p) { mmId := m }).withEdges
    (makerEdges p d v k m)

/-- The venues, the levels with their orders, and the market makers. -/
def vertices : List (Vertex BookState Message) :=
  (List.range (venues p)).map (fun v =>
      venueVertex p d (venueEdges p (levels p) (makers p) v) v) ++
    (List.range (levels p)).flatMap (levelBlock p d) ++
    (List.range (makers p)).map fun m => (makerVertex p d (venues p) (samples p) m).map .marketMaker

/-- The number of edges. -/
def edgeCount : Nat :=
  2 * (levels p * (1 + orders p)) + makers p * (2 * venues p + samples p)

/-! ### The states of the builder -/

/-- After `i` rounds of the first loop. -/
def venueStage (i : Nat) : Builder where
  vertices := (List.range i).map (venueVertex p d [])
  venueCount := UInt32.ofNat i
  nextId := i
  venueIds := List.range i
  noises := 2 * i
  qtys := 2 * i

/-- After `k` levels. -/
def levelStage (k : Nat) : Builder where
  vertices := (List.range (venues p)).map (fun v => venueVertex p d (venueEdges p k 0 v) v) ++
    (List.range k).flatMap (levelBlock p d)
  totalEdges := UInt64.ofNat (2 * (k * (1 + orders p)))
  venueCount := UInt32.ofNat (venues p)
  priceLevelCount := UInt32.ofNat k
  orderCount := UInt64.ofNat (k * orders p)
  nextId := levelId p k
  venueIds := List.range (venues p)
  priceLevelIds := (List.range k).map (levelId p)
  orderIds := (List.range k).flatMap fun j => (List.range (orders p)).map (orderId p j)
  noises := drawn p k
  qtys := drawn p k
  rngs := k * orders p
  clocks := k * orders p
  accesses := (List.range k).map fun j => (levelVenue p j, levelVenue p j, .venue)

/-- After `k` levels and `o` orders of the next one, which is not stored yet. -/
def orderStage (k o : Nat) : Builder × Vertex PriceLevelVertex Message where
  fst := {
    vertices :=
      (List.range (venues p)).map (fun v => venueVertex p d (venueEdges p (k + 1) 0 v) v) ++
        (List.range k).flatMap (levelBlock p d) ++ (List.range o).map (orderVertex p d k)
    totalEdges := UInt64.ofNat (2 * (k * (1 + orders p)) + 2 * (1 + o))
    venueCount := UInt32.ofNat (venues p)
    priceLevelCount := UInt32.ofNat k
    orderCount := UInt64.ofNat (k * orders p + o)
    nextId := levelId p k + 1 + o
    venueIds := List.range (venues p)
    priceLevelIds := (List.range (k + 1)).map (levelId p)
    orderIds := ((List.range k).flatMap fun j => (List.range (orders p)).map (orderId p j)) ++
      (List.range o).map (orderId p k)
    noises := drawn p k + 1 + o
    qtys := drawn p k + 1 + o
    rngs := k * orders p + o
    clocks := k * orders p + o
    accesses := (List.range (k + 1)).map fun j => (levelVenue p j, levelVenue p j, .venue) }
  snd := levelVertex p d o k

/-- The indices and the vertices found there while `k` levels and `m` market makers, and
`i` venues of the next one, were linked. -/
def accesses (k m i : Nat) : List (VertexId × VertexId × VertexType) :=
  (List.range k).map (fun j => (levelVenue p j, levelVenue p j, .venue)) ++
    (List.range m).flatMap (fun _ => (List.range (venues p)).map fun v => (v, v, .venue)) ++
    (List.range i).map fun v => (v, v, .venue)

/-- After `m` market makers, `i` venues of the next one and `k` of its levels; `next` says
whether the next one has its identifier. -/
def makerStage (m i k next : Nat) : Builder where
  vertices :=
    (List.range (venues p)).map (fun v =>
        venueVertex p d (venueEdges p (levels p) (if v < i then m + 1 else m) v) v) ++
      (List.range (levels p)).flatMap (levelBlock p d) ++
      (List.range m).map fun j => (makerVertex p d (venues p) (samples p) j).map .marketMaker
  totalEdges := UInt64.ofNat
    (2 * (levels p * (1 + orders p)) + m * (2 * venues p + samples p) + 2 * i + k)
  venueCount := UInt32.ofNat (venues p)
  priceLevelCount := UInt32.ofNat (levels p)
  orderCount := UInt64.ofNat (levels p * orders p)
  mmCount := UInt32.ofNat m
  nextId := makerId p (m + next)
  venueIds := List.range (venues p)
  priceLevelIds := (List.range (levels p)).map (levelId p)
  orderIds := (List.range (levels p)).flatMap fun j => (List.range (orders p)).map (orderId p j)
  noises := drawn p (levels p)
  qtys := drawn p (levels p)
  rngs := levels p * orders p + m * samples p + k
  clocks := levels p * orders p
  accesses := accesses p (levels p) m i

/-! ### The rounds of the loops -/

/-- Adding an edge to one of the venues, which come first. -/
theorem pushEdgeAt_venue {b : Builder} (edges : Nat → List Edge)
    {rest : List (Vertex BookState Message)}
    (vertices : b.vertices =
      (List.range (venues p)).map (fun v => venueVertex p d (edges v) v) ++ rest)
    {i : Nat} (hi : i < venues p) (e : Edge) :
    b.pushEdgeAt i e = .ok { b with
      vertices := (List.range (venues p)).map (fun v =>
        venueVertex p d (if v = i then edges v ++ [e] else edges v) v) ++ rest
      accesses := b.accesses ++ [(i, i, .venue)] } := by
  have hget : b.vertices[i]? = some (venueVertex p d (edges i) i) := by
    simp [vertices, List.getElem?_append, hi]
  have hset : b.vertices.set i ((venueVertex p d (edges i) i).pushEdge e) =
      (List.range (venues p)).map (fun v =>
        venueVertex p d (if v = i then edges v ++ [e] else edges v) v) ++ rest := by
    rw [vertices, List.set_append_left _ _ (by simpa using hi), List.set_map_range]
    congr 2
    funext v
    by_cases hv : v = i
    · subst hv
      simp [venueVertex]
    · simp [hv]
  have hvertex : (venueVertex p d (edges i) i).id = i ∧
      (venueVertex p d (edges i) i).type = .venue := ⟨rfl, rfl⟩
  simp [Builder.pushEdgeAt, index_of_getElem? hget, hset, hvertex, bind, Except.bind, pure,
    Except.pure]

theorem venueEdges_level_succ (k v : Nat) :
    venueEdges p (k + 1) 0 v =
      if v = levelVenue p k then venueEdges p k 0 v ++ [⟨levelId p k, 1, 0⟩]
      else venueEdges p k 0 v := by
  by_cases hv : v = levelVenue p k
  · simp [venueEdges, List.range_succ, hv]
  · simp [venueEdges, List.range_succ, hv, Ne.symm hv]

section Numbering

variable {p} {v s lvl : Nat}

theorem side_lt (hs : s < 2) (hlvl : lvl < depth p) : s * depth p + lvl < 2 * depth p := by
  have hside : (s + 1) * depth p ≤ 2 * depth p := Nat.mul_le_mul_right _ hs
  rw [Nat.add_mul] at hside
  omega

/-- Where level `lvl` of side `s` of venue `v` is in the numbering of all levels. -/
theorem levelVenue_eq (hs : s < 2) (hlvl : lvl < depth p) :
    levelVenue p (v * (2 * depth p) + s * depth p + lvl) = v := by
  have hlt := side_lt hs hlvl
  rw [levelVenue, Nat.add_assoc, Nat.add_comm, Nat.add_mul_div_right _ _ (by omega),
    Nat.div_eq_of_lt hlt, Nat.zero_add]

theorem levelSide_eq (hs : s < 2) (hlvl : lvl < depth p) :
    levelSide p (v * (2 * depth p) + s * depth p + lvl) = if s = 0 then .bid else .ask := by
  have hlt := side_lt hs hlvl
  have hdiv : (s * depth p + lvl) / depth p = s := by
    rw [Nat.add_comm, Nat.add_mul_div_right _ _ (by omega), Nat.div_eq_of_lt hlvl, Nat.zero_add]
  rw [levelSide, Nat.add_assoc, Nat.add_comm, Nat.add_mul_mod_self_right, Nat.mod_eq_of_lt hlt, hdiv]

theorem levelDepth_eq (hlvl : lvl < depth p) :
    levelDepth p (v * (2 * depth p) + s * depth p + lvl) = lvl := by
  have hsum : v * (2 * depth p) + s * depth p + lvl = lvl + (v * 2 + s) * depth p := by ring
  rw [levelDepth, hsum, Nat.add_mul_mod_self_right, Nat.mod_eq_of_lt hlvl]

end Numbering

section Rounds

variable {p} (positive : workers p ≠ 0)

include positive

theorem addVenue_stage (i : Nat) :
    Builder.addVenue p d (venueStage p d i) i = .ok (venueStage p d (i + 1)) := by
  have hname : venueNames[i % 5]? = some (venueNames.getD (i % 5) "") := by
    have hlt : i % 5 < venueNames.length := Nat.mod_lt i (by decide)
    simp [List.getD, List.getElem?_eq_getElem hlt]
  have hlength : modulo i venueNames.length = .ok (i % 5) := modulo_of_ne i (by decide)
  simp [Builder.addVenue, venueStage, modulo_of_ne _ positive, hlength, index_of_getElem? hname,
    List.range_succ, Nat.mul_add, venueVertex, venueState, Vertex.withEdges, Vertex.map,
    VenueVertex.new, bind, Except.bind, pure, Except.pure]

theorem addOrder_stage (k o : Nat) :
    Builder.addOrder p d (levelVenue p k) (levelSide p k) (levelPrice p d k) (orderStage p d k o) o =
      .ok (orderStage p d k (o + 1)) := by
  have htrader : ∀ n, modulo n 1000 = .ok (n % 1000) := fun n => modulo_of_ne n (by decide)
  have hpl : (levelVertex p d o k).pushEdge ⟨orderId p k o, 1, 1⟩ = levelVertex p d (o + 1) k := by
    simp [levelVertex, levelEdges, List.range_succ]
  simp [Builder.addOrder, orderStage, modulo_of_ne _ positive, htrader, List.range_succ,
    bind, Except.bind, pure, Except.pure]
  refine ⟨⟨⟨rfl, ?_, ?_⟩, rfl, rfl, rfl, rfl⟩, hpl⟩
  · grind
  · grind

theorem openLevel_stage {k : Nat} (hk : levelVenue p k < venues p) :
    Builder.openLevel p d (levelVenue p k) (levelVenue p k) (levelSide p k) (levelStage p d k)
      (levelDepth p k) = .ok (orderStage p d k 0) := by
  have hedges : (fun v => venueVertex p d (venueEdges p (k + 1) 0 v) v) = fun v =>
      venueVertex p d (if v = levelVenue p k then venueEdges p k 0 v ++ [⟨levelId p k, 1, 0⟩]
        else venueEdges p k 0 v) v := by
    funext v
    rw [venueEdges_level_succ]
  simp only [Builder.openLevel, modulo_of_ne _ positive, bind, Except.bind, pure, Except.pure]
  rw [pushEdgeAt_venue p d (venueEdges p k 0) (by rfl) hk]
  simp [orderStage, levelStage, hedges, List.range_succ]
  rfl

omit positive in
theorem closeLevel_stage (k : Nat) :
    Builder.closeLevel (orderStage p d k (orders p)) = levelStage p d (k + 1) := by
  have hid : levelId p k + 1 + orders p = levelId p (k + 1) := by
    simp only [levelId]
    ring
  have hdrawn : drawn p k + 1 + orders p = drawn p (k + 1) := by
    simp only [drawn]
    ring
  have hrng : k * orders p + orders p = (k + 1) * orders p := by ring
  simp [Builder.closeLevel, orderStage, levelStage, List.range_succ, levelBlock, hid, hdrawn, hrng]
  grind

theorem addLevel_stage {k : Nat} (hk : levelVenue p k < venues p) :
    Builder.addLevel p d (levelVenue p k) (levelVenue p k) (levelSide p k) (levelStage p d k)
      (levelDepth p k) = .ok (levelStage p d (k + 1)) := by
  have horders := List.foldlM_range_eq (orderStage p d k) fun o (_ : o < orders p) =>
    addOrder_stage d positive k o
  have hprice : (levelStage p d k).price d (levelSide p k) (levelDepth p k) = levelPrice p d k := rfl
  rw [Builder.addLevel, openLevel_stage d positive hk, hprice]
  simp only [bind, Except.bind, horders, pure, Except.pure, closeLevel_stage d]

theorem addSide_stage {v s : Nat} (hv : v < venues p) (hs : s < 2) :
    Builder.addSide p d v v (levelStage p d (v * (2 * depth p) + s * depth p)) s =
      .ok (levelStage p d (v * (2 * depth p) + (s + 1) * depth p)) := by
  have hrounds := List.foldlM_range_eq
    (fun lvl => levelStage p d (v * (2 * depth p) + s * depth p + lvl))
    (f := Builder.addLevel p d v v (if s = 0 then .bid else .ask)) (n := depth p) ?_
  · rw [Builder.addSide, Nat.add_mul, Nat.one_mul, ← Nat.add_assoc]
    exact hrounds
  · intro lvl hlvl
    have hvenue := levelVenue_eq (v := v) hs hlvl
    have hstep := addLevel_stage d positive (k := v * (2 * depth p) + s * depth p + lvl)
      (by rw [hvenue]; exact hv)
    rwa [hvenue, levelSide_eq hs hlvl, levelDepth_eq hlvl] at hstep

theorem addLevels_stage {v : Nat} (hv : v < venues p) :
    Builder.addLevels p d (levelStage p d (v * (2 * depth p))) v =
      .ok (levelStage p d ((v + 1) * (2 * depth p))) := by
  have hrounds := List.foldlM_range_eq (fun s => levelStage p d (v * (2 * depth p) + s * depth p))
    (f := Builder.addSide p d v v) (n := 2) fun s hs => addSide_stage d positive hv hs
  have hindex : index (levelStage p d (v * (2 * depth p))).venueIds v = .ok v :=
    index_of_getElem? (by simp [levelStage, hv])
  rw [Builder.addLevels, hindex, Nat.add_mul, Nat.one_mul]
  simpa [bind, Except.bind] using hrounds

theorem openMarketMaker_stage (m : Nat) :
    Builder.openMarketMaker p (makerStage p d m 0 0 0) m =
      .ok (makerStage p d m 0 0 1, makerVertex p d 0 0 m) := by
  simp only [Builder.openMarketMaker, modulo_of_ne _ positive, bind, Except.bind, pure, Except.pure]
  rfl

omit positive in
theorem linkVenue_stage (m : Nat) {i : Nat} (hi : i < venues p) :
    Builder.linkVenue (makerStage p d m i 0 1, makerVertex p d i 0 m) i =
      .ok (makerStage p d m (i + 1) 0 1, makerVertex p d (i + 1) 0 m) := by
  have hedges : ∀ v, venueEdges p (levels p) (if v < i + 1 then m + 1 else m) v =
      if v = i then venueEdges p (levels p) (if v < i then m + 1 else m) v ++ [⟨makerId p m, 1, 3⟩]
      else venueEdges p (levels p) (if v < i then m + 1 else m) v := by
    intro v
    by_cases hv : v = i
    · subst hv
      simp [venueEdges, List.range_succ]
    · have hlt : v < i + 1 ↔ v < i := by omega
      simp [hv, hlt]
  have hmm : (makerVertex p d i 0 m).pushEdge ⟨i, 1, 0⟩ = makerVertex p d (i + 1) 0 m := by
    simp [makerVertex, makerEdges, List.range_succ]
  have hid : (makerVertex p d i 0 m).id = makerId p m := rfl
  simp only [Builder.linkVenue]
  rw [pushEdgeAt_venue p d (fun v => venueEdges p (levels p) (if v < i then m + 1 else m) v)
    (by simp only [makerStage, List.append_assoc]; rfl) hi]
  simp [makerStage, hmm, hid, accesses, List.range_succ, bind, Except.bind, pure, Except.pure]
  grind

omit positive in
theorem sampleLevel_stage (m : Nat) {i : Nat} (hi : i < samples p) :
    Builder.sampleLevel d (makerStage p d m (venues p) i 1, makerVertex p d (venues p) i m) i =
      .ok (makerStage p d m (venues p) (i + 1) 1, makerVertex p d (venues p) (i + 1) m) := by
  have hlevels : levels p ≠ 0 := by
    intro hzero
    simp [samples, hzero] at hi
  have hindex : index (makerStage p d m (venues p) i 1).priceLevelIds (sampled p d m i) =
      .ok (levelId p (sampled p d m i)) := by
    apply index_of_getElem?
    have hlt : sampled p d m i < levels p := Nat.mod_lt _ (Nat.pos_of_ne_zero hlevels)
    simp [makerStage, hlt]
  have hmodulo : modulo (d.rng (makerStage p d m (venues p) i 1).rngs).toNat
      (makerStage p d m (venues p) i 1).priceLevelIds.length = .ok (sampled p d m i) := by
    simpa [makerStage, sampled] using
      modulo_of_ne (d.rng (levels p * orders p + m * samples p + i)).toNat hlevels
  have hmm : (makerVertex p d (venues p) i m).pushEdge ⟨levelId p (sampled p d m i), 1, 2⟩ =
      makerVertex p d (venues p) (i + 1) m := by
    simp [makerVertex, makerEdges, List.range_succ]
  simp only [Builder.sampleLevel, hmodulo, hindex, bind, Except.bind, pure, Except.pure]
  simp [makerStage, hmm]
  grind

omit positive in
theorem closeMarketMaker_stage (m : Nat) :
    Builder.closeMarketMaker
      (makerStage p d m (venues p) (samples p) 1, makerVertex p d (venues p) (samples p) m) =
      makerStage p d (m + 1) 0 0 0 := by
  have hvenues : (List.range (venues p)).map (fun v =>
        venueVertex p d (venueEdges p (levels p) (if v < venues p then m + 1 else m) v) v) =
      (List.range (venues p)).map fun v => venueVertex p d (venueEdges p (levels p) (m + 1) v) v :=
    List.map_congr_left fun v hv => by rw [if_pos (List.mem_range.mp hv)]
  simp [Builder.closeMarketMaker, makerStage, hvenues, List.range_succ, accesses]
  grind

theorem addMarketMaker_stage (m : Nat) :
    Builder.addMarketMaker p d (makerStage p d m 0 0 0) m = .ok (makerStage p d (m + 1) 0 0 0) := by
  have hlinks := List.foldlM_range_eq
    (fun i => (makerStage p d m i 0 1, makerVertex p d i 0 m)) fun i (hi : i < venues p) =>
      linkVenue_stage d m hi
  have hsamples := List.foldlM_range_eq
    (fun i => (makerStage p d m (venues p) i 1, makerVertex p d (venues p) i m))
    fun i (hi : i < samples p) => sampleLevel_stage d m hi
  have hids : (makerStage p d m 0 0 0).venueIds = List.range (venues p) := rfl
  have hlength : min 20 (makerStage p d m 0 0 0).priceLevelIds.length = samples p := by
    simp [makerStage, samples]
  rw [Builder.addMarketMaker, openMarketMaker_stage d positive, hids, hlength]
  simp only [bind, Except.bind, hlinks, hsamples, pure, Except.pure, closeMarketMaker_stage]

/-- The builder meets no fault and ends in the state after all market makers. -/
theorem run_eq_stage : Builder.run p d = .ok (makerStage p d (makers p) 0 0 0) := by
  have hvenues := List.foldlM_range_eq (venueStage p d) fun i (_ : i < venues p) =>
    addVenue_stage d positive i
  have hlevels := List.foldlM_range_eq (fun v => levelStage p d (v * (2 * depth p)))
    fun v (hv : v < venues p) => addLevels_stage d positive hv
  have hmakers := List.foldlM_range_eq (fun m => makerStage p d m 0 0 0)
    fun m (_ : m < makers p) => addMarketMaker_stage d positive m
  have hstart : ({} : Builder) = venueStage p d 0 := rfl
  have hfirst : venueStage p d (venues p) = levelStage p d (0 * (2 * depth p)) := by
    simp [venueStage, levelStage, levelId, drawn, venueEdges]
  have hsecond : levelStage p d (venues p * (2 * depth p)) = makerStage p d 0 0 0 0 := by
    simp [levelStage, makerStage, makerId, accesses, levels]
  rw [Builder.run, hstart, hvenues]
  simp only [bind, Except.bind, hfirst, hlevels, hsecond, hmakers]

/-- **The builder meets no fault and ends with the graph in closed form.** -/
theorem run_eq : ∃ b, Builder.run p d = .ok b ∧ b.vertices = vertices p d ∧
    b.totalEdges = UInt64.ofNat (edgeCount p) ∧ b.venueCount = UInt32.ofNat (venues p) ∧
    b.priceLevelCount = UInt32.ofNat (levels p) ∧
    b.orderCount = UInt64.ofNat (levels p * orders p) ∧ b.mmCount = UInt32.ofNat (makers p) ∧
    b.accesses = accesses p (levels p) (makers p) 0 := by
  refine ⟨_, run_eq_stage d positive, ?_, rfl, rfl, rfl, rfl, rfl, rfl⟩
  simp [makerStage, vertices]

end Rounds

/-! ### Graphs that are built without workers -/

section NoWorkers

variable {p d} (noWorkers : p.workerCount.toNat = 0)

include noWorkers

theorem addVenue_of_noWorkers : Builder.addVenue p d {} 0 = .error .moduloByZero := by
  simp [Builder.addVenue, modulo, index, venueNames, noWorkers, bind, Except.bind]

theorem addMarketMaker_of_noWorkers (b : Builder) (m : Nat) :
    Builder.addMarketMaker p d b m = .error .moduloByZero := by
  simp [Builder.addMarketMaker, Builder.openMarketMaker, modulo, noWorkers, bind, Except.bind]

/-- Without workers the builder ends only if there is nothing to build. -/
theorem vertices_of_noWorkers {b : Builder} (hrun : Builder.run p d = .ok b) : b.vertices = [] := by
  unfold Builder.run at hrun
  cases hvenues : p.venueCount.toNat with
  | succ n =>
      rw [hvenues, List.range_succ_eq_map, List.foldlM_cons, addVenue_of_noWorkers noWorkers] at hrun
      cases hrun
  | zero =>
      rw [hvenues] at hrun
      cases hmakers : p.marketMakerCount.toNat with
      | succ n =>
          rw [hmakers, List.range_succ_eq_map] at hrun
          simp only [List.range_zero, List.foldlM_nil, List.foldlM_cons, pure_bind,
            addMarketMaker_of_noWorkers noWorkers] at hrun
          cases hrun
      | zero =>
          rw [hmakers] at hrun
          cases hrun
          rfl

end NoWorkers

/-- What the builder can make of any parameters. -/
theorem vertices_of_run {p : OrderBookGraphParams} {d : Draws} {b : Builder}
    (hrun : Builder.run p d = .ok b) :
    b.vertices = [] ∨ (b.vertices = vertices p d ∧ b.noises = drawn p (levels p)) := by
  by_cases noWorkers : workers p = 0
  · exact Or.inl (vertices_of_noWorkers noWorkers hrun)
  · rw [run_eq_stage d noWorkers] at hrun
    cases hrun
    exact Or.inr ⟨by simp [makerStage, vertices], rfl⟩

end Layout

end Pregel
