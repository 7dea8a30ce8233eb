import Pregel.OrderBook.Arithmetic
import Pregel.OrderBook.Provenance

/-!
How far prices can fall.

In one superstep the midpoint of a venue moves by its noise and its bid is two ticks below, so
that no price falls by more than 10200. A graph of the builder starts around 150000000, and for
thousands of supersteps every venue quotes a positive bid. What holds of the runs with positive
bids then holds of every run that is not longer.

* `Execution.checked_of_staged`, `checkedRun_of_staged`: a rule that makes every call of
  `compute` acceptable.
* `sinking_compute`: a call of `compute`, class by class.
* `positive_bids`: every run of a built graph, if it is short enough, has positive bids.
* `quotes_stay_positive`: orders and market makers get nothing but quotes in it.
-/

namespace Pregel

open Lts
open WorkerNode (Phase Event)

/-! ### Rules that make a check superfluous -/

namespace GraphEngine

variable {σ μ : Type} [Addressed μ] {compute : Compute σ μ} {ok : Vertex σ μ → Prop}
  {R : Nat → μ → Prop} {S : Nat → VertexId → Vertex σ μ → Prop} {step : Superstep}
  {timing : WorkerId → WorkerId → Nat} {e e' : GraphEngine σ μ}

/-- Somewhere in a superstep. -/
theorem checkedRun_of_staged (rule : StagedRule compute (fun _ => True) R S)
    (good : ∀ vid v, S (step + 1) vid v → ok v)
    (init : ∀ i, StagedFlows R S step (e.workers i, .ready)) {tr : List (WorkerId × Event μ)}
    {ws : WorkerId → WorkerNode σ μ × Phase μ}
    (run : Run (Interleave (e.WorkerStep compute step timing)) (fun i => (e.workers i, .ready)) tr
      ws) :
    Run (Interleave (e.CheckedStep ok compute step timing)) (fun i => (e.workers i, .ready))
      tr ws := by
  have keeps : ∀ {s : WorkerId → WorkerNode σ μ × Phase μ} {i l x}, StagedFlows R S step (s i) →
      e.WorkerStep compute step timing i (s i) l x → StagedFlows R S step x :=
    fun h hstep => staged_step rule h hstep.2 fun _ _ _ _ _ => trivial
  refine run.mono_of_invariant (fun s => ∀ i, StagedFlows R S step (s i)) ?_ ?_ init
  · rintro s l t h ⟨x, hstep, rfl⟩ i
    rcases eq_or_ne i l.1 with rfl | hne
    · rw [Function.update_self]
      exact keeps (h _) hstep
    · rw [Function.update_of_ne hne]
      exact h i
  · rintro s l t h ⟨x, hstep, rfl⟩
    exact ⟨x, ⟨hstep, fun vid inbox v _ hv => good vid v ((keeps (h _) hstep).vertices vid v hv)⟩,
      rfl⟩

/-- After `k` supersteps. -/
theorem Execution.checked_of_staged (rule : StagedRule compute (fun _ => True) R S)
    (init : ∀ i, StagedFlows R S 0 (e.workers i, .ready))
    {trs : List (List (WorkerId × Event μ))} {k : Nat}
    (good : ∀ j < k, ∀ vid v, S (j + 1) vid v → ok v) (exec : Execution compute e trs k e') :
    CheckedExecution ok compute e trs k e' := by
  induction k generalizing trs e' with
  | zero =>
      obtain rfl := List.eq_nil_of_length_eq_zero exec.length_eq
      obtain rfl := exec.eq_of_zero
      exact .nil _
  | succ k ih =>
      obtain ⟨trs', tr, timing, e₀, rfl, exec', ws, run, flushed, rfl⟩ := exec.exists_last
      have before := ih (fun j hj => good j (Nat.lt_succ_of_lt hj)) exec'
      have hstaged := exec'.checked.staged rule init
      have hrun := checkedRun_of_staged rule (good k (Nat.lt_succ_self k)) hstaged run
      exact before.append (.one ⟨rfl, timing, ws, hrun, flushed, rfl⟩)

end GraphEngine

/-! ### The floor -/

/-- A bound on the prices of superstep `k`, if the prices of the graph are not below `low`. -/
def priceFloor (low : Int) (k : Nat) : Int := low - 10200 * k

/-- The prices of a PRICE_UPDATE; a report has one side only. -/
def PricesAbove (low : Int) (k : Nat) (m : Message) : Prop :=
  ∀ bid ask bidQty askQty, m.payload = .priceUpdate bid ask bidQty askQty →
    (bid = 0 ∨ priceFloor low k ≤ bid) ∧ (ask = 0 ∨ priceFloor low k ≤ ask)

theorem priceFloor_succ (low : Int) (k : Nat) : priceFloor low (k + 1) = priceFloor low k - 10200 := by
  unfold priceFloor
  omega

theorem priceFloor_anti (low : Int) {j k : Nat} (hjk : j ≤ k) :
    priceFloor low k ≤ priceFloor low j := by
  unfold priceFloor
  omega

theorem PricesAbove.mono {low : Int} {j k : Nat} {m : Message} (h : PricesAbove low j m)
    (hjk : j ≤ k) : PricesAbove low k m := by
  have hfloor := priceFloor_anti low hjk
  intro bid ask bidQty askQty hm
  obtain ⟨hbid, hask⟩ := h bid ask bidQty askQty hm
  exact ⟨hbid.imp_right hfloor.trans, hask.imp_right hfloor.trans⟩

namespace VenueVertex

variable {low : Int} {k : Nat} {u : VenueVertex} {inbox : List Message}

/-- A report moves the best prices to its own, or not at all. -/
theorem above_readMessage {m : Message} (hbid : priceFloor low k ≤ u.bestBid)
    (hask : priceFloor low k ≤ u.bestAsk) (hm : PricesAbove low k m) :
    priceFloor low k ≤ (u.readMessage m).bestBid ∧ priceFloor low k ≤ (u.readMessage m).bestAsk := by
  unfold readMessage
  split
  next bid ask bidQty askQty hpayload =>
    obtain ⟨-, hask'⟩ := hm bid ask bidQty askQty hpayload
    have hread : priceFloor low k ≤ (u.readBid bid bidQty).bestBid ∧
        priceFloor low k ≤ (u.readBid bid bidQty).bestAsk := by
      unfold readBid
      split
      · exact ⟨hbid.trans (le_max_left _ _), hask⟩
      · exact ⟨hbid, hask⟩
    unfold readAsk
    split
    next hpos => exact ⟨hread.1, hask'.resolve_left (Int.ne_of_gt hpos.1)⟩
    · exact hread
  · exact ⟨hbid, hask⟩

theorem above_foldl (hbid : priceFloor low k ≤ u.bestBid) (hask : priceFloor low k ≤ u.bestAsk)
    (hinbox : ∀ m ∈ inbox, PricesAbove low k m) :
    priceFloor low k ≤ (inbox.foldl readMessage u).bestBid ∧
      priceFloor low k ≤ (inbox.foldl readMessage u).bestAsk := by
  induction inbox generalizing u with
  | nil => exact ⟨hbid, hask⟩
  | cons m inbox ih =>
      obtain ⟨hbid', hask'⟩ := above_readMessage hbid hask (hinbox m List.mem_cons_self)
      exact ih hbid' hask' fun x hx => hinbox x (List.mem_cons_of_mem m hx)

/-- The noise and the half spread are what the floor sinks by. -/
theorem above_move (hlow : low ≤ basePrice) (hbid : priceFloor low k ≤ u.bestBid)
    (hask : priceFloor low k ≤ u.bestAsk) (noise : u.rng.head.natAbs ≤ 10 ^ 4) :
    priceFloor low (k + 1) ≤ u.move.bestBid ∧ priceFloor low (k + 1) ≤ u.move.bestAsk := by
  have hfloor : priceFloor low k ≤ 100000 * fixedScale := by
    unfold basePrice fixedScale at hlow
    unfold priceFloor fixedScale
    omega
  have hmid : priceFloor low k ≤ u.mid := by
    unfold mid
    dsimp only
    split
    · exact hfloor
    · -- the mean of two prices, rounded towards zero
      have hmean : 2 * priceFloor low k ≤ u.bestBid + u.bestAsk := by omega
      rcases Int.le_total 0 (u.bestBid + u.bestAsk) with hpos | hneg
      · rw [Int.tdiv_eq_ediv_of_nonneg hpos]
        omega
      · have htdiv : (u.bestBid + u.bestAsk).tdiv 2 = -((-(u.bestBid + u.bestAsk)) / 2) := by
          rw [← Int.tdiv_eq_ediv_of_nonneg (by omega), Int.neg_tdiv, Int.neg_neg]
        omega
  rw [priceFloor_succ]
  simp only [move, tickSize]
  omega

end VenueVertex

namespace OrderBook

/-! ### A call of `compute` -/

/-- The prices of a vertex when superstep `k` begins. A venue has drawn at most `k` numbers
from one of the generators in `noise`. -/
def StateAbove (noise : Set (Stream' Int)) (low : Int) (k : Nat) : BookState → Prop
  | .priceLevel l => priceFloor low k ≤ l.price
  | .venue u => priceFloor low k ≤ u.bestBid ∧ priceFloor low k ≤ u.bestAsk ∧
      ∃ s ∈ noise, ∃ j ≤ k, u.rng = s.drop j
  | _ => True

/-- A vertex when superstep `k` begins. -/
structure VertexAbove (noise : Set (Stream' Int)) (low : Int) (k : Nat)
    (v : Vertex BookState Message) : Prop where
  state : StateAbove noise low k v.state
  outbox : ∀ m ∈ v.outbox, PricesAbove low k m

variable {noise : Set (Stream' Int)} {low : Int}

theorem StateAbove.mono {j k : Nat} {s : BookState} (h : StateAbove noise low j s) (hjk : j ≤ k) :
    StateAbove noise low k s := by
  have hfloor := priceFloor_anti low hjk
  cases s with
  | priceLevel l => exact hfloor.trans h
  | venue u =>
      obtain ⟨hbid, hask, stream, hstream, i, hi, hrng⟩ := h
      exact ⟨hfloor.trans hbid, hfloor.trans hask, stream, hstream, i, hi.trans hjk, hrng⟩
  | _ => trivial

section Compute

variable {k : Nat} {v : Vertex BookState Message} {inbox : List Message}
  (above : VertexAbove noise low k v) (received : ∀ m ∈ inbox, PricesAbove low k m)

include above

/-- What is left to show of a call of `compute`. -/
theorem vertexAbove_of_sent
    (state : StateAbove noise low (k + 1) (BookState.compute v inbox k).state)
    (sent : ∀ m ∈ (BookState.compute v inbox k).outbox, m ∉ v.outbox → PricesAbove low (k + 1) m) :
    VertexAbove noise low (k + 1) (BookState.compute v inbox k) := by
  refine ⟨state, fun m hm => ?_⟩
  by_cases hold : m ∈ v.outbox
  · exact (above.outbox m hold).mono (Nat.le_succ k)
  · exact sent m hm hold

/-- An order sends no prices of its own. -/
theorem above_order {o : OrderVertex} (hstate : v.state = .order o) :
    VertexAbove noise low (k + 1) (BookState.compute v inbox k) := by
  have hcompute : BookState.compute v inbox k =
      (OrderVertex.compute (v.map fun _ => o) inbox k).map .order := by
    simp only [BookState.compute, hstate]
  obtain ⟨-, -, -, houtbox⟩ := OrderVertex.compute_spec (v.map fun _ => o) inbox k
  apply vertexAbove_of_sent above
  · rw [hcompute]
    trivial
  · intro m hm hnew
    rw [hcompute] at hm
    change m ∈ (OrderVertex.compute _ inbox k).outbox at hm
    rw [houtbox, List.mem_append] at hm
    have hsent := hm.resolve_left hnew
    split at hsent
    · obtain ⟨e, -, rfl⟩ := List.mem_map.mp hsent
      exact fun _ _ _ _ hpayload => by cases hpayload
    · cases hsent

/-- A market maker sends no prices. -/
theorem above_marketMaker {mm : MarketMakerVertex} (hstate : v.state = .marketMaker mm) :
    VertexAbove noise low (k + 1) (BookState.compute v inbox k) := by
  have hcompute : BookState.compute v inbox k =
      (MarketMakerVertex.compute (v.map fun _ => mm) inbox k).map .marketMaker := by
    simp only [BookState.compute, hstate]
  apply vertexAbove_of_sent above
  · rw [hcompute]
    trivial
  · intro m hm hnew
    rw [hcompute] at hm
    change m ∈ (MarketMakerVertex.compute _ inbox k).outbox at hm
    rw [MarketMakerVertex.compute_outbox, List.mem_append] at hm
    have hsent := hm.resolve_left hnew
    split at hsent
    · cases hsent
    · obtain ⟨e, -, rfl⟩ := List.mem_map.mp hsent
      exact fun _ _ _ _ hpayload => by cases hpayload

include received

/-- A price level hands quotes on and reports its own price. -/
theorem above_priceLevel {l : PriceLevelVertex} (hstate : v.state = .priceLevel l) :
    VertexAbove noise low (k + 1) (BookState.compute v inbox k) := by
  have hcompute : BookState.compute v inbox k =
      (PriceLevelVertex.compute (v.map fun _ => l) inbox k).map .priceLevel := by
    simp only [BookState.compute, hstate]
  have hprice : priceFloor low k ≤ l.price := by
    have h := above.state
    rwa [hstate] at h
  have hsunk : priceFloor low (k + 1) ≤ l.price := (priceFloor_anti low (Nat.le_succ k)).trans hprice
  have hside : ∀ side : Side, (if l.side = side then l.price else 0) = 0 ∨
      priceFloor low (k + 1) ≤ if l.side = side then l.price else 0 := by
    intro side
    split
    · exact .inr hsunk
    · exact .inl rfl
  apply vertexAbove_of_sent above
  · obtain ⟨qty, count, hfold⟩ :=
      PriceLevelVertex.foldl_fill_frame l (PriceLevelVertex.fills inbox)
    rw [hcompute, PriceLevelVertex.compute_eq]
    change priceFloor low (k + 1) ≤
      ((PriceLevelVertex.fills inbox).foldl PriceLevelVertex.fill l).price
    rw [hfold]
    exact hsunk
  · intro m hm hnew
    rw [hcompute] at hm
    rcases (PriceLevelVertex.payload_compute_outbox hm).resolve_left hnew with
      ⟨msg, hmsg, -, hpayload⟩ | ⟨bidQty, askQty, hpayload⟩
    · intro bid ask bidQty askQty hprices
      apply ((received msg hmsg).mono (Nat.le_succ k)) bid ask bidQty askQty
      rw [← hpayload, hprices]
    · intro bid ask bidQty' askQty' hprices
      rw [hpayload] at hprices
      cases hprices
      exact ⟨hside .bid, hside .ask⟩

/-- A venue draws one number and quotes its new prices. -/
theorem above_venue (hlow : low ≤ basePrice) {u : VenueVertex} (hstate : v.state = .venue u)
    (hnoise : ∀ s ∈ noise, ∀ i ≤ k, (s.get i).natAbs ≤ 10 ^ 4) :
    VertexAbove noise low (k + 1) (BookState.compute v inbox k) := by
  have hcompute : BookState.compute v inbox k =
      (VenueVertex.compute (v.map fun _ => u) inbox k).map .venue := by
    simp only [BookState.compute, hstate]
  have habove : StateAbove noise low k (.venue u) := hstate ▸ above.state
  obtain ⟨hbid, hask, stream, hstream, j, hj, hrng⟩ := habove
  obtain ⟨hbid', hask'⟩ := VenueVertex.above_foldl hbid hask received
  have hrng' : (inbox.foldl VenueVertex.readMessage u).rng = stream.drop j :=
    (VenueVertex.foldl_readMessage_rng u inbox).trans hrng
  have hhead : (inbox.foldl VenueVertex.readMessage u).rng.head.natAbs ≤ 10 ^ 4 := by
    rw [hrng', Stream'.head_drop]
    exact hnoise stream hstream j hj
  have hmove := VenueVertex.above_move hlow hbid' hask' hhead
  have hafter : (VenueVertex.compute (v.map fun _ => u) inbox k).state =
      (inbox.foldl VenueVertex.readMessage u).move :=
    VenueVertex.compute_state _ inbox k
  apply vertexAbove_of_sent above
  · rw [hcompute]
    change StateAbove noise low (k + 1) (.venue (VenueVertex.compute _ inbox k).state)
    rw [hafter]
    refine ⟨hmove.1, hmove.2, stream, hstream, j + 1, Nat.succ_le_succ hj, ?_⟩
    change (inbox.foldl VenueVertex.readMessage u).rng.tail = _
    rw [hrng', Stream'.tail_drop']
  · intro m hm hnew
    rw [hcompute] at hm
    change m ∈ (VenueVertex.compute _ inbox k).outbox at hm
    rw [VenueVertex.compute_outbox, hafter, List.mem_append] at hm
    obtain ⟨e, -, rfl⟩ := List.mem_map.mp (hm.resolve_left hnew)
    intro bid ask bidQty askQty hpayload
    cases hpayload
    exact hmove.imp .inr .inr

/-- **A call of `compute` sinks no price by more than 10200.** -/
theorem sinking_compute (hlow : low ≤ basePrice)
    (hnoise : ∀ s ∈ noise, ∀ i ≤ k, (s.get i).natAbs ≤ 10 ^ 4) :
    VertexAbove noise low (k + 1) (BookState.compute v inbox k) := by
  cases hstate : v.state with
  | order o => exact above_order above hstate
  | priceLevel l => exact above_priceLevel above received hstate
  | venue u => exact above_venue above received hlow hstate hnoise
  | marketMaker m => exact above_marketMaker above hstate

end Compute

/-- The program of the order book meets the rule up to superstep `last`. -/
theorem sinkingRule (hlow : low ≤ basePrice) {last : Nat}
    (hnoise : ∀ s ∈ noise, ∀ i ≤ last, (s.get i).natAbs ≤ 10 ^ 4) :
    StagedRule BookState.compute (fun _ => True) (fun k m => k ≤ last + 1 → PricesAbove low k m)
      (fun k _ v => k ≤ last + 1 → VertexAbove noise low k v) where
  keepsMessages k m hm hk := (hm (by omega)).mono (Nat.le_succ k)
  keepsVertices k vid v hv hk := by
    obtain ⟨state, outbox⟩ := hv (by omega)
    exact ⟨state.mono (Nat.le_succ k), fun m hm => (outbox m hm).mono (Nat.le_succ k)⟩
  sends k vid v hv m hm hk := (hv hk).outbox m hm
  wakes k vid v hv hk := ⟨(hv hk).state, (hv hk).outbox⟩
  collected k vid v hv hk := ⟨(hv hk).state, fun m hm => absurd hm List.not_mem_nil⟩
  computes k vid v inbox hv hinbox _ hk := by
    have hk' : k ≤ last := by omega
    exact sinking_compute (hv (by omega)) (fun m hm => (hinbox m hm).1 (by omega)) hlow
      fun s hs i hi => hnoise s hs i (hi.trans hk')

/-- A loaded graph has no message anywhere. -/
theorem sinking_load {vs loaded : List (Vertex BookState Message)} (wired : Wired vs)
    (order : loaded.Perm vs) (prices : ∀ u ∈ vs, StateAbove noise low 0 u.state) (last : Nat)
    (config : EngineConfig) (i : WorkerId) :
    StagedFlows (fun k m => k ≤ last + 1 → PricesAbove low k m)
      (fun k _ v => k ≤ last + 1 → VertexAbove noise low k v) 0
      ((GraphEngine.load config loaded).workers i, .ready) := by
  have hworker := GraphEngine.load_worker config loaded i
  have hvertex : ∀ k vid v,
      ((GraphEngine.load config loaded).workers i).vertices.lookup vid = some v →
        VertexAbove noise low k v := by
    intro k vid v hv
    obtain ⟨hmem, -⟩ := mem_of_load_lookup wired order hv
    refine ⟨(prices v hmem).mono (Nat.zero_le k), ?_⟩
    rw [(wired.fresh v hmem).1]
    exact fun _ hm => absurd hm List.not_mem_nil
  refine ⟨?_, ?_, fun vid v hv _ => hvertex _ vid v hv, fun vid v hv _ _ => hvertex _ vid v hv,
    fun _ _ _ hphase => by cases hphase⟩
  · rw [hworker]
    exact MessageBus.within_new _ _ _
  · rw [hworker]
    exact fun vid m hm => absurd hm List.not_mem_nil

/-! ### The graph of the builder -/

/-- A bound on the prices of the graph: the noise, and a tick for each level of a side. -/
def lowest (p : OrderBookGraphParams) : Int := basePrice - 10 ^ 4 - 100 * (p.priceLevels.toNat + 1)

open Layout in
theorem above_vertices {p : OrderBookGraphParams} {d : Draws}
    (hnoise : ∀ i < drawn p (levels p), (d.priceNoise i).natAbs ≤ 10 ^ 4) :
    ∀ u ∈ vertices p d, StateAbove (venueStreams p d) (lowest p) 0 u.state := by
  intro u hu
  rcases mem_vertices.mp hu with ⟨v, hv, rfl⟩ | ⟨j, hj, o, ho, rfl⟩ | ⟨j, hj, rfl⟩ | ⟨m, hm, rfl⟩
  · have hdrawn : 2 * v + 1 < drawn p (levels p) := by
      unfold drawn
      omega
    have hbid := hnoise (2 * v) (by omega)
    have hask := hnoise (2 * v + 1) hdrawn
    refine ⟨?_, ?_, d.venueNoise (VenueVertex.seed v), ⟨v, hv, rfl⟩, 0, Nat.le_refl 0, rfl⟩
    · change priceFloor (lowest p) 0 ≤ basePrice - 100 + d.priceNoise (2 * v)
      unfold priceFloor lowest
      omega
    · change priceFloor (lowest p) 0 ≤ basePrice + 100 + d.priceNoise (2 * v + 1)
      unfold priceFloor lowest
      omega
  · trivial
  · have hdrawn : drawn p j < drawn p (levels p) :=
      Nat.add_lt_add_left (Nat.mul_lt_mul_of_lt_of_le hj (Nat.le_refl _) (by omega)) _
    have hlevel := hnoise (drawn p j) hdrawn
    -- a level is at most as many ticks away from the base price as a side has levels
    have hpos : 0 < depth p := by
      apply Nat.pos_of_ne_zero
      intro hzero
      rw [levels, hzero] at hj
      exact Nat.not_lt_zero j hj
    have hdepth : levelDepth p j < p.priceLevels.toNat := Nat.mod_lt j hpos
    change priceFloor (lowest p) 0 ≤ levelPrice p d j
    unfold levelPrice priceFloor lowest tickSize
    split <;> omega
  · trivial

section Runs

variable {p : OrderBookGraphParams} {d : Draws} {config : EngineConfig}
  {trs : List (List (WorkerId × Event Message))} {k : Nat} {e : GraphEngine BookState Message}

/-- The draws of the builder and those of the venues up to superstep `k` are bounded. -/
structure Bounded (p : OrderBookGraphParams) (d : Draws) (k : Nat) : Prop where
  builder : ∀ i < Layout.drawn p (Layout.levels p), (d.priceNoise i).natAbs ≤ 10 ^ 4
  venues : ∀ v < p.venueCount.toNat, ∀ i ≤ k,
    ((d.venueNoise (VenueVertex.seed v)).get i).natAbs ≤ 10 ^ 4

/-- Prices cannot have fallen to zero in superstep `k`. -/
def Early (p : OrderBookGraphParams) (k : Nat) : Prop :=
  10 ^ 4 + 100 * (p.priceLevels.toNat + 1) + 10200 * (k + 1) < basePrice

instance (p : OrderBookGraphParams) (k : Nat) : Decidable (Early p k) :=
  inferInstanceAs (Decidable (_ < _))

theorem positiveBid_of_above (early : Early p k) {j : Nat} (hj : j ≤ k)
    {v : Vertex BookState Message} (above : VertexAbove noise (lowest p) (j + 1) v) :
    PositiveBid v := by
  intro u hu
  have hstate := above.state
  rw [hu] at hstate
  have hfloor := (priceFloor_anti (lowest p) (Nat.succ_le_succ hj)).trans hstate.1
  unfold priceFloor lowest at hfloor
  unfold Early at early
  omega

open Layout in
/-- **A short run has positive bids.** -/
theorem positive_bids {loaded : List (Vertex BookState Message)}
    (order : loaded.Perm (vertices p d)) (bounded : Bounded p d k) (early : Early p k)
    (exec : GraphEngine.Execution BookState.compute (GraphEngine.load config loaded) trs k e)
    {timing : WorkerId → WorkerId → Nat} {tr : List (WorkerId × Event Message)}
    {ws : WorkerId → WorkerNode BookState Message × Phase Message}
    (superstep : Run (Interleave (e.WorkerStep BookState.compute k timing))
      (fun i => (e.workers i, .ready)) tr ws) :
    GraphEngine.CheckedExecution PositiveBid BookState.compute
        (GraphEngine.load config loaded) trs k e ∧
      Run (Interleave (e.CheckedStep PositiveBid BookState.compute k timing))
        (fun i => (e.workers i, .ready)) tr ws := by
  have hnoise : ∀ s ∈ venueStreams p d, ∀ i ≤ k, (s.get i).natAbs ≤ 10 ^ 4 := by
    rintro s ⟨v, hv, rfl⟩
    exact bounded.venues v hv
  have hlow : lowest p ≤ basePrice := by
    unfold lowest
    omega
  have rule := sinkingRule hlow hnoise
  have init := sinking_load (wired_vertices p d) order (above_vertices bounded.builder) k config
  refine ⟨exec.checked_of_staged rule init ?_, ?_⟩
  · intro j hj vid v hv
    exact positiveBid_of_above early (Nat.le_of_lt hj) (hv (by omega))
  · apply GraphEngine.checkedRun_of_staged rule ?_ (exec.checked.staged rule init) superstep
    intro vid v hv
    exact positiveBid_of_above early (Nat.le_refl k) (hv (Nat.le_refl _))

/-- **No order is filled and no market maker trades, as long as the prices cannot have fallen to
zero.** Take any graph that the builder makes with draws of at most 10^4, loaded into an engine
with its vertex maps in any order, any run of it, and any moment of the superstep after it,
number `k`. If 10000 + 100 (n + 1) + 10200 (k + 1) is less than
150000000 for `n` price levels on each side, then orders have only got PRICE_UPDATEs and market
makers only quotes, no order is filled or inactive, and no market maker has traded or sent
anything. -/
theorem quotes_stay_positive (p : OrderBookGraphParams) (d : Draws) {g : GraphData}
    (built : buildOrderBookGraph p d = .ok g) (config : EngineConfig)
    (bounded : Bounded p d k) (early : Early p k) {e₀ : GraphEngine BookState Message}
    (order : (GraphEngine.load config g.vertices).Reordered e₀)
    (exec : GraphEngine.Execution BookState.compute e₀ trs k e)
    {timing : WorkerId → WorkerId → Nat} {tr : List (WorkerId × Event Message)}
    {ws : WorkerId → WorkerNode BookState Message × Phase Message}
    (superstep : Run (Interleave (e.WorkerStep BookState.compute k timing))
      (fun i => (e.workers i, .ready)) tr ws) :
    OnlyQuotes g.vertices (trs ++ [tr]) ws := by
  obtain ⟨loaded, perm, rfl⟩ := exists_perm_of_built built order
  rw [vertices_of_built built]
  obtain ⟨checked, during⟩ := positive_bids perm bounded early exec superstep
  have hwired := wired_vertices p d
  obtain ⟨hflows, hevents⟩ := checked.flows (flowRule hwired) (flows_load hwired perm config)
  obtain ⟨hduring, hlast⟩ := GraphEngine.flows_during (flowRule hwired) hflows during
  apply onlyQuotes_of_flows hwired hduring
  intro tr' htr'
  rcases List.mem_append.mp htr' with hmem | hmem
  · exact hevents tr' hmem
  · rw [List.mem_singleton.mp hmem]
    exact hlast

end Runs

/-- One venue and one market maker, after a thousand supersteps. -/
theorem quotes_stay_positive_duo : ∃ trs tr ws e, GraphEngine.Execution BookState.compute
      (GraphEngine.load { workerCount := 1 } duoGraph.vertices) trs 1000 e ∧
    OnlyQuotes duoGraph.vertices (trs ++ [tr]) ws := by
  have built : buildOrderBookGraph duo .still = .ok duoGraph := by rfl
  have nodes : ∀ i < (GraphEngine.load { workerCount := 1 } duoGraph.vertices).config.workerCount,
      0 < ((GraphEngine.load { workerCount := 1 } duoGraph.vertices).workers i).config.numaNodes :=
    fun i _ => GraphEngine.load_nodes Nat.two_pos _ i
  obtain ⟨trs, exec⟩ := GraphEngine.execution_supersteps BookState.compute (fun _ _ _ => 0) nodes 1000
  obtain ⟨tr, ws, run, -⟩ :=
    GraphEngine.superstepRun_supersteps BookState.compute (fun _ _ _ => 0) nodes 1000
  have bounded : Bounded duo .still 1000 := ⟨fun _ _ => Nat.zero_le _, fun _ _ _ _ => Nat.zero_le _⟩
  exact ⟨trs, tr, ws, _, exec, quotes_stay_positive duo .still built { workerCount := 1 } bounded
    (by decide) (.refl _) exec run⟩

end OrderBook

end Pregel
