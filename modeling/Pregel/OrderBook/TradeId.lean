import Pregel.Outbox
import Pregel.OrderBook.Flow

/-!
The trade ids of the fills.

A trade id is the identifier of the order, with the superstep number in the upper half of
the word. An order has one edge and is asked to compute once in a superstep, so it sends one
fill in it at most; and while identifiers and superstep numbers fit into 32 bits, no two
fills of a run have the same trade id.

* `tradeId_inj`: the trade id names the order and the superstep.
* `OneFill`, `outboxRule`: what an order may send in a superstep.
* `TradeIds`, `trade_ids_identify_fills`: the trade ids of a run.
-/

namespace Pregel

open Lts
open WorkerNode (Phase Event)

/-- The trade id of an ORDER_FILL. -/
def Message.tradeId? (m : Message) : Option UInt64 :=
  match m.payload with
  | .orderFill _ _ tradeId => some tradeId
  | _ => none

namespace OrderBook

/-- The trade id of a fill that an order sends. -/
def tradeId (id : VertexId) (step : Superstep) : UInt64 :=
  UInt64.ofNat id ^^^ (UInt64.ofNat step <<< 32)

/-! ### The two halves of a trade id -/

theorem toNat_tradeId {id step : Nat} (hid : id < 2 ^ 32) (hstep : step < 2 ^ 32) :
    (tradeId id step).toNat = id ^^^ (step <<< 32) := by
  have hshift : step <<< 32 < 2 ^ 64 := by
    rw [Nat.shiftLeft_eq]
    omega
  rw [tradeId, UInt64.toNat_xor, UInt64.toNat_shiftLeft, UInt64.toNat_ofNat', UInt64.toNat_ofNat',
    Nat.mod_eq_of_lt (by omega : id < 2 ^ 64), Nat.mod_eq_of_lt (by omega : step < 2 ^ 64)]
  exact congrArg (id ^^^ ·) (Nat.mod_eq_of_lt hshift)

/-- The lower half is the order. -/
theorem tradeId_mod {id step : Nat} (hid : id < 2 ^ 32) (hstep : step < 2 ^ 32) :
    (tradeId id step).toNat % 2 ^ 32 = id := by
  rw [toNat_tradeId hid hstep, Nat.xor_mod_two_pow, Nat.shiftLeft_eq, Nat.mul_mod_left,
    Nat.xor_zero, Nat.mod_eq_of_lt hid]

/-- The upper half is the superstep. -/
theorem tradeId_shiftRight {id step : Nat} (hid : id < 2 ^ 32) (hstep : step < 2 ^ 32) :
    (tradeId id step).toNat >>> 32 = step := by
  rw [toNat_tradeId hid hstep, Nat.shiftRight_xor_distrib, Nat.shiftLeft_shiftRight,
    Nat.shiftRight_eq_div_pow, Nat.div_eq_of_lt hid, Nat.zero_xor]

/-- **The trade id names the order and the superstep.** -/
theorem tradeId_inj {id id' step step' : Nat} (hid : id < 2 ^ 32) (hid' : id' < 2 ^ 32)
    (hstep : step < 2 ^ 32) (hstep' : step' < 2 ^ 32)
    (same : tradeId id step = tradeId id' step') : id = id' ∧ step = step' := by
  constructor
  · rw [← tradeId_mod hid hstep, same, tradeId_mod hid' hstep']
  · rw [← tradeId_shiftRight hid hstep, same, tradeId_shiftRight hid' hstep']

/-! ### What an order sends -/

variable {vs loaded : List (Vertex BookState Message)}

/-- A vertex of the graph, whatever became of its fields. -/
structure Framed (vs : List (Vertex BookState Message)) (vid : VertexId)
    (v : Vertex BookState Message) : Prop where
  origin : ∃ u ∈ vs, u.id = vid ∧ u.SameFrame v
  typed : v.state.type = v.type

/-- A vertex keeps its place in the graph. -/
theorem Framed.of_sameFrame {vid : VertexId} {v v' : Vertex BookState Message}
    (framed : Framed vs vid v) (frame : v.SameFrame v') (type : v'.state.type = v.state.type) :
    Framed vs vid v' := by
  obtain ⟨u, hu, hid, horigin⟩ := framed.origin
  refine ⟨⟨u, hu, hid, horigin.trans frame⟩, ?_⟩
  rw [type, framed.typed, frame.type]

/-- If `vid` is an order then these messages are at most one, a fill of superstep `k`. -/
def OneFill (vs : List (Vertex BookState Message)) (k : Superstep) (vid : VertexId)
    (ms : List Message) : Prop :=
  ∀ u ∈ vs, u.id = vid → u.type = .order →
    ms = [] ∨ ∃ m, ms = [m] ∧ m.tradeId? = some (tradeId vid k)

/-- A call of `compute` on an order with one edge and an empty outbox. -/
theorem oneFill_compute (distinct : (vs.map Vertex.id).Nodup)
    (oneEdge : ∀ u ∈ vs, u.type = .order → ∃ e, u.edges = [e]) {vid : VertexId}
    {v : Vertex BookState Message} (framed : Framed vs vid v) (empty : v.outbox = [])
    (inbox : List Message) (k : Superstep) :
    OneFill vs k vid (BookState.compute v inbox k).outbox := by
  intro u hu hid htype
  obtain ⟨w, hw, hwid, horigin⟩ := framed.origin
  obtain rfl := List.inj_on_of_nodup_map distinct hu hw (hid.trans hwid.symm)
  have hstate : v.state.type = .order := framed.typed.trans (horigin.type.trans htype)
  cases hcase : v.state with
  | order o =>
      obtain ⟨e, hedges⟩ := oneEdge u hu htype
      obtain ⟨-, -, -, houtbox⟩ := OrderVertex.compute_spec (v.map fun _ => o) inbox k
      have hcompute : (BookState.compute v inbox k).outbox =
          (OrderVertex.compute (v.map fun _ => o) inbox k).outbox := by
        simp only [BookState.compute, hcase]
        rfl
      have hone : (v.map fun _ => o).edges = [e] := horigin.edges.trans hedges
      have hsender : (v.map fun _ => o).id = vid := horigin.id.trans hid
      have hbefore : (v.map fun _ => o).outbox = [] := empty
      rw [hcompute, houtbox, hbefore, hone, hsender, List.nil_append]
      split
      · exact Or.inr ⟨_, rfl, rfl⟩
      · exact Or.inl rfl
  | _ =>
      rw [hcase] at hstate
      cases hstate

/-- The program of the order book meets the rule for outboxes. -/
theorem outboxRule (distinct : (vs.map Vertex.id).Nodup)
    (oneEdge : ∀ u ∈ vs, u.type = .order → ∃ e, u.edges = [e]) :
    OutboxRule BookState.compute (Framed vs) (OneFill vs) where
  wakes _ _ framed := framed.of_sameFrame ⟨rfl, rfl, rfl, rfl⟩ rfl
  collected _ _ framed := framed.of_sameFrame ⟨rfl, rfl, rfl, rfl⟩ rfl
  computes _ v inbox k framed :=
    framed.of_sameFrame (compute_frame v inbox k) (compute_type v inbox k)
  sends _ _ inbox k framed empty := oneFill_compute distinct oneEdge framed empty inbox k
  silent _ _ _ _ _ _ := Or.inl rfl

/-! ### The graph of the builder -/

/-- What the trade ids need of a graph of the builder, whatever the parameters. -/
theorem orders_of_run {p : OrderBookGraphParams} {d : Draws} {b : Builder}
    (hrun : Builder.run p d = .ok b) : ∀ u ∈ b.vertices, u.id < b.vertices.length ∧
      (u.type = .order → ∃ e, u.edges = [e]) := by
  intro u hu
  rcases Layout.vertices_of_run hrun with hvertices | ⟨hvertices, -⟩
  · rw [hvertices] at hu
    cases hu
  rw [hvertices] at hu ⊢
  constructor
  · have hmem := Layout.ids_perm.mem_iff.mp (List.mem_map_of_mem hu)
    have hlength := Layout.ids_perm (p := p) (d := d).length_eq
    rw [List.length_map, List.length_range] at hlength
    rw [hlength]
    exact List.mem_range.mp hmem
  · intro htype
    rcases Layout.mem_vertices.mp hu with
      ⟨v, hv, rfl⟩ | ⟨j, hj, o, ho, rfl⟩ | ⟨j, hj, rfl⟩ | ⟨m, hm, rfl⟩
    · cases htype
    · exact ⟨_, rfl⟩
    · cases htype
    · cases htype

/-- A loaded graph has nothing in its outboxes. -/
theorem rested_load (wired : Wired vs) (order : loaded.Perm vs) (config : EngineConfig)
    (i : WorkerId) : Rested (Framed vs) ((GraphEngine.load config loaded).workers i) where
  vertices vid v hv := by
    obtain ⟨hmem, hid⟩ := mem_of_load_lookup wired order hv
    exact ⟨⟨v, hmem, hid, .refl v⟩, wired.typed v hmem⟩
  empty vid := by
    unfold WorkerNode.outboxOf
    cases hv : ((GraphEngine.load config loaded).workers i).vertices.lookup vid with
    | none => rfl
    | some v => exact (wired.fresh v (mem_of_load_lookup wired order hv).1).1

/-- The ORDER_FILLs that the orders of `vs` have sent, superstep by superstep: at most one
by an order in a superstep, and a trade id belongs to one of them. -/
structure TradeIds (vs : List (Vertex BookState Message))
    (sent : VertexId → List (List Message)) : Prop where
  once : ∀ u ∈ vs, u.type = .order → ∀ ms ∈ sent u.id,
    ms.countP (fun m => m.type = .orderFill) ≤ 1
  unique : ∀ u ∈ vs, u.type = .order → ∀ u' ∈ vs, u'.type = .order →
    ∀ (s s' : Superstep) (ms ms' : List Message),
      (sent u.id)[s]? = some ms → (sent u'.id)[s']? = some ms' →
      ∀ m ∈ ms, ∀ m' ∈ ms', ∀ t, m.tradeId? = some t → m'.tradeId? = some t →
        u = u' ∧ s = s' ∧ m = m'

theorem OneFill.count_le {k : Superstep} {u : Vertex BookState Message} {ms : List Message}
    (fill : OneFill vs k u.id ms) (hu : u ∈ vs) (order : u.type = .order) :
    ms.countP (fun m => m.type = .orderFill) ≤ 1 := by
  obtain rfl | ⟨m, rfl, -⟩ := fill u hu rfl order
  · exact Nat.zero_le 1
  · exact List.countP_le_length

theorem OneFill.tradeId_eq {k : Superstep} {u : Vertex BookState Message} {ms : List Message}
    (fill : OneFill vs k u.id ms) (hu : u ∈ vs) (order : u.type = .order) {m : Message}
    (hm : m ∈ ms) : ms = [m] ∧ m.tradeId? = some (tradeId u.id k) := by
  obtain rfl | ⟨m', rfl, htrade⟩ := fill u hu rfl order
  · cases hm
  · obtain rfl := List.mem_singleton.mp hm
    exact ⟨rfl, htrade⟩

/-- Fills that keep to the rule have trade ids of their own. -/
theorem tradeIds_of_oneFill (distinct : (vs.map Vertex.id).Nodup)
    (small : ∀ u ∈ vs, u.id < 2 ^ 32) {k : Nat} (steps : k < 2 ^ 32)
    {sent : VertexId → List (List Message)}
    (fills : ∀ vid s ms, (sent vid)[s]? = some ms → s ≤ k ∧ OneFill vs s vid ms) :
    TradeIds vs sent where
  once u hu order ms hms := by
    obtain ⟨s, hs⟩ := List.mem_iff_getElem?.mp hms
    exact (fills u.id s ms hs).2.count_le hu order
  unique u hu order u' hu' order' s s' ms ms' hs hs' m hm m' hm' t ht ht' := by
    obtain ⟨hstep, hfill⟩ := fills u.id s ms hs
    obtain ⟨hstep', hfill'⟩ := fills u'.id s' ms' hs'
    obtain ⟨hone, htrade⟩ := hfill.tradeId_eq hu order hm
    obtain ⟨hone', htrade'⟩ := hfill'.tradeId_eq hu' order' hm'
    have hsame : tradeId u.id s = tradeId u'.id s' := by
      rw [← Option.some.injEq, ← htrade, ← htrade', ht, ht']
    obtain ⟨hid, rfl⟩ := tradeId_inj (small u hu) (small u' hu') (Nat.lt_of_le_of_lt hstep steps)
      (Nat.lt_of_le_of_lt hstep' steps) hsame
    obtain rfl := List.inj_on_of_nodup_map distinct hu hu' hid
    refine ⟨rfl, rfl, ?_⟩
    rw [hs, Option.some.injEq] at hs'
    rw [← hs', hone] at hm'
    exact (List.mem_singleton.mp hm').symm

/-- **A trade id identifies a fill.** Take any parameters and draws, the graph that the
builder makes of them, with less than 2^32 vertices, loaded into an engine with its vertex maps
in any order, any run of it over less than 2^32 supersteps and any moment of the superstep after
them: an order has sent at most one ORDER_FILL in each superstep, and two ORDER_FILLs of orders
with one trade id were sent by one order in one superstep. -/
theorem trade_ids_identify_fills (p : OrderBookGraphParams) (d : Draws) {g : GraphData}
    (built : buildOrderBookGraph p d = .ok g) (small : g.vertices.length < 2 ^ 32)
    (config : EngineConfig) {e₀ : GraphEngine BookState Message}
    (order : (GraphEngine.load config g.vertices).Reordered e₀)
    {trs : List (List (WorkerId × Event Message))} {k : Nat} {e : GraphEngine BookState Message}
    (exec : GraphEngine.Execution BookState.compute e₀ trs k e)
    (steps : k < 2 ^ 32) {timing : WorkerId → WorkerId → Nat}
    {tr : List (WorkerId × Event Message)}
    {ws : WorkerId → WorkerNode BookState Message × Phase Message}
    (superstep : Run (Interleave (e.WorkerStep BookState.compute k timing))
      (fun i => (e.workers i, .ready)) tr ws) :
    TradeIds g.vertices fun vid => sentLog vid config.workerCount trs tr ws := by
  obtain ⟨b, hrun, rfl⟩ := exists_run_of_built built
  have hwired := wired_of_run hrun
  have horders := orders_of_run hrun
  have hsmall : ∀ u ∈ b.vertices, u.id < 2 ^ 32 := fun u hu =>
    Nat.lt_trans (horders u hu).1 small
  obtain ⟨loaded, perm, rfl⟩ := GraphEngine.exists_load_of_reordered hwired.distinct order
  have hplaced : ∀ i vid, vid ∈ ((GraphEngine.load config loaded).workers i).vertices →
      vid % config.workerCount = i := fun i vid hvid =>
    ((GraphEngine.mem_load config loaded i vid).mp hvid).1
  apply tradeIds_of_oneFill hwired.distinct hsmall steps
  intro vid s ms hs
  apply GraphEngine.out_sentLog (outboxRule hwired.distinct fun u hu => (horders u hu).2)
    (rested_load hwired perm config) hplaced exec superstep
  rwa [GraphEngine.load_config]

/-! ### A bid and an ask -/

/-- One venue with one order on each side of the book. -/
def quad : OrderBookGraphParams where
  venueCount := 1
  priceLevels := 1
  ordersPerLevel := 1
  marketMakerCount := 0
  workerCount := 1

def quadGraph : GraphData where
  vertices := Layout.vertices quad .still
  totalEdges := 8
  venueCount := 1
  priceLevelCount := 2
  orderCount := 2

/-- The engine after two supersteps. -/
def quadNext : GraphEngine BookState Message :=
  (GraphEngine.load { workerCount := 1 } quadGraph.vertices).supersteps BookState.compute
    (fun _ _ _ => 0) 2

/-- What level `l` tells order `o` in superstep 1. -/
def quadQuote (l o : VertexId) : Message :=
  ⟨l, o, 1, .priceUpdate 149999800 150000200 100 100⟩

/-- The bid and the ask send fills in superstep 2. -/
theorem trade_ids_identify_fills_quad : ∃ trs tr,
    ∃ ws : WorkerId → WorkerNode BookState Message × Phase Message,
      GraphEngine.Execution BookState.compute
        (GraphEngine.load { workerCount := 1 } quadGraph.vertices) trs 2 quadNext ∧
      Run (Interleave (quadNext.WorkerStep BookState.compute 2 fun _ _ => 0))
        (fun i => (quadNext.workers i, .ready)) tr ws ∧
      (sentLog 2 1 trs tr ws).getLast? = some [⟨2, 1, 2, .orderFill 149999900 100 8589934594⟩] ∧
      (sentLog 4 1 trs tr ws).getLast? = some [⟨4, 3, 2, .orderFill 150000100 100 8589934596⟩] ∧
      TradeIds quadGraph.vertices fun vid => sentLog vid 1 trs tr ws := by
  have built : buildOrderBookGraph quad .still = .ok quadGraph := by rfl
  have hnodes : ∀ i, 0 < ((GraphEngine.load { workerCount := 1 } quadGraph.vertices).workers
      i).config.numaNodes := GraphEngine.load_nodes Nat.two_pos quadGraph.vertices
  obtain ⟨trs, exec⟩ := GraphEngine.execution_supersteps BookState.compute (fun _ _ _ => 0)
    (fun i _ => hnodes i) 2
  obtain ⟨s, run, hbid, hask⟩ : ∃ s,
      Run (quadNext.WorkerStep BookState.compute 2 (fun _ _ => 0) 0) (quadNext.workers 0, .ready)
        [.start, .take 2, .compute 2 [quadQuote 1 2], .take 4, .compute 4 [quadQuote 3 4]] s ∧
      s.1.outboxOf 2 = [⟨2, 1, 2, .orderFill 149999900 100 8589934594⟩] ∧
      s.1.outboxOf 4 = [⟨4, 3, 2, .orderFill 150000100 100 8589934596⟩] :=
    ⟨_, .cons ⟨Nat.one_pos, .start Nat.two_pos⟩ <| .cons ⟨Nat.one_pos, .take rfl⟩ <|
      .cons ⟨Nat.one_pos, .compute rfl⟩ <| .cons ⟨Nat.one_pos, .take rfl⟩ <|
      .one ⟨Nat.one_pos, .compute rfl⟩, by decide +kernel, by decide +kernel⟩
  have superstep := Interleave.lift (fun i => (quadNext.workers i, Phase.ready)) run
  have hlast : ∀ vid, waiting vid 1
      (Function.update (fun i => (quadNext.workers i, Phase.ready)) 0 s) = s.1.outboxOf vid := by
    intro vid
    simp [waiting]
  refine ⟨trs, _, _, exec, superstep, ?_, ?_, trade_ids_identify_fills quad .still built (by decide)
    { workerCount := 1 } (.refl _) exec (by decide) superstep⟩
  · rw [sentLog, List.getLast?_concat, hlast, hbid]
    rfl
  · rw [sentLog, List.getLast?_concat, hlast, hask]
    rfl

end OrderBook

end Pregel
