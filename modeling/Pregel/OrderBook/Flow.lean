import Pregel.MessageFlow
import Pregel.Reordering
import Pregel.OrderBook.WellFormed

/-!
The messages of the order book.

Quotes go from the venues to the levels and from there to the orders; reports go from the
levels to the venues, and fills to the levels only. So nothing tells an order that it was
filled, and a market maker hears of nothing but the quotes of single venues.

* `Wired`: what the program needs of the graph, and `wired_vertices`: the builder provides
  it.
* `kept_compute`: a call of `compute`, class by class.
* `message_flow`: in every run with positive bids, orders and market makers get nothing
  but quotes.
-/

namespace Pregel

open Lts
open WorkerNode (Phase Event)
open MarketMakerVertex (IsQuote Calm)

/-- The class of a vertex by its fields. -/
def BookState.type : BookState → VertexType
  | .order _ => .order
  | .priceLevel _ => .priceLevel
  | .venue _ => .venue
  | .marketMaker _ => .marketMaker

namespace OrderBook

/-- The result of a call of `compute` on a venue has a positive bid. -/
def PositiveBid (v : Vertex BookState Message) : Prop := ∀ u, v.state = .venue u → 0 < u.bestBid

/-- A message to an order is a PRICE_UPDATE, and one to a market maker is a quote. -/
def Proper (vs : List (Vertex BookState Message)) (m : Message) : Prop :=
  ∀ u ∈ vs, u.id = m.dst →
    (u.type = .order → m.type = .priceUpdate) ∧ (u.type = .marketMaker → IsQuote m)

/-- The fields of an order and of a market maker that no message ever changes. -/
def Untouched : BookState → Prop
  | .order o => o.filledQty = 0 ∧ o.active = true
  | .marketMaker m => m.Calm
  | _ => True

/-- What the program needs of the graph. -/
structure Wired (vs : List (Vertex BookState Message)) : Prop where
  distinct : (vs.map Vertex.id).Nodup
  typed : ∀ u ∈ vs, u.state.type = u.type
  fresh : ∀ u ∈ vs, u.outbox = [] ∧ Untouched u.state
  orderEdges : ∀ u ∈ vs, u.type = .order → ∀ e ∈ u.edges, ∃ w ∈ vs, w.id = e.dst ∧
    w.type = .priceLevel
  levelEdges : ∀ u ∈ vs, u.type = .priceLevel → ∀ e ∈ u.edges, ∃ w ∈ vs, w.id = e.dst ∧
    (e.type = 1 → w.type = .order) ∧ (e.type = 2 → w.type = .venue)

/-- A vertex somewhere in a run: its fields, and what is in its outbox. -/
structure Kept (vs : List (Vertex BookState Message)) (vid : VertexId)
    (v : Vertex BookState Message) : Prop where
  origin : ∃ u ∈ vs, u.id = vid ∧ u.SameFrame v
  typed : v.state.type = v.type
  untouched : Untouched v.state
  silent : v.type = .marketMaker → v.outbox = []
  proper : ∀ m ∈ v.outbox, Proper vs m

variable {vs loaded : List (Vertex BookState Message)}

/-- The kind of a message is judged by the one vertex that it goes to. -/
theorem proper_of_target (wired : Wired vs) {w : Vertex BookState Message} (hw : w ∈ vs)
    {m : Message} (hdst : w.id = m.dst) (order : w.type = .order → m.type = .priceUpdate)
    (maker : w.type = .marketMaker → IsQuote m) : Proper vs m := by
  intro u hu hid
  obtain rfl := List.inj_on_of_nodup_map wired.distinct hu hw (hid.trans hdst.symm)
  exact ⟨order, maker⟩

/-- A quote may go anywhere. -/
theorem proper_of_isQuote {m : Message} (quote : IsQuote m) : Proper vs m := by
  obtain ⟨bid, ask, bq, aq, hpayload, hprices⟩ := id quote
  exact fun u _ _ => ⟨fun _ => by simp [Message.type, hpayload], fun _ => quote⟩

/-! ### A call of `compute` -/

theorem compute_frame (v : Vertex BookState Message) (inbox : List Message) (step : Superstep) :
    v.SameFrame (BookState.compute v inbox step) := by
  unfold BookState.compute
  split
  next o hstate =>
    obtain ⟨hid, htype, howner, hedges⟩ := OrderVertex.compute_frame (v.map fun _ => o) inbox step
    exact ⟨hid, htype, howner, hedges⟩
  next l hstate =>
    obtain ⟨hid, htype, howner, hedges⟩ :=
      PriceLevelVertex.compute_frame (v.map fun _ => l) inbox step
    exact ⟨hid, htype, howner, hedges⟩
  next u hstate =>
    obtain ⟨hid, htype, howner, hedges⟩ := VenueVertex.compute_frame (v.map fun _ => u) inbox step
    exact ⟨hid, htype, howner, hedges⟩
  next m hstate =>
    obtain ⟨hid, htype, howner, hedges⟩ :=
      MarketMakerVertex.compute_frame (v.map fun _ => m) inbox step
    exact ⟨hid, htype, howner, hedges⟩

/-- `compute` does not change the class of a vertex. -/
theorem compute_type (v : Vertex BookState Message) (inbox : List Message) (step : Superstep) :
    (BookState.compute v inbox step).state.type = v.state.type := by
  cases hstate : v.state <;> simp [BookState.compute, hstate, Vertex.map, BookState.type]

/-- What an order sends are fills, and they go to price levels. -/
theorem order_sends (wired : Wired vs) {u v : Vertex BookState Message} (hu : u ∈ vs)
    (horigin : u.SameFrame v) (order : v.type = .order) {o : OrderVertex}
    (hstate : v.state = .order o) {inbox : List Message} {step : Superstep} {m : Message}
    (hm : m ∈ (BookState.compute v inbox step).outbox) (hnew : m ∉ v.outbox) :
    m.type = .orderFill ∧ ∃ w ∈ vs, w.id = m.dst ∧ w.type = .priceLevel := by
  obtain ⟨-, -, -, houtbox⟩ := OrderVertex.compute_spec (v.map fun _ => o) inbox step
  have hcompute : (BookState.compute v inbox step).outbox =
      (OrderVertex.compute (v.map fun _ => o) inbox step).outbox := by
    simp only [BookState.compute, hstate]
    rfl
  rw [hcompute, houtbox, List.mem_append] at hm
  have hsent := hm.resolve_left hnew
  split at hsent
  · obtain ⟨e, he, rfl⟩ := List.mem_map.mp hsent
    have hedge : e ∈ u.edges := horigin.edges ▸ he
    exact ⟨rfl, wired.orderEdges u hu (horigin.type.symm.trans order) e hedge⟩
  · cases hsent

section Compute

variable {vid : VertexId} {v : Vertex BookState Message} {inbox : List Message} {step : Superstep}
  (wired : Wired vs) (kept : Kept vs vid v) (proper : ∀ m ∈ inbox, Proper vs m ∧ m.dst = vid)

include kept in
/-- What is left to show of a call of `compute`. -/
theorem kept_of_sent (untouched : Untouched (BookState.compute v inbox step).state)
    (silent : v.type = .marketMaker → (BookState.compute v inbox step).outbox = [])
    (sent : ∀ m ∈ (BookState.compute v inbox step).outbox, m ∉ v.outbox → Proper vs m) :
    Kept vs vid (BookState.compute v inbox step) := by
  have hframe := compute_frame v inbox step
  obtain ⟨u, hu, hid, horigin⟩ := kept.origin
  refine ⟨⟨u, hu, hid, horigin.trans hframe⟩, ?_, untouched, ?_, fun m hm => ?_⟩
  · rw [compute_type, kept.typed, hframe.type]
  · rw [hframe.type]
    exact silent
  · by_cases hold : m ∈ v.outbox
    · exact kept.proper m hold
    · exact sent m hm hold

include wired kept proper

theorem kept_order {o : OrderVertex} (hstate : v.state = .order o) :
    Kept vs vid (BookState.compute v inbox step) := by
  have htype : v.type = .order := by rw [← kept.typed, hstate]; rfl
  have hcompute : BookState.compute v inbox step =
      (OrderVertex.compute (v.map fun _ => o) inbox step).map .order := by
    simp only [BookState.compute, hstate]
  obtain ⟨u, hu, hid, horigin⟩ := kept.origin
  obtain ⟨⟨n, hspec⟩, -⟩ := OrderVertex.compute_spec (v.map fun _ => o) inbox step
  have hquotes : ∀ m ∈ inbox, m.type = .priceUpdate := fun m hm =>
    ((proper m hm).1 u hu (hid.trans (proper m hm).2.symm)).1 (horigin.type.symm.trans htype)
  obtain ⟨hfilled, hactive⟩ := OrderVertex.receive_of_quotes o hquotes
  have huntouched : o.filledQty = 0 ∧ o.active = true := by
    have h := kept.untouched
    rwa [hstate] at h
  apply kept_of_sent kept
  · rw [hcompute]
    show (OrderVertex.compute _ inbox step).state.filledQty = 0 ∧
      (OrderVertex.compute _ inbox step).state.active = true
    rw [hspec]
    exact ⟨hfilled.trans huntouched.1, hactive.trans huntouched.2⟩
  · rw [htype]
    exact fun h => by cases h
  · intro m hm hnew
    obtain ⟨-, w, hw, hdst, hlevel⟩ := order_sends wired hu horigin htype hstate hm hnew
    exact proper_of_target wired hw hdst (by simp [hlevel]) (by simp [hlevel])

omit proper in
theorem kept_priceLevel {l : PriceLevelVertex} (hstate : v.state = .priceLevel l) :
    Kept vs vid (BookState.compute v inbox step) := by
  have htype : v.type = .priceLevel := by rw [← kept.typed, hstate]; rfl
  have hcompute : BookState.compute v inbox step =
      (PriceLevelVertex.compute (v.map fun _ => l) inbox step).map .priceLevel := by
    simp only [BookState.compute, hstate]
  obtain ⟨u, hu, hid, horigin⟩ := kept.origin
  apply kept_of_sent kept
  · rw [hcompute]
    trivial
  · rw [htype]
    exact fun h => by cases h
  · intro m hm hnew
    rw [hcompute] at hm
    obtain hold | ⟨hprice, hover⟩ := PriceLevelVertex.mem_compute_outbox hm
    · exact absurd hold hnew
    · rcases hover with ⟨e, he, hone, hdst⟩ | ⟨e, he, htwo, hdst⟩
      · obtain ⟨w, hw, hid', horder, -⟩ := wired.levelEdges u hu (horigin.type.symm.trans htype) e
          (horigin.edges ▸ he)
        exact proper_of_target wired hw (hid'.trans hdst.symm) (fun _ => hprice)
          (by simp [horder hone])
      · obtain ⟨w, hw, hid', -, hvenue⟩ := wired.levelEdges u hu (horigin.type.symm.trans htype) e
          (horigin.edges ▸ he)
        exact proper_of_target wired hw (hid'.trans hdst.symm) (fun _ => hprice)
          (by simp [hvenue htwo])

omit wired proper in
theorem kept_venue {u : VenueVertex} (hstate : v.state = .venue u)
    (positive : PositiveBid (BookState.compute v inbox step)) :
    Kept vs vid (BookState.compute v inbox step) := by
  have htype : v.type = .venue := by rw [← kept.typed, hstate]; rfl
  have hcompute : BookState.compute v inbox step =
      (VenueVertex.compute (v.map fun _ => u) inbox step).map .venue := by
    simp only [BookState.compute, hstate]
  apply kept_of_sent kept
  · rw [hcompute]
    trivial
  · rw [htype]
    exact fun h => by cases h
  · intro m hm hnew
    rw [hcompute] at hm positive
    change m ∈ (VenueVertex.compute _ inbox step).outbox at hm
    rw [VenueVertex.compute_outbox, List.mem_append] at hm
    obtain ⟨e, -, rfl⟩ := List.mem_map.mp (hm.resolve_left hnew)
    exact proper_of_isQuote ⟨_, _, _, _, rfl, positive _ rfl,
      VenueVertex.compute_bid_lt_ask (v.map fun _ => u) inbox step⟩

omit wired in
theorem kept_marketMaker {m : MarketMakerVertex} (hstate : v.state = .marketMaker m) :
    Kept vs vid (BookState.compute v inbox step) := by
  have htype : v.type = .marketMaker := by rw [← kept.typed, hstate]; rfl
  have hcompute : BookState.compute v inbox step =
      (MarketMakerVertex.compute (v.map fun _ => m) inbox step).map .marketMaker := by
    simp only [BookState.compute, hstate]
  obtain ⟨u, hu, hid, horigin⟩ := kept.origin
  have hquotes : ∀ msg ∈ inbox, IsQuote msg := fun msg hmsg =>
    ((proper msg hmsg).1 u hu (hid.trans (proper msg hmsg).2.symm)).2
      (horigin.type.symm.trans htype)
  have hcalm : m.Calm := by
    have h := kept.untouched
    rwa [hstate] at h
  have hread := hcalm.readInbox hquotes
  have houtbox : (BookState.compute v inbox step).outbox = [] := by
    rw [hcompute]
    show (MarketMakerVertex.compute _ inbox step).outbox = []
    rw [MarketMakerVertex.compute_outbox]
    show v.outbox ++ _ = []
    rw [kept.silent htype]
    simp [Vertex.map, hread.signal]
  refine kept_of_sent kept ?_ (fun _ => houtbox) ?_
  · rw [hcompute]
    show (MarketMakerVertex.compute _ inbox step).state.Calm
    rw [MarketMakerVertex.compute_state_of_silent hread.signal]
    exact hread
  · rw [houtbox]
    exact fun msg hmsg => absurd hmsg List.not_mem_nil

/-- **A call of `compute` keeps to the flow of messages.** -/
theorem kept_compute (positive : PositiveBid (BookState.compute v inbox step)) :
    Kept vs vid (BookState.compute v inbox step) := by
  cases hstate : v.state with
  | order o => exact kept_order wired kept proper hstate
  | priceLevel l => exact kept_priceLevel wired kept hstate
  | venue u => exact kept_venue kept hstate positive
  | marketMaker m => exact kept_marketMaker kept proper hstate

end Compute

/-- The program of the order book meets the rule for the flow of messages. -/
theorem flowRule (wired : Wired vs) :
    FlowRule BookState.compute PositiveBid (Proper vs) (Kept vs) where
  sends _ _ kept := kept.proper
  wakes _ _ kept := ⟨kept.origin.imp fun _ h => ⟨h.1, h.2.1, h.2.2.trans ⟨rfl, rfl, rfl, rfl⟩⟩,
    kept.typed, kept.untouched, kept.silent, kept.proper⟩
  collected _ _ kept := ⟨kept.origin.imp fun _ h => ⟨h.1, h.2.1, h.2.2.trans ⟨rfl, rfl, rfl, rfl⟩⟩,
    kept.typed, kept.untouched, fun _ => rfl, fun _ hm => absurd hm List.not_mem_nil⟩
  computes _ _ _ _ kept proper positive := kept_compute wired kept proper positive

/-! ### The graph of the builder -/

open Layout in
theorem wired_vertices (p : OrderBookGraphParams) (d : Draws) : Wired (vertices p d) where
  distinct := ids_perm.nodup_iff.mpr List.nodup_range
  typed u hu := by
    rcases mem_vertices.mp hu with ⟨v, hv, rfl⟩ | ⟨j, hj, o, ho, rfl⟩ | ⟨j, hj, rfl⟩ | ⟨m, hm, rfl⟩
    · rfl
    · rfl
    · rfl
    · rfl
  fresh u hu := by
    rcases mem_vertices.mp hu with ⟨v, hv, rfl⟩ | ⟨j, hj, o, ho, rfl⟩ | ⟨j, hj, rfl⟩ | ⟨m, hm, rfl⟩
    · exact ⟨rfl, trivial⟩
    · exact ⟨rfl, rfl, rfl⟩
    · exact ⟨rfl, trivial⟩
    · exact ⟨rfl, rfl, rfl, rfl, rfl, Int.le_refl 0⟩
  orderEdges u hu htype e he := by
    rcases mem_vertices.mp hu with ⟨v, hv, rfl⟩ | ⟨j, hj, o, ho, rfl⟩ | ⟨j, hj, rfl⟩ | ⟨m, hm, rfl⟩
    · cases htype
    · obtain rfl := List.mem_singleton.mp he
      exact ⟨_, mem_vertices.mpr (.inr (.inr (.inl ⟨j, hj, rfl⟩))), rfl, rfl⟩
    · cases htype
    · cases htype
  levelEdges u hu htype e he := by
    rcases mem_vertices.mp hu with ⟨v, hv, rfl⟩ | ⟨j, hj, o, ho, rfl⟩ | ⟨j, hj, rfl⟩ | ⟨m, hm, rfl⟩
    · cases htype
    · cases htype
    · change e ∈ levelEdges p (orders p) j at he
      simp only [levelEdges, List.mem_cons, List.mem_map, List.mem_range] at he
      rcases he with rfl | ⟨o, ho, rfl⟩
      · exact ⟨_, mem_vertices.mpr (.inl ⟨levelVenue p j, levelVenue_lt hj, rfl⟩), rfl,
          fun h => absurd (show (2 : UInt8) = 1 from h) (by decide), fun _ => rfl⟩
      · exact ⟨_, mem_vertices.mpr (.inr (.inl ⟨j, hj, o, ho, rfl⟩)), rfl, fun _ => rfl,
          fun h => absurd (show (1 : UInt8) = 2 from h) (by decide)⟩
    · cases htype

/-- What the builder makes, whatever the parameters. -/
theorem wired_of_run {p : OrderBookGraphParams} {d : Draws} {b : Builder}
    (hrun : Builder.run p d = .ok b) : Wired b.vertices := by
  rcases Layout.vertices_of_run hrun with hvertices | ⟨hvertices, -⟩
  · rw [hvertices]
    exact ⟨List.nodup_nil, by simp, by simp, by simp, by simp⟩
  · rw [hvertices]
    exact wired_vertices p d

/-- A loaded vertex is one of the graph, in whichever order the graph was loaded. -/
theorem mem_of_load_lookup (wired : Wired vs) (order : loaded.Perm vs) {config : EngineConfig}
    {i : WorkerId} {vid : VertexId} {v : Vertex BookState Message}
    (hv : ((GraphEngine.load config loaded).workers i).vertices.lookup vid = some v) :
    v ∈ vs ∧ v.id = vid := by
  have hdistinct : (loaded.map Vertex.id).Nodup := (order.map _).nodup_iff.mpr wired.distinct
  rw [GraphEngine.load_lookup] at hv
  split at hv
  · rw [GraphEngine.lastWith_eq_find hdistinct, Option.or_none] at hv
    exact ⟨order.mem_iff.mp (List.mem_of_find?_eq_some hv), by simpa using List.find?_some hv⟩
  · cases hv

/-- A loaded graph has no message anywhere. -/
theorem flows_load (wired : Wired vs) (order : loaded.Perm vs) (config : EngineConfig)
    (i : WorkerId) :
    Flows (Proper vs) (Kept vs) ((GraphEngine.load config loaded).workers i, .ready) := by
  have hworker := GraphEngine.load_worker config loaded i
  refine ⟨?_, ?_, fun vid v hv => ?_, fun _ _ _ hphase => by cases hphase⟩
  · rw [hworker]
    exact MessageBus.within_new _ _ _
  · rw [hworker]
    exact fun vid m hm => absurd hm List.not_mem_nil
  · obtain ⟨hmem, hid⟩ := mem_of_load_lookup wired order hv
    obtain ⟨houtbox, huntouched⟩ := wired.fresh v hmem
    refine ⟨⟨v, hmem, hid, .refl v⟩, wired.typed v hmem, huntouched, fun _ => houtbox, ?_⟩
    rw [houtbox]
    exact fun _ hm => absurd hm List.not_mem_nil

/-- Orders and market makers have only ever got quotes: in the calls of `compute` so far,
in the inboxes that wait, and by what they have become. -/
structure OnlyQuotes (vs : List (Vertex BookState Message))
    (trs : List (List (WorkerId × Event Message)))
    (ws : WorkerId → WorkerNode BookState Message × Phase Message) : Prop where
  delivered : ∀ tr ∈ trs, ∀ i vid inbox, (i, Event.compute vid inbox) ∈ tr →
    ∀ u ∈ vs, u.id = vid → ∀ m ∈ inbox,
      (u.type = .order → m.type = .priceUpdate) ∧ (u.type = .marketMaker → IsQuote m)
  waiting : ∀ i, ∀ u ∈ vs, ∀ m ∈ (ws i).1.inboxOf u.id,
    (u.type = .order → m.type = .priceUpdate) ∧ (u.type = .marketMaker → IsQuote m)
  orders : ∀ u ∈ vs, u.type = .order → ∀ i v, (ws i).1.vertices.lookup u.id = some v →
    ∃ o, v.state = .order o ∧ o.filledQty = 0 ∧ o.active = true
  makers : ∀ u ∈ vs, u.type = .marketMaker → ∀ i v, (ws i).1.vertices.lookup u.id = some v →
    ∃ m, v.state = .marketMaker m ∧ m.netPosition = 0 ∧ m.pnlFixed = 0 ∧ m.fillCount = 0 ∧
      m.arbSignalsSent = 0
  /-- A market maker has nothing in its outbox, and nothing was ever collected from it. -/
  silent : ∀ u ∈ vs, u.type = .marketMaker →
    (∀ i v, (ws i).1.vertices.lookup u.id = some v → v.outbox = []) ∧
    ∀ tr ∈ trs, ∀ i boxes, (i, Event.finish boxes) ∈ tr → ∀ b ∈ boxes, b.1 = u.id → b.2 = []

theorem Kept.type_eq {vid : VertexId} {v : Vertex BookState Message} (wired : Wired vs)
    (kept : Kept vs vid v) {u : Vertex BookState Message} (hu : u ∈ vs) (hid : u.id = vid) :
    v.state.type = u.type := by
  obtain ⟨w, hw, hwid, horigin⟩ := kept.origin
  obtain rfl := List.inj_on_of_nodup_map wired.distinct hu hw (hid.trans hwid.symm)
  exact kept.typed.trans horigin.type

/-- Every message and every vertex in order. -/
theorem onlyQuotes_of_flows (wired : Wired vs) {trs : List (List (WorkerId × Event Message))}
    {ws : WorkerId → WorkerNode BookState Message × Phase Message}
    (flows : ∀ i, Flows (Proper vs) (Kept vs) (ws i))
    (events : ∀ tr ∈ trs, ∀ l ∈ tr, EventFlows (Proper vs) (Kept vs) l.2) : OnlyQuotes vs trs ws where
  delivered tr htr i vid inbox hmem u hu hid m hm := by
    obtain ⟨hproper, hdst⟩ := events tr htr _ hmem m hm
    exact hproper u hu (hid.trans hdst.symm)
  waiting i u hu m hm := by
    obtain ⟨hproper, hdst⟩ := (flows i).inboxes u.id m hm
    exact hproper u hu hdst.symm
  orders u hu htype i v hv := by
    have hkept := (flows i).vertices u.id v hv
    have hstate := (hkept.type_eq wired hu rfl).trans htype
    have huntouched := hkept.untouched
    cases hcase : v.state with
    | order o =>
        rw [hcase] at huntouched
        exact ⟨o, rfl, huntouched⟩
    | _ =>
        rw [hcase] at hstate
        cases hstate
  makers u hu htype i v hv := by
    have hkept := (flows i).vertices u.id v hv
    have hstate := (hkept.type_eq wired hu rfl).trans htype
    have huntouched := hkept.untouched
    cases hcase : v.state with
    | marketMaker m =>
        rw [hcase] at huntouched
        exact ⟨m, rfl, huntouched.netPosition, huntouched.pnlFixed, huntouched.fillCount,
          huntouched.arbSignalsSent⟩
    | _ =>
        rw [hcase] at hstate
        cases hstate
  silent u hu htype := by
    have hsilent : ∀ vid v, Kept vs vid v → u.id = vid → v.outbox = [] := fun vid v hkept hid =>
      hkept.silent (hkept.typed.symm.trans ((hkept.type_eq wired hu hid).trans htype))
    refine ⟨fun i v hv => hsilent u.id v ((flows i).vertices u.id v hv) rfl, ?_⟩
    intro tr htr i boxes hmem b hb hid
    obtain ⟨v, hkept, houtbox⟩ := events tr htr _ hmem b hb
    rw [← houtbox]
    exact hsilent b.1 v hkept hid.symm

/-- **The flow of messages.** Take any parameters and draws, the graph loaded into an engine
with its vertex maps in any order, any run of it over any number of supersteps in which the
venues quote positive bids, and any moment of the superstep after it: orders have only got
PRICE_UPDATEs and market makers only quotes, no order is filled or inactive, and no market
maker has traded or sent anything. -/
theorem message_flow (p : OrderBookGraphParams) (d : Draws) (positive : 1 ≤ p.workerCount)
    {g : GraphData} (built : buildOrderBookGraph p d = .ok g) (config : EngineConfig)
    {e₀ : GraphEngine BookState Message}
    (order : (GraphEngine.load config g.vertices).Reordered e₀)
    {trs : List (List (WorkerId × Event Message))} {k : Nat} {e : GraphEngine BookState Message}
    (exec : GraphEngine.CheckedExecution PositiveBid BookState.compute e₀ trs k e)
    {timing : WorkerId → WorkerId → Nat} {tr : List (WorkerId × Event Message)}
    {ws : WorkerId → WorkerNode BookState Message × Phase Message}
    (superstep : Run (Interleave (e.CheckedStep PositiveBid BookState.compute k timing))
      (fun i => (e.workers i, .ready)) tr ws) :
    OnlyQuotes g.vertices (trs ++ [tr]) ws := by
  obtain ⟨b, hrun, hvertices, -⟩ := Layout.run_eq d (Layout.workers_ne_zero positive)
  obtain rfl : b.toGraphData = g := by
    rw [buildOrderBookGraph_eq hrun] at built
    exact Except.ok.inj built
  rw [hvertices] at order ⊢
  have hwired := wired_vertices p d
  obtain ⟨loaded, perm, rfl⟩ := GraphEngine.exists_load_of_reordered hwired.distinct order
  obtain ⟨hflows, hevents⟩ := exec.flows (flowRule hwired) (flows_load hwired perm config)
  obtain ⟨hduring, hlast⟩ := GraphEngine.flows_during (flowRule hwired) hflows superstep
  apply onlyQuotes_of_flows hwired hduring
  intro tr' htr'
  rcases List.mem_append.mp htr' with hmem | hmem
  · exact hevents tr' hmem
  · rw [List.mem_singleton.mp hmem]
    exact hlast

/-! ### One venue and one market maker -/

/-- One venue and one market maker on one worker. -/
def duo : OrderBookGraphParams where
  venueCount := 1
  priceLevels := 0
  ordersPerLevel := 0
  marketMakerCount := 1
  workerCount := 1

def duoGraph : GraphData where
  vertices := Layout.vertices duo .still
  totalEdges := 2
  venueCount := 1
  mmCount := 1

def duoEngine : GraphEngine BookState Message :=
  GraphEngine.load { workerCount := 1 } duoGraph.vertices

/-- The worker after superstep 0. -/
def duoFirst : WorkerNode BookState Message :=
  ([0, 1].foldl (WorkerNode.runTask BookState.compute 0)
    ((duoEngine.workers 0).receive fun _ => 0).wake).finish duoEngine.pmap

def duoNext : GraphEngine BookState Message :=
  { duoEngine with workers := Function.update duoEngine.workers 0 duoFirst }

/-- What the venue tells the market maker in superstep 0. -/
def duoQuote : Message := ⟨0, 1, 0, .priceUpdate 149999800 150000200 100 100⟩

theorem duo_first : Run (duoEngine.CheckedStep PositiveBid BookState.compute 0 (fun _ _ => 0) 0)
    (duoEngine.workers 0, .ready)
    [.start, .take 0, .compute 0 [], .take 1, .compute 1 [], .finish [(1, []), (0, [duoQuote])]]
    (duoFirst, .flushed) := by
  have hfinish : ∀ {n n' : WorkerNode BookState Message} {ts boxes}, (∀ vid, ts vid = .none) →
      n.outboxes = boxes → n.finish duoEngine.pmap = n' →
      WorkerNode.Step duoEngine.pmap BookState.compute 0 (fun _ => 0) (n, .computing ts)
        (.finish boxes) (n', .flushed) := by
    rintro n n' ts boxes joined rfl rfl
    exact .finish joined
  refine .cons (.of_step Nat.one_pos (.start Nat.two_pos) fun _ _ _ h => by cases h) ?_
  refine .cons (.of_step Nat.one_pos (.take rfl) fun _ _ _ h => by cases h) ?_
  refine .cons (.of_step Nat.one_pos (.compute rfl) ?_) ?_
  · intro vid inbox v hl hv u hu
    cases hl
    cases hv
    cases hu
    decide
  refine .cons (.of_step Nat.one_pos (.take rfl) fun _ _ _ h => by cases h) ?_
  refine .cons (.of_step Nat.one_pos (.compute rfl) ?_) ?_
  · intro vid inbox v hl hv u hu
    cases hl
    cases hv
    cases hu
  refine .one (.of_step Nat.one_pos (hfinish ?_ ?_ ?_) fun _ _ _ h => by cases h)
  · rintro (_ | _ | vid) <;> rfl
  · decide +kernel
  · rfl

theorem duo_second : ∃ s, Run (duoNext.CheckedStep PositiveBid BookState.compute 1 (fun _ _ => 0) 0)
    (duoNext.workers 0, .ready) [.start, .take 1, .compute 1 [duoQuote]] s := by
  have hpositive : ∀ vid inbox v, (Event.compute 1 [duoQuote] : Event Message) = .compute vid inbox →
      (((duoFirst.receive fun _ => 0).wake.eraseInbox 1).runCompute BookState.compute 1 1
        [duoQuote]).vertices.lookup vid = some v → PositiveBid v := by
    intro vid inbox v hl hv u hu
    cases hl
    cases hv
    cases hu
  exact ⟨_, .cons (.of_step Nat.one_pos (.start Nat.two_pos) fun _ _ _ h => by cases h) <|
    .cons (.of_step Nat.one_pos (.take rfl) fun _ _ _ h => by cases h) <|
    .one (.of_step Nat.one_pos (.compute rfl) hpositive)⟩

/-- In superstep 1 the market maker gets the quote of superstep 0. -/
theorem message_flow_duo : ∃ trs tr ws,
    GraphEngine.CheckedExecution PositiveBid BookState.compute
      (GraphEngine.load { workerCount := 1 } duoGraph.vertices) trs 1 duoNext ∧
    Run (Interleave (duoNext.CheckedStep PositiveBid BookState.compute 1 fun _ _ => 0))
      (fun i => (duoNext.workers i, .ready)) tr ws ∧
    (0, Event.compute 1 [duoQuote]) ∈ tr ∧ OnlyQuotes duoGraph.vertices (trs ++ [tr]) ws := by
  have built : buildOrderBookGraph duo .still = .ok duoGraph := by rfl
  have exec : GraphEngine.CheckedExecution PositiveBid BookState.compute
      (GraphEngine.load { workerCount := 1 } duoGraph.vertices) _ 1 duoNext :=
    .one ⟨rfl, _, GraphEngine.checkedSuperstep_single (by rfl) duo_first⟩
  obtain ⟨s, second⟩ := duo_second
  have run := Interleave.lift (fun i => (duoNext.workers i, Phase.ready)) second
  exact ⟨_, _, _, exec, run, by simp, message_flow duo .still (by decide) built
    { workerCount := 1 } (.refl _) exec run⟩

end OrderBook

end Pregel
