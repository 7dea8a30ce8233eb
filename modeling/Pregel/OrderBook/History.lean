import Pregel.OrderBook.Provenance
import Pregel.OrderBook.Partition
import Pregel.History

/-!
The vertices of the order book over a run of the engine.

`compute` of the four classes does not look at the halt flag. So a vertex of the engine is the
one that its inboxes make of it, and what is proved of a vertex that is fed holds in the
engine.

* `fed_of_execution`: the vertices of a built graph after a run.
* `level_ledger`: the quantity of a level is what the fills that reached it leave of it.
-/

namespace Pregel

open Lts
open WorkerNode (Phase Event)
open Layout

namespace OrderBook

/-! ### The classes, fed -/

theorem haltBlind_order : GraphEngine.HaltBlind OrderVertex.compute := by
  intro v inbox k
  simp only [OrderVertex.compute, Vertex.sendAll_eq, apply_ite Vertex.wakeUp]
  rfl

theorem haltBlind_priceLevel : GraphEngine.HaltBlind PriceLevelVertex.compute := by
  intro v inbox k
  rw [PriceLevelVertex.compute_eq, PriceLevelVertex.compute_eq]
  rfl

theorem haltBlind_venue : GraphEngine.HaltBlind VenueVertex.compute := by
  intro v inbox k
  simp only [VenueVertex.compute, Vertex.sendAll_eq]
  rfl

theorem sendSignal_wakeUp (v : Vertex MarketMakerVertex Message) (k : Superstep) :
    MarketMakerVertex.sendSignal v.wakeUp k = (MarketMakerVertex.sendSignal v k).wakeUp := by
  have hstate : v.wakeUp.state = v.state := rfl
  unfold MarketMakerVertex.sendSignal
  rw [hstate]
  cases v.state.signal with
  | none => rfl
  | some spread =>
      simp only [Vertex.sendAll_eq]
      rfl

theorem haltBlind_marketMaker : GraphEngine.HaltBlind MarketMakerVertex.compute := by
  intro v inbox k
  have hread : { v.wakeUp with state := v.wakeUp.state.readInbox inbox } =
      Vertex.wakeUp { v with state := v.state.readInbox inbox } := rfl
  simp only [MarketMakerVertex.compute, hread, sendSignal_wakeUp, apply_ite Vertex.wakeUp]
  rfl

theorem haltBlind_map {τ : Type} {compute : Compute τ Message} (blind : GraphEngine.HaltBlind compute)
    (wrap : τ → BookState) (v : Vertex BookState Message) (s : τ) (inbox : List Message)
    (k : Superstep) :
    ((compute (v.wakeUp.map fun _ => s) inbox k).map wrap).wakeUp =
      ((compute (v.map fun _ => s) inbox k).map wrap).wakeUp :=
  congrArg (Vertex.map wrap) (blind (v.map fun _ => s) inbox k)

theorem haltBlind_compute : GraphEngine.HaltBlind BookState.compute := by
  intro v inbox k
  have hstate : v.wakeUp.state = v.state := rfl
  unfold BookState.compute
  rw [hstate]
  cases v.state with
  | order o => exact haltBlind_map haltBlind_order .order v o inbox k
  | priceLevel l => exact haltBlind_map haltBlind_priceLevel .priceLevel v l inbox k
  | venue u => exact haltBlind_map haltBlind_venue .venue v u inbox k
  | marketMaker m => exact haltBlind_map haltBlind_marketMaker .marketMaker v m inbox k

section Feed

variable {τ : Type} {wrap : τ → BookState} {compute : Compute τ Message}

/-- A class is fed as the vertex of the order book that it is. -/
theorem feed_map (class_ : ∀ w inbox k,
      BookState.compute (w.map wrap) inbox k = (compute w inbox k).map wrap)
    (w : Vertex τ Message) (inputs : List (List Message × Superstep)) :
    (w.map wrap).feed BookState.compute inputs =
      ((w.feed compute inputs).1, (w.feed compute inputs).2.map wrap) := by
  induction inputs generalizing w with
  | nil => rfl
  | cons input inputs ih =>
      have hnext : (BookState.compute (w.map wrap) input.1 input.2).clearOutbox =
          (compute w input.1 input.2).clearOutbox.map wrap := by
        rw [class_]
        rfl
      change ((BookState.compute (w.map wrap) input.1 input.2).outbox :: _, _) = _
      rw [hnext, ih, class_]
      rfl

/-- So is a vertex of the engine. -/
theorem fed_class (class_ : ∀ w inbox k,
      BookState.compute (w.map wrap) inbox k = (compute w inbox k).map wrap)
    {w : Vertex τ Message} {inputs : List (List Message × Superstep)} {sent : List Message}
    {v : Vertex BookState Message}
    (fed : GraphEngine.Fed BookState.compute (w.map wrap) inputs sent v) :
    v.state = wrap (w.feed compute inputs).2.state ∧ sent = (w.feed compute inputs).1.flatten := by
  have hfeed := feed_map class_ w inputs
  have hstate := congrArg Vertex.state fed.state
  have hsent := fed.sent
  rw [hfeed] at hstate hsent
  exact ⟨hstate, hsent⟩

end Feed

theorem compute_priceLevel (w : Vertex PriceLevelVertex Message) (inbox : List Message)
    (k : Superstep) : BookState.compute (w.map .priceLevel) inbox k =
      (PriceLevelVertex.compute w inbox k).map .priceLevel := rfl

section Runs

variable {p : OrderBookGraphParams} {d : Draws} {config : EngineConfig}
  {loaded : List (Vertex BookState Message)}
  {trs : List (List (WorkerId × Event Message))} {k : Nat} {e e₁ : GraphEngine BookState Message}
  {timing : WorkerId → WorkerId → Nat} {tr : List (WorkerId × Event Message)}

theorem lookup_vertices (order : loaded.Perm (vertices p d)) (config : EngineConfig)
    {u : Vertex BookState Message} (hu : u ∈ vertices p d) :
    ((GraphEngine.load config loaded).workers (u.id % config.workerCount)).vertices.lookup
      u.id = some u := by
  rw [lookup_load config ((order.map _).trans ids_perm) (order.mem_iff.mpr hu), if_pos rfl]

theorem mem_load_vertices (order : loaded.Perm (vertices p d)) (config : EngineConfig)
    {u : Vertex BookState Message} (hu : u ∈ vertices p d) :
    u.id ∈ ((GraphEngine.load config loaded).workers (u.id % config.workerCount)).vertices :=
  (GraphEngine.mem_load _ _ _ _).mpr ⟨rfl, u, order.mem_iff.mpr hu, rfl⟩

/-- **The vertices of a built graph after a run** are what their inboxes make of them. -/
theorem fed_of_execution (order : loaded.Perm (vertices p d))
    (exec : GraphEngine.Execution BookState.compute (GraphEngine.load config loaded) trs k e)
    {u : Vertex BookState Message} (hu : u ∈ vertices p d) :
    ∃ v, (e.workers (u.id % config.workerCount)).vertices.lookup u.id = some v ∧
      GraphEngine.Fed BookState.compute u (inputsOf u.id trs) (trs.flatMap (sentBy u.id)) v := by
  exact GraphEngine.Fed.of_execution haltBlind_compute exec
    (GraphEngine.own_load (mem_load_vertices order config hu)) (lookup_vertices order config hu)
    ((wired_vertices p d).fresh u hu).1

/-! ### The quantity of a level -/

open PriceLevelVertex (total fills countAfter)

/-- The fills that the orders of level `j` send to it in a superstep, as far as they get
there on `W` workers: those of every `W`-th order. -/
def filledIn (p : OrderBookGraphParams) (W j : Nat) (tr : List (WorkerId × Event Message)) :
    List UInt64 :=
  ((List.range (orders p)).filter fun o => (1 + o) % W = 0).flatMap fun o =>
    fills (sentBy (orderId p j o) tr)

theorem fills_flatMap {α : Type} (f : α → List Message) (xs : List α) :
    fills (xs.flatMap f) = xs.flatMap fun x => fills (f x) :=
  List.filterMap_flatMap

theorem fills_eq_nil {ms : List Message} (none : ∀ m ∈ ms, m.type ≠ .orderFill) :
    fills ms = [] := by
  apply List.filterMap_eq_nil_iff.mpr
  intro m hm
  have htype := none m hm
  unfold PriceLevelVertex.fillQty
  cases hpayload : m.payload with
  | orderFill => simp [Message.type, hpayload] at htype
  | _ => rfl

/-- **What reaches a level in a superstep** is what its orders on its worker send. -/
theorem fills_sentTo (order : loaded.Perm (vertices p d))
    (exec : GraphEngine.Execution BookState.compute (GraphEngine.load config loaded) trs k e)
    (run : GraphEngine.SuperstepRun BookState.compute k timing e tr e₁) {j : Nat}
    (hj : j < levels p) (hi : levelId p j % config.workerCount < config.workerCount) :
    (fills (GraphEngine.sentTo (levelId p j % config.workerCount) (levelId p j) tr)).Perm
      (filledIn p config.workerCount j tr) := by
  set i := levelId p j % config.workerCount with hidef
  have hwired := wired_vertices p d
  set f : VertexId → List UInt64 := fun x =>
    fills ((sentBy x tr).filter fun m => dst m = levelId p j) with hf
  set own := ((List.range (orders p)).filter fun o => (1 + o) % config.workerCount = 0).map
    (orderId p j) with hown
  -- the orders on the worker of the level are among its vertices
  have hsubset : own ⊆ (e.workers i).vertices.keys := by
    intro x hx
    obtain ⟨o, ho, rfl⟩ := List.mem_map.mp hx
    obtain ⟨ho, hnumber⟩ := List.mem_filter.mp ho
    have hmem : orderVertex p d j o ∈ vertices p d :=
      mem_vertices.mpr (.inr (.inl ⟨j, hj, o, List.mem_range.mp ho, rfl⟩))
    apply AList.mem_keys.mp
    rw [GraphEngine.mem_execution exec, GraphEngine.mem_load]
    exact ⟨(orderId_mod_iff p j o _).mpr (of_decide_eq_true hnumber), _, order.mem_iff.mpr hmem, rfl⟩
  have hnodup : own.Nodup := by
    apply List.Nodup.map_on _ (List.nodup_range.filter _)
    intro o _ o' _ hsame
    exact Nat.add_left_cancel hsame
  -- the others send it no fills
  have hrest : ∀ x ∈ (e.workers i).vertices.keys, x ∉ own → f x = [] := by
    intro x hx hnot
    apply fills_eq_nil
    intro m hm hfill
    obtain ⟨hm, hdst⟩ := List.mem_filter.mp hm
    obtain ⟨i', boxes, hfinish, box, hbox, hid, hmbox⟩ := mem_sentBy.mp hm
    obtain ⟨-, hfrom⟩ := home_of_collected hwired order exec run hfinish hbox
    obtain ⟨-, u, hu, huid, htype, edge, hedge, htarget⟩ := hfrom m hmbox
    obtain ⟨hsrc, -⟩ := overEdges_sentBy hwired order exec run x m hm
    rw [hfill] at htype
    obtain ⟨o, ho, rfl⟩ :=
      order_of_fill hu htype hedge (htarget.trans (of_decide_eq_true hdst))
    obtain rfl : orderId p j o = x := huid.trans hsrc
    have hhome := home_load ((GraphEngine.mem_execution exec).mp (AList.mem_keys.mpr hx))
    apply hnot
    refine List.mem_map.mpr ⟨o, List.mem_filter.mpr ⟨List.mem_range.mpr ho, ?_⟩, rfl⟩
    exact decide_eq_true ((orderId_mod_iff p j o _).mp hhome)
  have hkeys : (e.workers i).vertices.keys.Nodup := (e.workers i).vertices.nodupKeys
  rw [GraphEngine.sentTo_eq_flatMap exec run hi, fills_flatMap, filledIn]
  refine (List.perm_flatMap_of_subset hkeys hnodup hsubset f hrest).trans (.of_eq ?_)
  rw [hown, List.flatMap_map]
  apply List.flatMap_congr
  intro o ho
  have ho := List.mem_range.mp (List.mem_filter.mp ho).1
  have hall : (sentBy (orderId p j o) tr).filter (fun m => dst m = levelId p j) =
      sentBy (orderId p j o) tr :=
    List.filter_eq_self.mpr fun m hm => decide_eq_true (order_sentBy order exec run hj ho hm).2.2
  simp only [hf, hall]

/-- Level `j` of a built graph after the supersteps `trs` on `W` workers: what the fills that
were sent in all of them but the last leave of it. -/
structure LevelAfter (p : OrderBookGraphParams) (d : Draws) (W : Nat)
    (trs : List (List (WorkerId × Event Message))) (j : Nat) (l : PriceLevelVertex) : Prop where
  frame : ∃ qty count, l.toState = { levelState p d j with totalQty := qty, orderCount := count }
  quantity : l.totalQty.toNat =
    (levelState p d j).totalQty.toNat - total (trs.dropLast.flatMap (filledIn p W j))
  count : l.orderCount.toNat =
    countAfter (levelState p d j).totalQty.toNat (levelState p d j).orderCount.toNat
      (trs.dropLast.flatMap (filledIn p W j))

/-- **The quantity of a level is what the fills leave of it.** Take any graph that the builder
makes and any run of it on any number of workers, with their vertex maps in any order. Price
level `j` still has its price, side and venue; and its quantity is the one it started with, less
all that its orders sent to it in the supersteps but the last one: those of its orders that are
on its worker. The same fills decide on its number of orders. -/
theorem level_ledger (p : OrderBookGraphParams) (d : Draws) {g : GraphData}
    (built : buildOrderBookGraph p d = .ok g) (config : EngineConfig)
    (workers : 0 < config.workerCount) {e₀ : GraphEngine BookState Message}
    (order : (GraphEngine.load config g.vertices).Reordered e₀)
    (exec : GraphEngine.Execution BookState.compute e₀ trs k e)
    {j : Nat} (hj : j < levels p) :
    ∃ v l, (e.workers (levelId p j % config.workerCount)).vertices.lookup (levelId p j) = some v ∧
      v.state = .priceLevel l ∧ LevelAfter p d config.workerCount trs j l := by
  obtain ⟨loaded, perm, rfl⟩ := exists_perm_of_built built order
  have hmem : (levelVertex p d (orders p) j).map .priceLevel ∈ vertices p d :=
    mem_vertices.mpr (.inr (.inr (.inl ⟨j, hj, rfl⟩)))
  obtain ⟨v, hv, fed⟩ := fed_of_execution perm exec hmem
  obtain ⟨hstate, -⟩ := fed_class compute_priceLevel fed
  rw [PriceLevelVertex.feed_state] at hstate
  set l₀ := (levelVertex p d (orders p) j).state
  set got := fills (Vertex.received (inputsOf (levelId p j) trs)) with hgot
  set qs := trs.dropLast.flatMap (filledIn p config.workerCount j)
  have hreceived : Vertex.received (inputsOf (levelId p j) trs) =
      trs.dropLast.flatMap
        (GraphEngine.sentTo (levelId p j % config.workerCount) (levelId p j)) :=
    GraphEngine.received_of_execution exec (Nat.mod_lt (levelId p j) workers)
      (mem_load_vertices perm config hmem)
  -- what it received holds the fills, in another order
  have hperm : got.Perm qs := by
    rw [hgot, hreceived, fills_flatMap]
    apply List.Perm.flatMap_left
    intro tr htr
    obtain ⟨s, hs⟩ := List.mem_iff_getElem?.mp (List.dropLast_subset _ htr)
    obtain ⟨timing, e₁, e₂, exec', run, -⟩ := exec.exists_superstep hs
    exact fills_sentTo perm exec' run hj (Nat.mod_lt (levelId p j) workers)
  obtain ⟨hqty, hcount⟩ := PriceLevelVertex.foldl_fill l₀ qs
  rw [← PriceLevelVertex.foldl_fill_perm l₀ hperm] at hqty hcount
  refine ⟨v, _, hv, hstate, ?_, hqty, hcount⟩
  obtain ⟨qty, count, hfold⟩ := PriceLevelVertex.foldl_fill_frame l₀ got
  refine ⟨qty, count, ?_⟩
  change (got.foldl PriceLevelVertex.fill l₀).toState = _
  rw [hfold]
  rfl

end Runs

/-- The level of a bid after four supersteps: the order has taken all of it. -/
theorem level_ledger_quad : ∃ trs, ∃ v l,
    GraphEngine.Execution BookState.compute
      (GraphEngine.load { workerCount := 1 } quadGraph.vertices) trs 4 (quadAfter 4) ∧
    ((quadAfter 4).workers 0).vertices.lookup 1 = some v ∧ v.state = .priceLevel l ∧
    LevelAfter quad .still 1 trs 0 l ∧ l.totalQty = 0 := by
  obtain ⟨trs, exec⟩ := quad_execution 4
  obtain ⟨v, l, hv, hstate, after⟩ :=
    level_ledger quad .still quad_built { workerCount := 1 } Nat.one_pos (.refl _) exec (j := 0)
      Nat.two_pos
  change ((quadAfter 4).workers 0).vertices.lookup 1 = some v at hv
  have hqty : (((quadAfter 4).workers 0).vertices.lookup 1).map (fun v =>
      match v.state with
      | .priceLevel l => l.totalQty
      | _ => 1) = some 0 := by
    decide +kernel
  refine ⟨trs, v, l, exec, hv, hstate, after, ?_⟩
  rw [hv, Option.map_some, hstate, Option.some.injEq] at hqty
  exact hqty

end OrderBook

end Pregel
