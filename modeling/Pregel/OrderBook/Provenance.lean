import Pregel.OrderBook.TradeId
import Pregel.Provenance

/-!
Where the messages of the order book come from.

A vertex of the order book sends over its edges only, under its own identifier and with the
number of the superstep. On several workers an edge carries messages only if both of its ends
are on one worker; the orders of a level are numbered through behind it, so that on `W`
workers the fills of every `W`-th order reach the level.

* `compute_sends`: what a call of `compute` adds to the outbox.
* `FromWorker`, `Homed`, `homed_during`: the messages on a worker at any moment.
* `delivered_over_edges`: a message in an inbox was sent in the superstep before, by a vertex
  of the same worker that has an edge to its receiver.
* `fills_reaching_level`: which fills get to a level.
-/

namespace Pregel

open Lts
open WorkerNode (Phase Event)
open Layout

namespace OrderBook

variable {vs loaded : List (Vertex BookState Message)}

/-! ### What a call of `compute` sends -/

/-- A message of superstep `k` over one of the edges of `v`. -/
def OverEdge {σ : Type} (v : Vertex σ Message) (k : Superstep) (m : Message) : Prop :=
  m.src = v.id ∧ m.step = k ∧ ∃ e ∈ v.edges, e.dst = m.dst

theorem overEdge_stamp {σ : Type} {v : Vertex σ Message} {k : Superstep} {msg m : Message}
    {edges : List Edge} (hsub : edges ⊆ v.edges) (hstep : msg.step = k)
    (hm : m ∈ edges.map (v.stamp msg)) : OverEdge v k m := by
  obtain ⟨e, he, rfl⟩ := List.mem_map.mp hm
  exact ⟨rfl, hstep, e, hsub he, rfl⟩

theorem step_generated {l : PriceLevelVertex} {inbox : List Message} {k : Superstep}
    {upd : Message} (hupd : PriceLevelVertex.generated l inbox k = some upd) : upd.step = k := by
  unfold PriceLevelVertex.generated at hupd
  dsimp only at hupd
  split at hupd
  · cases hupd
    rfl
  · cases hupd

theorem priceLevel_sends {v : Vertex PriceLevelVertex Message} {inbox : List Message}
    {k : Superstep} {m : Message} (hm : m ∈ (PriceLevelVertex.compute v inbox k).outbox)
    (hnew : m ∉ v.outbox) : OverEdge v k m := by
  rw [PriceLevelVertex.compute_eq, List.mem_append, List.mem_append] at hm
  rcases hm with (hold | hforwarded) | hupstream
  · exact absurd hold hnew
  · obtain ⟨msg, -, hm⟩ := List.mem_flatMap.mp hforwarded
    split at hm
    · exact overEdge_stamp List.filter_sublist.subset rfl hm
    · cases hm
  · obtain ⟨upd, hupd, hm⟩ := List.mem_flatMap.mp hupstream
    exact overEdge_stamp List.filter_sublist.subset (step_generated (Option.mem_toList.mp hupd)) hm

/-- What the classes send. -/
def MaySend : VertexType → MsgType → Prop
  | .order, t => t = .orderFill
  | .priceLevel, t => t = .priceUpdate
  | .venue, t => t = .priceUpdate
  | .marketMaker, t => t = .arbitrageSignal

/-- **What a call of `compute` adds to the outbox**: over the edges of the vertex, and of the
one type that its class sends. -/
theorem compute_sends {v : Vertex BookState Message} {inbox : List Message} {k : Superstep}
    {m : Message} (hm : m ∈ (BookState.compute v inbox k).outbox) (hnew : m ∉ v.outbox) :
    OverEdge v k m ∧ MaySend v.state.type m.type := by
  cases hstate : v.state with
  | order o =>
      obtain ⟨-, -, -, houtbox⟩ := OrderVertex.compute_spec (v.map fun _ => o) inbox k
      simp only [BookState.compute, hstate] at hm
      change m ∈ (OrderVertex.compute (v.map fun _ => o) inbox k).outbox at hm
      rw [houtbox, List.mem_append] at hm
      have hsent := hm.resolve_left hnew
      split at hsent
      · refine ⟨overEdge_stamp (v := v.map fun _ => o) (List.Subset.refl _) rfl hsent, ?_⟩
        obtain ⟨e, -, rfl⟩ := List.mem_map.mp hsent
        rfl
      · cases hsent
  | priceLevel l =>
      simp only [BookState.compute, hstate] at hm
      refine ⟨priceLevel_sends (v := v.map fun _ => l) hm hnew, ?_⟩
      obtain hold | ⟨htype, -⟩ := PriceLevelVertex.mem_compute_outbox (v := v.map fun _ => l) hm
      · exact absurd hold hnew
      · exact htype
  | venue u =>
      simp only [BookState.compute, hstate] at hm
      change m ∈ (VenueVertex.compute (v.map fun _ => u) inbox k).outbox at hm
      rw [VenueVertex.compute_outbox, List.mem_append] at hm
      have hsent := hm.resolve_left hnew
      refine ⟨overEdge_stamp (v := v.map fun _ => u) (List.Subset.refl _) rfl hsent, ?_⟩
      obtain ⟨e, -, rfl⟩ := List.mem_map.mp hsent
      rfl
  | marketMaker mm =>
      simp only [BookState.compute, hstate] at hm
      change m ∈ (MarketMakerVertex.compute (v.map fun _ => mm) inbox k).outbox at hm
      rw [MarketMakerVertex.compute_outbox, List.mem_append] at hm
      have hsent := hm.resolve_left hnew
      split at hsent
      · cases hsent
      · refine ⟨overEdge_stamp (v := v.map fun _ => mm) (List.Subset.refl _) rfl hsent, ?_⟩
        obtain ⟨e, -, rfl⟩ := List.mem_map.mp hsent
        rfl

/-- The messages that vertex `vid` of the graph sends in superstep `k`. -/
def OverEdges (vs : List (Vertex BookState Message)) (k : Superstep) (vid : VertexId)
    (ms : List Message) : Prop :=
  ∀ m ∈ ms, m.src = vid ∧ m.step = k ∧ ∃ u ∈ vs, u.id = vid ∧ ∃ e ∈ u.edges, e.dst = m.dst

theorem overEdgesRule : OutboxRule BookState.compute (Framed vs) (OverEdges vs) where
  wakes _ _ framed := framed.of_sameFrame ⟨rfl, rfl, rfl, rfl⟩ rfl
  collected _ _ framed := framed.of_sameFrame ⟨rfl, rfl, rfl, rfl⟩ rfl
  computes _ v inbox k framed :=
    framed.of_sameFrame (compute_frame v inbox k) (compute_type v inbox k)
  sends vid v inbox k framed empty m hm := by
    obtain ⟨⟨hsrc, hstep, e, he, hdst⟩, -⟩ := compute_sends hm (by rw [empty]; exact List.not_mem_nil)
    obtain ⟨u, hu, hid, hframe⟩ := framed.origin
    exact ⟨hsrc.trans (hframe.id.trans hid), hstep, u, hu, hid, e, hframe.edges ▸ he, hdst⟩
  silent _ _ _ hm := absurd hm List.not_mem_nil

/-! ### The messages on a worker -/

/-- A message from a vertex of worker `i` out of `W`, over one of its edges. -/
def FromWorker (vs : List (Vertex BookState Message)) (W : Nat) (i : WorkerId) (m : Message) :
    Prop :=
  m.src % W = i ∧ ∃ u ∈ vs, u.id = m.src ∧ MaySend u.type m.type ∧ ∃ e ∈ u.edges, e.dst = m.dst

/-- A vertex of worker `i` out of `W`. -/
structure Homed (vs : List (Vertex BookState Message)) (W : Nat) (i : WorkerId) (vid : VertexId)
    (v : Vertex BookState Message) : Prop where
  framed : Framed vs vid v
  home : vid % W = i
  outbox : ∀ m ∈ v.outbox, FromWorker vs W i m

theorem homedRule (W : Nat) (i : WorkerId) :
    FlowRule BookState.compute (fun _ => True) (FromWorker vs W i) (Homed vs W i) where
  sends _ _ homed := homed.outbox
  wakes _ _ homed := ⟨homed.framed.of_sameFrame ⟨rfl, rfl, rfl, rfl⟩ rfl, homed.home, homed.outbox⟩
  collected _ _ homed := ⟨homed.framed.of_sameFrame ⟨rfl, rfl, rfl, rfl⟩ rfl, homed.home,
    fun _ hm => absurd hm List.not_mem_nil⟩
  computes vid v inbox k homed _ _ := by
    refine ⟨homed.framed.of_sameFrame (compute_frame v inbox k) (compute_type v inbox k),
      homed.home, fun m hm => ?_⟩
    by_cases hold : m ∈ v.outbox
    · exact homed.outbox m hold
    · obtain ⟨⟨hsrc, -, e, he, hdst⟩, htype⟩ := compute_sends hm hold
      obtain ⟨u, hu, hid, hframe⟩ := homed.framed.origin
      have hsender : m.src = vid := hsrc.trans (hframe.id.trans hid)
      rw [homed.framed.typed, hframe.type] at htype
      refine ⟨by rw [hsender, homed.home], u, hu, hid.trans hsender.symm, htype, e, ?_, hdst⟩
      exact hframe.edges ▸ he

theorem framed_load (wired : Wired vs) (order : loaded.Perm vs) {config : EngineConfig}
    {i : WorkerId} {vid : VertexId} {v : Vertex BookState Message}
    (hv : ((GraphEngine.load config loaded).workers i).vertices.lookup vid = some v) :
    Framed vs vid v ∧ v.outbox = [] := by
  obtain ⟨hmem, hid⟩ := mem_of_load_lookup wired order hv
  exact ⟨⟨⟨v, hmem, hid, .refl v⟩, wired.typed v hmem⟩, (wired.fresh v hmem).1⟩

theorem homed_load (wired : Wired vs) (order : loaded.Perm vs) (config : EngineConfig)
    (i : WorkerId) :
    Flows (FromWorker vs config.workerCount i) (Homed vs config.workerCount i)
      ((GraphEngine.load config loaded).workers i, .ready) := by
  have hworker := GraphEngine.load_worker config loaded i
  refine ⟨?_, ?_, fun vid v hv => ?_, fun _ _ _ hphase => by cases hphase⟩
  · rw [hworker]
    exact MessageBus.within_new _ _ _
  · rw [hworker]
    exact fun vid m hm => absurd hm List.not_mem_nil
  · obtain ⟨hframed, houtbox⟩ := framed_load wired order hv
    have hmem : vid ∈ ((GraphEngine.load config loaded).workers i).vertices :=
      AList.lookup_isSome.mp (by simp [hv])
    refine ⟨hframed, ((GraphEngine.mem_load _ _ _ _).mp hmem).1, ?_⟩
    rw [houtbox]
    exact fun _ hm => absurd hm List.not_mem_nil

section Runs

variable {config : EngineConfig} {trs : List (List (WorkerId × Event Message))} {k : Nat}
  {e e₁ : GraphEngine BookState Message} {timing : WorkerId → WorkerId → Nat}
  {tr : List (WorkerId × Event Message)}

/-- **The messages on a worker are from its own vertices**, after any number of supersteps. -/
theorem homed_of_execution (wired : Wired vs) (order : loaded.Perm vs)
    (exec : GraphEngine.Execution BookState.compute (GraphEngine.load config loaded) trs k e)
    (i : WorkerId) :
    Flows (FromWorker vs config.workerCount i) (Homed vs config.workerCount i)
      (e.workers i, .ready) :=
  (exec.checked.flows_each (homedRule config.workerCount) (homed_load wired order config)).1 i

/-- Somewhere in the superstep after them. -/
theorem homed_during (wired : Wired vs) (order : loaded.Perm vs)
    (exec : GraphEngine.Execution BookState.compute (GraphEngine.load config loaded) trs k e)
    {ws : WorkerId → WorkerNode BookState Message × Phase Message}
    (run : Run (Interleave (e.WorkerStep BookState.compute k timing))
      (fun i => (e.workers i, .ready)) tr ws) :
    (∀ i, Flows (FromWorker vs config.workerCount i) (Homed vs config.workerCount i) (ws i)) ∧
      ∀ l ∈ tr, EventFlows (FromWorker vs config.workerCount l.1)
        (Homed vs config.workerCount l.1) l.2 :=
  GraphEngine.flows_during_each (homedRule config.workerCount) (homed_of_execution wired order exec)
    (GraphEngine.checkedRun_true run)

theorem home_load {vid : VertexId} {i : WorkerId}
    (hvid : vid ∈ ((GraphEngine.load config loaded).workers i).vertices) :
    vid % config.workerCount = i :=
  ((GraphEngine.mem_load _ _ _ _).mp hvid).1

/-- A message in an inbox of superstep `k` that vertex `vid` gets after the supersteps `trs`. -/
structure Delivered (vs : List (Vertex BookState Message)) (W : Nat)
    (trs : List (List (WorkerId × Event Message))) (k : Superstep) (vid : VertexId) (m : Message) :
    Prop where
  addressed : m.dst = vid
  fresh : m.step + 1 = k
  together : m.src % W = vid % W
  /-- In the superstep before, its sender has sent it. -/
  collected : ∃ last, trs.getLast? = some last ∧ m ∈ sentBy m.src last
  sender : ∃ u ∈ vs, u.id = m.src ∧ MaySend u.type m.type ∧ ∃ edge ∈ u.edges, edge.dst = vid

/-- What is collected from a vertex is collected by its worker. -/
theorem home_of_collected (wired : Wired vs) (order : loaded.Perm vs)
    (exec : GraphEngine.Execution BookState.compute (GraphEngine.load config loaded) trs k e)
    (run : GraphEngine.SuperstepRun BookState.compute k timing e tr e₁) {i : WorkerId}
    {boxes : List (VertexId × List Message)} (hfinish : (i, Event.finish boxes) ∈ tr)
    {box : VertexId × List Message} (hbox : box ∈ boxes) :
    box.1 % config.workerCount = i ∧ ∀ m ∈ box.2, FromWorker vs config.workerCount i m := by
  obtain ⟨ws, during, -, -⟩ := run
  obtain ⟨-, hevents⟩ := homed_during wired order exec during
  obtain ⟨w, homed, houtbox⟩ := hevents _ hfinish box hbox
  exact ⟨homed.home, fun m hm => homed.outbox m (by rwa [houtbox])⟩

/-- What a vertex sends in a superstep is over its edges. -/
theorem overEdges_sentBy (wired : Wired vs) (order : loaded.Perm vs)
    (exec : GraphEngine.Execution BookState.compute (GraphEngine.load config loaded) trs k e)
    (run : GraphEngine.SuperstepRun BookState.compute k timing e tr e₁) (vid : VertexId) :
    OverEdges vs k vid (sentBy vid tr) := by
  obtain ⟨-, hlength, hover⟩ := (exec.next run).outbox overEdgesRule
    (rested_load wired order config) fun _ _ => home_load
  have hlast : (trs ++ [tr])[k]? = some tr := by
    rw [← exec.length_eq, List.getElem?_concat_length]
  exact hover k tr hlast vid

theorem mem_sentBy {vid : VertexId} {m : Message} :
    m ∈ sentBy vid tr ↔ ∃ i boxes, (i, Event.finish boxes) ∈ tr ∧ ∃ box ∈ boxes,
      box.1 = vid ∧ m ∈ box.2 := by
  simp only [sentBy, List.mem_flatMap]
  constructor
  · rintro ⟨⟨i, l⟩, hl, hm⟩
    cases l with
    | finish boxes =>
        obtain ⟨box, hbox, hm⟩ := List.mem_flatMap.mp hm
        obtain ⟨hbox, hid⟩ := List.mem_filter.mp hbox
        exact ⟨i, boxes, hl, box, hbox, of_decide_eq_true hid, hm⟩
    | _ => cases hm
  · rintro ⟨i, boxes, hl, box, hbox, hid, hm⟩
    refine ⟨_, hl, List.mem_flatMap.mpr ⟨box, ?_, hm⟩⟩
    exact List.mem_filter.mpr ⟨hbox, decide_eq_true hid⟩

/-- What a vertex of the same worker sent in the superstep before. -/
theorem mem_sentTo_iff (wired : Wired vs) (order : loaded.Perm vs)
    (exec : GraphEngine.Execution BookState.compute (GraphEngine.load config loaded) trs k e)
    (run : GraphEngine.SuperstepRun BookState.compute k timing e tr e₁) (vid : VertexId)
    (m : Message) :
    m ∈ GraphEngine.sentTo (vid % config.workerCount) vid tr ↔
      m.dst = vid ∧ m.src % config.workerCount = vid % config.workerCount ∧
        m ∈ sentBy m.src tr := by
  rw [GraphEngine.mem_sentTo, mem_sentBy]
  constructor
  · rintro ⟨⟨boxes, hfinish, box, hbox, hm⟩, hdst⟩
    obtain ⟨hhome, hfrom⟩ := home_of_collected wired order exec run hfinish hbox
    have hsrc : m.src = box.1 :=
      (overEdges_sentBy wired order exec run box.1 m
        (mem_sentBy.mpr ⟨_, boxes, hfinish, box, hbox, rfl, hm⟩)).1
    exact ⟨hdst, by rw [hsrc, hhome], _, boxes, hfinish, box, hbox, hsrc.symm, hm⟩
  · rintro ⟨hdst, hsame, i, boxes, hfinish, box, hbox, hid, hm⟩
    obtain ⟨hhome, -⟩ := home_of_collected wired order exec run hfinish hbox
    have hi : vid % config.workerCount = i := by rw [← hsame, ← hid, hhome]
    exact ⟨⟨boxes, hi ▸ hfinish, box, hbox, hm⟩, hdst⟩

/-- **A message in an inbox of superstep `k`** was collected in the superstep before, from the
vertex that it names as its sender; this vertex is on the same worker and has an edge to the
receiver. -/
theorem delivered (wired : Wired vs) (order : loaded.Perm vs)
    (exec : GraphEngine.Execution BookState.compute (GraphEngine.load config loaded) trs k e)
    (run : GraphEngine.SuperstepRun BookState.compute k timing e tr e₁) {i : WorkerId}
    {vid : VertexId} {inbox : List Message} (hmem : (i, Event.compute vid inbox) ∈ tr) :
    ∀ m ∈ inbox, Delivered vs config.workerCount trs k vid m := by
  intro m hm
  have hconfig := (GraphEngine.execution_frame exec).1
  have hi : i < config.workerCount := by
    have hlt := GraphEngine.label_inRange run hmem
    rwa [hconfig, GraphEngine.load_config] at hlt
  cases k with
  | zero =>
      -- nothing is delivered in superstep 0
      obtain rfl := exec.eq_of_zero
      obtain ⟨-, rfl⟩ := (GraphEngine.compute_first_iff run hi vid inbox).mp hmem
      cases hm
  | succ k =>
      obtain ⟨trs', last, timing', e₀, rfl, exec', previous⟩ := exec.exists_last
      obtain ⟨⟨v, hv, -⟩, rfl⟩ :=
        (GraphEngine.compute_next_iff exec' previous run hi vid inbox).mp hmem
      have hhome : vid % config.workerCount = i := by
        apply home_load
        rw [← GraphEngine.mem_execution (exec'.next previous)]
        exact AList.lookup_isSome.mp (by simp [hv])
      rw [← hhome] at hm
      obtain ⟨hdst, hsame, hsent⟩ := (mem_sentTo_iff wired order exec' previous vid m).mp hm
      obtain ⟨-, hstep, -⟩ := overEdges_sentBy wired order exec' previous m.src m hsent
      obtain ⟨j, boxes, hfinish, box, hbox, -, hmbox⟩ := mem_sentBy.mp hsent
      obtain ⟨-, hfrom⟩ := home_of_collected wired order exec' previous hfinish hbox
      obtain ⟨-, u, hu, hid, htype, edge, hedge, htarget⟩ := hfrom m hmbox
      exact {
        addressed := hdst
        fresh := by rw [hstep]
        together := hsame
        collected := ⟨last, List.getLast?_concat .., hsent⟩
        sender := ⟨u, hu, hid, htype, edge, hedge, htarget.trans hdst⟩ }

end Runs

/-! ### The graph of the builder -/

section Built

variable {p : OrderBookGraphParams} {d : Draws}

/-- Without workers the builder ends only if there is nothing to build. -/
theorem counts_of_noWorkers (noWorkers : workers p = 0) {b : Builder}
    (hrun : Builder.run p d = .ok b) : venues p = 0 ∧ makers p = 0 := by
  unfold Builder.run at hrun
  cases hvenues : p.venueCount.toNat with
  | succ n =>
      rw [hvenues, List.range_succ_eq_map, List.foldlM_cons, addVenue_of_noWorkers noWorkers] at hrun
      cases hrun
  | zero =>
      rw [hvenues] at hrun
      cases hmakers : p.marketMakerCount.toNat with
      | succ n =>
          rw [hmakers, List.range_succ_eq_map] at hrun
          simp only [List.range_zero, List.foldlM_nil, List.foldlM_cons, pure_bind,
            addMarketMaker_of_noWorkers noWorkers] at hrun
          cases hrun
      | zero => exact ⟨hvenues, hmakers⟩

/-- A graph that is built is the closed form. -/
theorem vertices_of_built {g : GraphData} (built : buildOrderBookGraph p d = .ok g) :
    g.vertices = vertices p d := by
  obtain ⟨b, hrun, rfl⟩ := exists_run_of_built built
  by_cases noWorkers : workers p = 0
  · obtain ⟨hvenues, hmakers⟩ := counts_of_noWorkers noWorkers hrun
    rw [vertices_of_noWorkers noWorkers hrun, vertices, levels, hvenues, hmakers]
    simp
  · rw [run_eq_stage d noWorkers] at hrun
    cases hrun
    simp [makerStage, vertices]

/-- The engine on a graph that is built: it has loaded the closed form, in some order. -/
theorem exists_perm_of_built {g : GraphData} (built : buildOrderBookGraph p d = .ok g)
    {config : EngineConfig} {e₀ : GraphEngine BookState Message}
    (order : (GraphEngine.load config g.vertices).Reordered e₀) :
    ∃ loaded : List (Vertex BookState Message), loaded.Perm (vertices p d) ∧
      e₀ = GraphEngine.load config loaded := by
  rw [vertices_of_built built] at order
  exact GraphEngine.exists_load_of_reordered (wired_vertices p d).distinct order

/-- A bid and an ask on one worker after `k` supersteps. -/
def quadAfter (k : Nat) : GraphEngine BookState Message :=
  (GraphEngine.load { workerCount := 1 } quadGraph.vertices).supersteps BookState.compute
    (fun _ _ _ => 0) k

theorem quad_built : buildOrderBookGraph quad .still = .ok quadGraph := by rfl

theorem quad_nodes (i : WorkerId)
    (_ : i < (GraphEngine.load { workerCount := 1 } quadGraph.vertices).config.workerCount) :
    0 < ((GraphEngine.load { workerCount := 1 } quadGraph.vertices).workers i).config.numaNodes :=
  GraphEngine.load_nodes Nat.two_pos quadGraph.vertices i

theorem quad_execution (k : Nat) : ∃ trs, GraphEngine.Execution BookState.compute
    (GraphEngine.load { workerCount := 1 } quadGraph.vertices) trs k (quadAfter k) :=
  GraphEngine.execution_supersteps BookState.compute (fun _ _ _ => 0) quad_nodes k

theorem quad_superstep (k : Nat) : ∃ tr, GraphEngine.SuperstepRun BookState.compute k
    (fun _ _ => 0) (quadAfter k) tr (quadAfter (k + 1)) :=
  GraphEngine.superstepRun_supersteps BookState.compute (fun _ _ _ => 0) quad_nodes k

/-- **Every message is sent over an edge and delivered once.** Take any graph that the builder
makes, any run of it on any number of workers, with their vertex maps in any order, and any
computation in the superstep after it: what the vertex finds in its inbox was sent to it in the
superstep before, by a vertex of the same worker that has an edge to it and is of a class that
sends such messages. -/
theorem delivered_over_edges (p : OrderBookGraphParams) (d : Draws) {g : GraphData}
    (built : buildOrderBookGraph p d = .ok g) (config : EngineConfig)
    {e₀ : GraphEngine BookState Message}
    (order : (GraphEngine.load config g.vertices).Reordered e₀)
    {trs : List (List (WorkerId × Event Message))} {k : Nat} {e e₁ : GraphEngine BookState Message}
    (exec : GraphEngine.Execution BookState.compute e₀ trs k e)
    {timing : WorkerId → WorkerId → Nat} {tr : List (WorkerId × Event Message)}
    (run : GraphEngine.SuperstepRun BookState.compute k timing e tr e₁) {i : WorkerId}
    {vid : VertexId} {inbox : List Message} (computed : (i, Event.compute vid inbox) ∈ tr) :
    ∀ m ∈ inbox, Delivered g.vertices config.workerCount trs k vid m := by
  obtain ⟨b, hrun, rfl⟩ := exists_run_of_built built
  have hwired := wired_of_run hrun
  obtain ⟨loaded, perm, rfl⟩ := GraphEngine.exists_load_of_reordered hwired.distinct order
  exact delivered hwired perm exec run computed

/-- In superstep 2 the bid gets the quote that its level forwarded to it in superstep 1. -/
theorem delivered_over_edges_quad : ∃ trs, ∃ tr : List (WorkerId × Event Message),
    GraphEngine.Execution BookState.compute
      (GraphEngine.load { workerCount := 1 } quadGraph.vertices) trs 2 (quadAfter 2) ∧
    GraphEngine.SuperstepRun BookState.compute 2 (fun _ _ => 0) (quadAfter 2) tr (quadAfter 3) ∧
    (0, Event.compute 2 [quadQuote 1 2]) ∈ tr ∧
      Delivered quadGraph.vertices 1 trs 2 2 (quadQuote 1 2) := by
  obtain ⟨trs, exec⟩ := quad_execution 2
  obtain ⟨tr, run⟩ := quad_superstep 2
  have computed : (0, Event.compute 2 [quadQuote 1 2]) ∈ tr := by
    rw [GraphEngine.mem_compute_iff run (by decide)]
    decide +kernel
  exact ⟨trs, tr, exec, run, computed, delivered_over_edges quad .still quad_built
    { workerCount := 1 } (.refl _) exec run computed _ (List.mem_singleton.mpr rfl)⟩

/-- Only the orders of a level have an edge to it that carries fills. -/
theorem order_of_fill {j : Nat} {u : Vertex BookState Message} (hu : u ∈ vertices p d)
    (fills : MaySend u.type .orderFill) {edge : Edge} (hedge : edge ∈ u.edges)
    (hdst : edge.dst = levelId p j) : ∃ o < orders p, u = orderVertex p d j o := by
  rcases mem_vertices.mp hu with ⟨v, hv, rfl⟩ | ⟨k, hk, o, ho, rfl⟩ | ⟨k, hk, rfl⟩ | ⟨m, hm, rfl⟩
  · cases fills
  · obtain rfl := List.mem_singleton.mp hedge
    obtain rfl := levelId_inj.mp hdst
    exact ⟨o, ho, rfl⟩
  · cases fills
  · cases fills

/-- An order is on the worker of its level if its number is right. -/
theorem orderId_mod_iff (p : OrderBookGraphParams) (j o W : Nat) :
    orderId p j o % W = levelId p j % W ↔ (1 + o) % W = 0 := by
  rw [orderId, Nat.add_assoc, ← Nat.dvd_iff_mod_eq_zero]
  exact Nat.add_modEq_left_iff

/-- What an order sends: fills to its level. -/
theorem order_sentBy (order : loaded.Perm (vertices p d)) {config : EngineConfig}
    {trs : List (List (WorkerId × Event Message))} {k : Nat} {e e₁ : GraphEngine BookState Message}
    {timing : WorkerId → WorkerId → Nat} {tr : List (WorkerId × Event Message)}
    (exec : GraphEngine.Execution BookState.compute (GraphEngine.load config loaded) trs k e)
    (run : GraphEngine.SuperstepRun BookState.compute k timing e tr e₁) {j o : Nat}
    (hj : j < levels p) (ho : o < orders p) {m : Message} (hm : m ∈ sentBy (orderId p j o) tr) :
    m.type = .orderFill ∧ m.src = orderId p j o ∧ m.dst = levelId p j := by
  have hwired := wired_vertices p d
  obtain ⟨i, boxes, hfinish, box, hbox, hid, hmbox⟩ := mem_sentBy.mp hm
  obtain ⟨-, hfrom⟩ := home_of_collected hwired order exec run hfinish hbox
  obtain ⟨-, u, hu, huid, htype, edge, hedge, hdst⟩ := hfrom m hmbox
  obtain ⟨hsrc, -⟩ := overEdges_sentBy hwired order exec run _ m hm
  -- the sender is the order
  have horder : orderVertex p d j o ∈ vertices p d :=
    mem_vertices.mpr (.inr (.inl ⟨j, hj, o, ho, rfl⟩))
  obtain rfl := List.inj_on_of_nodup_map hwired.distinct hu horder (huid.trans hsrc)
  obtain rfl := List.mem_singleton.mp hedge
  exact ⟨htype, hsrc, hdst.symm⟩

/-- **Which fills reach a level.** Take any graph that the builder makes, any run of it on any
number of workers, with their vertex maps in any order, and two supersteps in a row. What price
level `j` finds of ORDER_FILLs in its inbox in the second one is what its orders sent in the
first one, and only those of its orders that are numbered a multiple of the worker count behind
it. -/
theorem fills_reaching_level (p : OrderBookGraphParams) (d : Draws) {g : GraphData}
    (built : buildOrderBookGraph p d = .ok g) (config : EngineConfig)
    {e₀ : GraphEngine BookState Message}
    (order : (GraphEngine.load config g.vertices).Reordered e₀)
    {trs : List (List (WorkerId × Event Message))} {k : Nat}
    {e e₁ e₂ : GraphEngine BookState Message}
    (exec : GraphEngine.Execution BookState.compute e₀ trs k e)
    {timing timing' : WorkerId → WorkerId → Nat} {tr tr' : List (WorkerId × Event Message)}
    (run : GraphEngine.SuperstepRun BookState.compute k timing e tr e₁)
    (next : GraphEngine.SuperstepRun BookState.compute (k + 1) timing' e₁ tr' e₂) {j : Nat}
    (hj : j < levels p) (m : Message) :
    (∃ i inbox, (i, Event.compute (levelId p j) inbox) ∈ tr' ∧ m ∈ inbox ∧ m.type = .orderFill) ↔
      ∃ o < orders p, (1 + o) % config.workerCount = 0 ∧ m ∈ sentBy (orderId p j o) tr := by
  obtain ⟨loaded, perm, rfl⟩ := exists_perm_of_built built order
  have hwired := wired_vertices p d
  constructor
  · rintro ⟨i, inbox, hmem, hm, hfill⟩
    obtain ⟨haddressed, -, htogether, ⟨last, hlast, hsent⟩, u, hu, hid, htype, edge, hedge, hdst⟩ :=
      delivered hwired perm (exec.next run) next hmem m hm
    rw [hfill] at htype
    obtain ⟨o, ho, rfl⟩ := order_of_fill hu htype hedge hdst
    rw [List.getLast?_concat, Option.some.injEq] at hlast
    have hsrc : m.src = orderId p j o := hid.symm
    rw [hsrc, orderId_mod_iff] at htogether
    exact ⟨o, ho, htogether, by rwa [hlast, ← hsrc]⟩
  · rintro ⟨o, ho, hnumber, hm⟩
    obtain ⟨hfill, hsrc, hdst⟩ := order_sentBy perm exec run hj ho hm
    set i := levelId p j % config.workerCount
    have hsentTo : m ∈ GraphEngine.sentTo i (levelId p j) tr :=
      (mem_sentTo_iff hwired perm exec run _ m).mpr
        ⟨hdst, by rw [hsrc]; exact (orderId_mod_iff p j o _).mpr hnumber, by rwa [hsrc]⟩
    obtain ⟨⟨boxes, hfinish, -⟩, -⟩ := GraphEngine.mem_sentTo.mp hsentTo
    have hi : i < config.workerCount := by
      have hlt := GraphEngine.label_inRange run hfinish
      rwa [(GraphEngine.execution_frame exec).1, GraphEngine.load_config] at hlt
    -- the level is on its worker and wakes up for the message
    have hlevel : levelId p j ∈ (e₁.workers i).vertices := by
      rw [GraphEngine.mem_execution (exec.next run), GraphEngine.mem_load]
      exact ⟨rfl, _, perm.mem_iff.mpr (mem_vertices.mpr (.inr (.inr (.inl ⟨j, hj, rfl⟩)))), rfl⟩
    obtain ⟨v, hv⟩ := AList.exists_lookup_of_mem hlevel
    refine ⟨i, _, (GraphEngine.compute_next_iff exec run next hi _ _).mpr
      ⟨⟨v, hv, Or.inr (List.ne_nil_of_mem hsentTo)⟩, rfl⟩, hsentTo, hfill⟩

/-- On one worker the fill of the bid reaches its level. -/
theorem fills_reaching_level_quad : ∃ trs, ∃ tr tr' : List (WorkerId × Event Message),
    GraphEngine.Execution BookState.compute
      (GraphEngine.load { workerCount := 1 } quadGraph.vertices) trs 2 (quadAfter 2) ∧
    GraphEngine.SuperstepRun BookState.compute 2 (fun _ _ => 0) (quadAfter 2) tr (quadAfter 3) ∧
    GraphEngine.SuperstepRun BookState.compute 3 (fun _ _ => 0) (quadAfter 3) tr' (quadAfter 4) ∧
    (∃ i inbox, (i, Event.compute 1 inbox) ∈ tr' ∧
      (⟨2, 1, 2, .orderFill 149999900 100 8589934594⟩ : Message) ∈ inbox) ∧
      ⟨2, 1, 2, .orderFill 149999900 100 8589934594⟩ ∈ sentBy 2 tr := by
  obtain ⟨trs, exec⟩ := quad_execution 2
  obtain ⟨tr, run⟩ := quad_superstep 2
  obtain ⟨tr', next⟩ := quad_superstep 3
  have computed : ∃ inbox, (0, Event.compute 1 inbox) ∈ tr' ∧
      (⟨2, 1, 2, .orderFill 149999900 100 8589934594⟩ : Message) ∈ inbox := by
    refine ⟨_, (GraphEngine.mem_compute_iff next (by decide)).mpr ⟨?_, rfl⟩, ?_⟩
    · decide +kernel
    · decide +kernel
  obtain ⟨inbox, hmem, hm⟩ := computed
  obtain ⟨o, ho, -, hsent⟩ := (fills_reaching_level quad .still quad_built { workerCount := 1 }
    (.refl _) exec run next Nat.two_pos _).mp ⟨0, inbox, hmem, hm, rfl⟩
  -- the level has one order
  obtain rfl : o = 0 := Nat.lt_one_iff.mp ho
  exact ⟨trs, tr, tr', exec, run, next, ⟨0, inbox, hmem, hm⟩, hsent⟩

end Built

end OrderBook

end Pregel
