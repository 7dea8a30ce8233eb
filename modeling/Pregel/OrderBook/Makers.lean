import Pregel.OrderBook.Service

/-!
What market makers hear, and how often they compute.

The edges into a market maker are those of the venues, one of each. So from the second
superstep on it gets one quote of every venue on its worker. A market maker that shares its
worker with no venue computes once, on nothing, and halts for good.

* `edge_to_maker`: who can send to a market maker.
* `senders_mail`: whose quotes it gets.
* `maker_activity`: how often it computes, and on what.
-/

namespace Pregel

open Lts
open WorkerNode (Phase Event)
open Layout
open GraphEngine (mail sentTo)

namespace OrderBook

variable {p : OrderBookGraphParams} {d : Draws} {config : EngineConfig}
  {loaded : List (Vertex BookState Message)}
  {trs : List (List (WorkerId × Event Message))} {k : Nat} {e e₁ : GraphEngine BookState Message}
  {timing : WorkerId → WorkerId → Nat} {tr : List (WorkerId × Event Message)}

/-- Only venues have edges to a market maker. -/
theorem edge_to_maker {m : Nat} (hm : m < makers p) {u : Vertex BookState Message}
    (hu : u ∈ vertices p d) {edge : Edge} (hedge : edge ∈ u.edges)
    (hdst : edge.dst = makerId p m) : u.id < venues p := by
  have hmaker := maker_mem d hm
  rcases mem_vertices.mp hu with ⟨v, hv, rfl⟩ | ⟨i, hi, o', ho', rfl⟩ | ⟨i, hi, rfl⟩ | ⟨m', hm', rfl⟩
  · exact hv
  · obtain rfl := List.mem_singleton.mp hedge
    exact absurd hdst (id_ne (level_mem d hi) hmaker fun h => by cases h)
  · change edge ∈ levelEdges p (orders p) i at hedge
    simp only [levelEdges, List.mem_cons, List.mem_map, List.mem_range] at hedge
    rcases hedge with rfl | ⟨o', ho', rfl⟩
    · exact absurd hdst (id_ne (venue_mem d (levelVenue_lt hi)) hmaker fun h => by cases h)
    · exact absurd hdst (id_ne (order_mem d hi ho') hmaker fun h => by cases h)
  · change edge ∈ makerEdges p d (venues p) (samples p) m' at hedge
    simp only [makerEdges, List.mem_append, List.mem_map, List.mem_range] at hedge
    rcases hedge with ⟨v, hv, rfl⟩ | ⟨i, hi, rfl⟩
    · exact absurd hdst (id_ne (venue_mem d hv) hmaker fun h => by cases h)
    · exact absurd hdst (id_ne (level_mem d (sampled_lt hi)) hmaker fun h => by cases h)

/-- The venues on the worker of market maker `m`. -/
def venuesNear (p : OrderBookGraphParams) (W m : Nat) : List VertexId :=
  (List.range (venues p)).filter fun v => v % W = makerId p m % W

/-- A venue sends a market maker one message. -/
theorem senders_sentBy {m v : Nat} (hm : m < makers p) {ms : List Message}
    (quotes : IsQuoteOf p k v ms) :
    (ms.filter fun msg => dst msg = makerId p m).map Message.src = [v] := by
  obtain ⟨bid, bidQty, askQty, rfl⟩ := quotes
  set f : Edge → Message := fun e => ⟨v, e.dst, k, .priceUpdate bid (bid + 400) bidQty askQty⟩
  have hedges := countP_venueEdges_maker hm v
  rw [List.countP_eq_length_filter] at hedges
  have hsrc : ((venueEdges p (levels p) (makers p) v).filter (·.dst = makerId p m)).map
      (Message.src ∘ f) = List.replicate 1 v := by
    rw [← hedges]
    exact List.map_const'
  rw [List.filter_map, List.map_map]
  exact hsrc

/-- **The quotes that a market maker gets** in a superstep: one of each venue on its worker. -/
theorem senders_sentTo (order : loaded.Perm (vertices p d)) (workers : 0 < config.workerCount)
    (exec : GraphEngine.Execution BookState.compute (GraphEngine.load config loaded) trs k e)
    (run : GraphEngine.SuperstepRun BookState.compute k timing e tr e₁) {m : Nat}
    (hm : m < makers p) :
    ((sentTo (makerId p m % config.workerCount) (makerId p m) tr).map Message.src).Perm
      (venuesNear p config.workerCount m) := by
  set i := makerId p m % config.workerCount with hi
  set near := venuesNear p config.workerCount m with hnear
  have hsenders : ∀ x ∈ (e.workers i).vertices.keys,
      ((sentBy x tr).filter fun msg => dst msg = makerId p m).map Message.src =
        if x ∈ near then [x] else [] := by
    intro x hx
    have hhome := home_load ((GraphEngine.mem_execution exec).mp (AList.mem_keys.mpr hx))
    split
    · next hmem =>
        obtain ⟨hvenue, -⟩ := List.mem_filter.mp hmem
        obtain ⟨-, hquotes⟩ :=
          venue_of_execution order workers (List.mem_range.mp hvenue) (exec.next run)
        have hlast : (trs ++ [tr])[k]? = some tr := by
          rw [← exec.length_eq, List.getElem?_concat_length]
        exact senders_sentBy hm (hquotes k tr hlast).2
    · next hnot =>
        -- the other vertices of the worker have no edge to it
        rw [List.map_eq_nil_iff, List.filter_eq_nil_iff]
        intro msg hmsg hdst
        obtain ⟨i', boxes, hfinish, box, hbox, -, hmbox⟩ := mem_sentBy.mp hmsg
        obtain ⟨-, hfrom⟩ := home_of_collected (wired_vertices p d) order exec run hfinish hbox
        obtain ⟨-, u, hu, huid, -, edge, hedge, htarget⟩ := hfrom msg hmbox
        obtain ⟨hsrc, -⟩ := overEdges_sentBy (wired_vertices p d) order exec run x msg hmsg
        obtain rfl : u.id = x := huid.trans hsrc
        have hvenue := edge_to_maker hm hu hedge (htarget.trans (of_decide_eq_true hdst))
        exact hnot (List.mem_filter.mpr ⟨List.mem_range.mpr hvenue, decide_eq_true hhome⟩)
  rw [GraphEngine.sentTo_eq_flatMap exec run (Nat.mod_lt _ workers), List.map_flatMap,
    List.flatMap_congr hsenders, List.flatMap_ite_singleton]
  have hkeys : (e.workers i).vertices.keys.Nodup := (e.workers i).vertices.nodupKeys
  apply (List.perm_ext_iff_of_nodup (hkeys.filter _) (List.nodup_range.filter _)).mpr
  intro v
  rw [List.mem_filter, decide_eq_true_eq]
  refine ⟨And.right, fun hv => ⟨?_, hv⟩⟩
  obtain ⟨hvenue, hhome⟩ := List.mem_filter.mp hv
  apply AList.mem_keys.mp
  rw [GraphEngine.mem_execution exec, GraphEngine.mem_load]
  exact ⟨of_decide_eq_true hhome, _, order.mem_iff.mpr (venue_mem d (List.mem_range.mp hvenue)), rfl⟩

/-- The senders of the mail of a market maker when superstep `k` begins. -/
theorem senders_mail (order : loaded.Perm (vertices p d)) (workers : 0 < config.workerCount)
    (exec : GraphEngine.Execution BookState.compute (GraphEngine.load config loaded) trs k e)
    {m : Nat} (hm : m < makers p) :
    ((mail (makerId p m % config.workerCount) (makerId p m) trs).map Message.src).Perm
      (if k = 0 then [] else venuesNear p config.workerCount m) := by
  cases k with
  | zero =>
      obtain rfl := List.eq_nil_of_length_eq_zero exec.length_eq
      exact .refl []
  | succ k =>
      obtain ⟨trs', tr, timing, e₀, rfl, exec', run⟩ := exec.exists_last
      rw [mail, List.getLast?_concat, if_neg (Nat.succ_ne_zero k)]
      exact senders_sentTo order workers exec' run hm

/-! ### How often a market maker computes -/

/-- Market maker `m` before superstep `k`, if it has heard nothing. -/
structure Unheard (m k : Nat) (v : Vertex BookState Message) : Prop where
  state : v.state = .marketMaker { mmId := m }
  halted : v.halted = decide (0 < k)
  empty : v.outbox = []

/-- The first computation without a message halts a market maker. -/
theorem Unheard.next {m : Nat} {v : Vertex BookState Message} (unheard : Unheard m 0 v) :
    (BookState.compute v.wakeUp [] 0).outbox = [] ∧
      Unheard m 1 (BookState.compute v.wakeUp [] 0).clearOutbox := by
  set w : Vertex MarketMakerVertex Message := v.wakeUp.map fun _ => { mmId := m }
  have hcompute : BookState.compute v.wakeUp [] 0 =
      (MarketMakerVertex.compute w [] 0).map .marketMaker := by
    have hwake : v.wakeUp.state = .marketMaker { mmId := m } := unheard.state
    simp only [BookState.compute, hwake]
    rfl
  have houtbox : w.outbox = [] := unheard.empty
  have hnext : MarketMakerVertex.compute w [] 0 = w.voteToHalt := by
    have hsilent : MarketMakerVertex.sendSignal { w with state := w.state.readInbox [] } 0 = w := rfl
    have hflat : ¬ (w.state.netPosition.natAbs : Int) > w.state.inventoryLimit := by
      change ¬ (0 : Int) > 1000000
      omega
    unfold MarketMakerVertex.compute
    rw [hsilent]
    dsimp only
    rw [if_neg hflat, if_pos ⟨rfl, by rw [houtbox]; rfl⟩]
  rw [hcompute, hnext]
  exact ⟨houtbox, rfl, rfl, rfl⟩

/-- A run in which no venue is on the worker of the market maker. -/
theorem unheard_of_execution (order : loaded.Perm (vertices p d)) (workers : 0 < config.workerCount)
    (exec : GraphEngine.Execution BookState.compute (GraphEngine.load config loaded) trs k e)
    {m : Nat} (hm : m < makers p) (alone : venuesNear p config.workerCount m = []) :
    (∃ v, (e.workers (makerId p m % config.workerCount)).vertices.lookup (makerId p m) = some v ∧
        Unheard m k v) ∧
      (inputsOf (makerId p m) trs).length = min k 1 ∧ ∀ tr ∈ trs, sentBy (makerId p m) tr = [] := by
  induction k generalizing trs e with
  | zero =>
      obtain rfl := List.eq_nil_of_length_eq_zero exec.length_eq
      obtain rfl := exec.eq_of_zero
      refine ⟨⟨_, lookup_vertices order config (maker_mem d hm), rfl, rfl, rfl⟩, rfl, ?_⟩
      intro tr htr
      cases htr
  | succ k ih =>
      obtain ⟨trs', tr, timing, e₀, rfl, exec', run⟩ := exec.exists_last
      obtain ⟨⟨v, hv, unheard⟩, hlength, hsilent⟩ := ih exec'
      have hmail : mail (makerId p m % config.workerCount) (makerId p m) trs' = [] := by
        have hsenders := senders_mail order workers exec' hm
        rw [alone, ite_self] at hsenders
        exact List.map_eq_nil_iff.mp hsenders.eq_nil
      have hkeeps : sentBy (makerId p m) tr = [] →
          ∀ tr' ∈ trs' ++ [tr], sentBy (makerId p m) tr' = [] := by
        intro hsent tr' htr'
        rcases List.mem_append.mp htr' with htr' | htr'
        · exact hsilent tr' htr'
        · rw [List.mem_singleton.mp htr', hsent]
      rw [inputsOf_concat, List.length_append, hlength, exec'.length_eq]
      rcases GraphEngine.superstep_loaded exec' run (Nat.mod_lt _ workers)
          (mem_load_vertices order config (maker_mem d hm)) hv unheard.empty with
        ⟨⟨hhalted, -⟩, hin, hsent, hafter⟩ | ⟨hactive, hin, hsent, hafter⟩
      · rw [unheard.halted, decide_eq_true_eq] at hhalted
        have hmin : min k 1 = min (k + 1) 1 := by omega
        have hstill : Unheard m (k + 1) v :=
          ⟨unheard.state, by rw [unheard.halted]; simp [hhalted], unheard.empty⟩
        change inputsIn (makerId p m) k tr = [] at hin
        rw [hin, hmin]
        exact ⟨⟨v, hafter, hstill⟩, rfl, hkeeps hsent⟩
      · change v.halted = false ∨ mail (makerId p m % _) (makerId p m) trs' ≠ [] at hactive
        rw [unheard.halted, decide_eq_false_iff_not] at hactive
        obtain rfl : k = 0 := Nat.eq_zero_of_not_pos (hactive.resolve_right fun h => h hmail)
        change inputsIn (makerId p m) 0 tr = [(mail (makerId p m % _) (makerId p m) trs', 0)] at hin
        change (e.workers (makerId p m % _)).vertices.lookup (makerId p m) = some
          (BookState.compute v.wakeUp (mail (makerId p m % _) (makerId p m) trs') 0).clearOutbox
          at hafter
        change sentBy (makerId p m) tr =
          (BookState.compute v.wakeUp (mail (makerId p m % _) (makerId p m) trs') 0).outbox at hsent
        rw [hmail] at hafter hsent
        obtain ⟨hnothing, hhalted⟩ := unheard.next
        rw [hin]
        exact ⟨⟨_, hafter, hhalted⟩, rfl, hkeeps (hsent.trans hnothing)⟩

/-- A run in which there is one. -/
theorem heard_of_execution (order : loaded.Perm (vertices p d)) (workers : 0 < config.workerCount)
    (exec : GraphEngine.Execution BookState.compute (GraphEngine.load config loaded) trs k e)
    {m : Nat} (hm : m < makers p) (near : venuesNear p config.workerCount m ≠ []) :
    (inputsOf (makerId p m) trs).length = k := by
  induction k generalizing trs e with
  | zero =>
      obtain rfl := List.eq_nil_of_length_eq_zero exec.length_eq
      rfl
  | succ k ih =>
      obtain ⟨trs', tr, timing, e₀, rfl, exec', run⟩ := exec.exists_last
      obtain ⟨v, hv, -, -, hempty⟩ := vertex_of_execution order exec' (maker_mem d hm)
      rw [inputsOf_concat, List.length_append, ih exec', exec'.length_eq]
      rcases GraphEngine.superstep_loaded exec' run (Nat.mod_lt _ workers)
          (mem_load_vertices order config (maker_mem d hm)) hv hempty with
        ⟨⟨hhalted, hmail⟩, -⟩ | ⟨-, hin, -⟩
      · -- it is not halted when the run begins, and has mail later
        have hsenders := senders_mail order workers exec' hm
        change mail (makerId p m % _) (makerId p m) trs' = [] at hmail
        rw [hmail] at hsenders
        split at hsenders
        · next hzero =>
            subst hzero
            obtain rfl := exec'.eq_of_zero
            have hload := (lookup_vertices order config (maker_mem d hm)).symm.trans hv
            rw [← Option.some.inj hload] at hhalted
            cases hhalted
        · exact absurd hsenders.symm.eq_nil near
      · change inputsIn (makerId p m) k tr = _ at hin
        rw [hin]
        rfl

/-- **What market makers hear.** Take any graph that the builder makes and any run of `k`
supersteps of it on any number of workers, with their vertex maps in any order. A market maker
with a venue on its worker computes in every superstep, and from the second one on it has one
quote of each such venue before it. Any other computes in the first superstep only, and never
sends a message. -/
theorem maker_activity (p : OrderBookGraphParams) (d : Draws) {g : GraphData}
    (built : buildOrderBookGraph p d = .ok g) (config : EngineConfig)
    (workers : 0 < config.workerCount) {e₀ : GraphEngine BookState Message}
    (order : (GraphEngine.load config g.vertices).Reordered e₀)
    (exec : GraphEngine.Execution BookState.compute e₀ trs k e)
    {m : Nat} (hm : m < makers p) :
    (inputsOf (makerId p m) trs).length =
        (if venuesNear p config.workerCount m = [] then min k 1 else k) ∧
      (∀ input ∈ inputsOf (makerId p m) trs, (input.1.map Message.src).Perm
        (if input.2 = 0 then [] else venuesNear p config.workerCount m)) ∧
      (venuesNear p config.workerCount m = [] → ∀ tr ∈ trs, sentBy (makerId p m) tr = []) := by
  obtain ⟨loaded, perm, rfl⟩ := exists_perm_of_built built order
  refine ⟨?_, ?_, fun alone => (unheard_of_execution perm workers exec hm alone).2.2⟩
  · split
    · next alone => exact (unheard_of_execution perm workers exec hm alone).2.1
    · next near => exact heard_of_execution perm workers exec hm near
  · intro input hinput
    obtain ⟨⟨tr, s⟩, hs, hmem⟩ := List.mem_flatMap.mp hinput
    obtain ⟨timing, e₁, e₂, exec', run, -⟩ :=
      exec.exists_superstep (List.mem_zipIdx_iff_getElem?.mp hs)
    obtain ⟨v, hv, -, -, hempty⟩ := vertex_of_execution perm exec' (maker_mem d hm)
    rcases GraphEngine.superstep_loaded exec' run (Nat.mod_lt _ workers)
        (mem_load_vertices perm config (maker_mem d hm)) hv hempty with ⟨-, hin, -⟩ | ⟨-, hin, -⟩
    · change inputsIn (makerId p m) s tr = [] at hin
      rw [hin] at hmem
      cases hmem
    · change inputsIn (makerId p m) s tr = _ at hin
      rw [hin] at hmem
      rw [List.mem_singleton.mp hmem]
      exact senders_mail perm workers exec' hm

/-- The market maker of `duo` on two workers: the venue is on the other one. -/
theorem maker_activity_duo : ∃ trs e, GraphEngine.Execution BookState.compute
      (GraphEngine.load { workerCount := 2 } duoGraph.vertices) trs 20 e ∧
    (inputsOf 1 trs).length = 1 ∧ ∀ tr ∈ trs, sentBy 1 tr = [] := by
  have built : buildOrderBookGraph duo .still = .ok duoGraph := by rfl
  have nodes : ∀ i < (GraphEngine.load { workerCount := 2 } duoGraph.vertices).config.workerCount,
      0 < ((GraphEngine.load { workerCount := 2 } duoGraph.vertices).workers i).config.numaNodes :=
    fun i _ => GraphEngine.load_nodes Nat.two_pos _ i
  obtain ⟨trs, exec⟩ := GraphEngine.execution_supersteps BookState.compute (fun _ _ _ => 0) nodes 20
  obtain ⟨hlength, -, hsilent⟩ := maker_activity duo .still built { workerCount := 2 } Nat.two_pos
    (.refl _) exec (m := 0) Nat.one_pos
  exact ⟨trs, _, exec, hlength, hsilent rfl⟩

end OrderBook

end Pregel
