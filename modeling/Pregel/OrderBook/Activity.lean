import Pregel.OrderBook.History
import Pregel.Coordinator
import Pregel.Main
import Mathlib.Algebra.Order.BigOperators.Group.List

/-!
Who is active in the order book, and for how long.

A venue never votes to halt. It computes in every superstep, whatever it hears, and quotes
over all of its edges each time; so the loop of the coordinator goes on to its last round.

* `venue_clock`: a venue after any number of supersteps, and what it has sent in each.
* `book_never_converges`: the coordinator on a built graph that has a venue.
* `main_never_converges`: the program that `main` starts.
-/

namespace Pregel

open Lts
open WorkerNode (Phase Event)
open Layout

namespace OrderBook

variable {p : OrderBookGraphParams} {d : Draws} {config : EngineConfig}
  {loaded : List (Vertex BookState Message)} {e₀ : GraphEngine BookState Message}
  {trs : List (List (WorkerId × Event Message))} {k : Nat} {e : GraphEngine BookState Message}

/-! ### Venues -/

/-- Venue `v` of a built graph after `k` supersteps. -/
structure VenueAfter (p : OrderBookGraphParams) (d : Draws) (k v : Nat)
    (w : Vertex BookState Message) : Prop where
  active : w.halted = false
  empty : w.outbox = []
  id : w.id = v
  edges : w.edges = venueEdges p (levels p) (makers p) v
  /-- It has drawn once in each superstep, and quotes two ticks around its mid. -/
  state : ∃ u, w.state = .venue u ∧ u.tick = UInt32.ofNat k ∧
    u.rng = (d.venueNoise (VenueVertex.seed v)).drop k ∧ (0 < k → u.bestAsk = u.bestBid + 400)

/-- The quote of venue `v` in superstep `k`, over each of its edges. -/
def IsQuoteOf (p : OrderBookGraphParams) (k v : Nat) (ms : List Message) : Prop :=
  ∃ bid bidQty askQty, ms = (venueEdges p (levels p) (makers p) v).map fun e =>
    ⟨v, e.dst, k, .priceUpdate bid (bid + 400) bidQty askQty⟩

theorem foldl_readMessage_tick (u : VenueVertex) (inbox : List Message) :
    (inbox.foldl VenueVertex.readMessage u).tick = u.tick := by
  induction inbox generalizing u with
  | nil => rfl
  | cons m inbox ih =>
      rw [List.foldl_cons, ih]
      unfold VenueVertex.readMessage VenueVertex.readBid VenueVertex.readAsk
      split
      · split <;> split <;> rfl
      · rfl

/-- The spread of a venue that has moved. -/
theorem move_spread (u : VenueVertex) : u.move.bestAsk = u.move.bestBid + 400 := by
  simp only [VenueVertex.move, tickSize]
  omega

/-- One call of `compute`. -/
theorem VenueAfter.next {v : Nat} {w : Vertex BookState Message} (after : VenueAfter p d k v w)
    (inbox : List Message) :
    VenueAfter p d (k + 1) v (BookState.compute w.wakeUp inbox k).clearOutbox ∧
      IsQuoteOf p k v (BookState.compute w.wakeUp inbox k).outbox := by
  obtain ⟨u, hstate, htick, hrng, -⟩ := after.state
  set x : Vertex VenueVertex Message := w.map fun _ => u
  set u' := (inbox.foldl VenueVertex.readMessage u).move with hu'
  have hcompute : BookState.compute w.wakeUp inbox k = (VenueVertex.compute x inbox k).map .venue := by
    rw [Vertex.wakeUp_of_not_halted after.active]
    simp only [BookState.compute, hstate]
    rfl
  have hnext : VenueVertex.compute x inbox k =
      { x with state := u', outbox := x.edges.map (x.stamp (u'.nbbo k)) } := by
    have hempty : x.outbox = [] := after.empty
    unfold VenueVertex.compute
    rw [Vertex.sendAll_eq]
    simp only [hempty, List.nil_append]
    rfl
  rw [hcompute, hnext]
  refine ⟨⟨after.active, rfl, after.id, after.edges, u', rfl, ?_, ?_, fun _ => ?_⟩, ?_⟩
  · change (inbox.foldl VenueVertex.readMessage u).tick + 1 = _
    rw [foldl_readMessage_tick, htick]
    exact (UInt32.ofNat_add k 1).symm
  · change (inbox.foldl VenueVertex.readMessage u).rng.tail = _
    rw [VenueVertex.foldl_readMessage_rng, hrng, Stream'.tail_drop']
  · exact move_spread _
  · refine ⟨u'.bestBid, u'.bidSize, u'.askSize, ?_⟩
    have hedges : x.edges = venueEdges p (levels p) (makers p) v := after.edges
    have hid : x.id = v := after.id
    change x.edges.map (x.stamp (u'.nbbo k)) = _
    rw [hedges]
    apply List.map_congr_left
    intro edge _
    simp only [Vertex.stamp, VenueVertex.nbbo, Message.plain, hid, move_spread, hu']

theorem venueAfter_load {v : Nat} : VenueAfter p d 0 v
    (venueVertex p d (venueEdges p (levels p) (makers p) v) v) where
  active := rfl
  empty := rfl
  id := rfl
  edges := rfl
  state := ⟨_, rfl, rfl, rfl, fun h => absurd h (Nat.lt_irrefl 0)⟩

/-- What has become of a venue in a run: it was called once in each superstep. -/
theorem venue_of_execution (order : loaded.Perm (vertices p d)) (workers : 0 < config.workerCount)
    {v : Nat} (hv : v < venues p)
    (exec : GraphEngine.Execution BookState.compute (GraphEngine.load config loaded) trs k e) :
    (∃ w, (e.workers (v % config.workerCount)).vertices.lookup v = some w ∧ VenueAfter p d k v w) ∧
      ∀ s tr, trs[s]? = some tr →
        (∃ inbox, inputsIn v s tr = [(inbox, s)]) ∧ IsQuoteOf p s v (sentBy v tr) := by
  have hmem : venueVertex p d (venueEdges p (levels p) (makers p) v) v ∈ vertices p d :=
    mem_vertices.mpr (.inl ⟨v, hv, rfl⟩)
  induction k generalizing trs e with
  | zero =>
      obtain rfl := exec.eq_of_zero
      obtain rfl := List.eq_nil_of_length_eq_zero exec.length_eq
      exact ⟨⟨_, lookup_vertices order config hmem, venueAfter_load⟩, fun s tr hs => by cases hs⟩
  | succ k ih =>
      obtain ⟨trs', tr, timing, e₁, rfl, exec', run⟩ := exec.exists_last
      obtain ⟨⟨w, hw, after⟩, hbefore⟩ := ih exec'
      have hload : v ∈ ((GraphEngine.load config loaded).workers
          (v % config.workerCount)).vertices := mem_load_vertices order config hmem
      rcases GraphEngine.superstep_loaded exec' run (Nat.mod_lt v workers) hload hw after.empty with
        ⟨⟨halted, -⟩, -⟩ | ⟨-, hin, hsent, hafter⟩
      · rw [after.active] at halted
        cases halted
      · obtain ⟨hnext, hquote⟩ := after.next (GraphEngine.mail (v % config.workerCount) v trs')
        refine ⟨⟨_, hafter, hnext⟩, fun s tr' hs => ?_⟩
        rcases List.getElem?_concat_eq_some_iff.mp hs with hs | ⟨rfl, rfl⟩
        · exact hbefore s tr' hs
        · rw [exec'.length_eq, hin, hsent]
          exact ⟨⟨_, rfl⟩, hquote⟩

/-- **The clock of a venue.** Take any graph that the builder makes and any run of it on any
number of workers, with their vertex maps in any order. A venue computes once in every superstep
of it, has drawn once from its generator in each, and is never halted; in each superstep it
sends one quote, with a spread of four ticks, over all of its edges. -/
theorem venue_clock (p : OrderBookGraphParams) (d : Draws) {g : GraphData}
    (built : buildOrderBookGraph p d = .ok g) (config : EngineConfig)
    (workers : 0 < config.workerCount) {v : Nat} (hv : v < venues p)
    (order : (GraphEngine.load config g.vertices).Reordered e₀)
    (exec : GraphEngine.Execution BookState.compute e₀ trs k e) :
    (∃ w, (e.workers (v % config.workerCount)).vertices.lookup v = some w ∧ VenueAfter p d k v w) ∧
      ∀ s tr, trs[s]? = some tr →
        (∃ inbox, inputsIn v s tr = [(inbox, s)]) ∧ IsQuoteOf p s v (sentBy v tr) := by
  obtain ⟨loaded, perm, rfl⟩ := exists_perm_of_built built order
  exact venue_of_execution perm workers hv exec

/-- The venue of a bid and an ask after three supersteps. -/
theorem venue_clock_quad : ∃ (trs : List (List (WorkerId × Event Message))) (w : _),
    GraphEngine.Execution BookState.compute
      (GraphEngine.load { workerCount := 1 } quadGraph.vertices) trs 3 (quadAfter 3) ∧
    ((quadAfter 3).workers 0).vertices.lookup 0 = some w ∧ VenueAfter quad .still 3 0 w ∧
    ∀ s tr, trs[s]? = some tr → IsQuoteOf quad s 0 (sentBy 0 tr) := by
  obtain ⟨trs, exec⟩ := quad_execution 3
  obtain ⟨⟨w, hw, after⟩, quotes⟩ := venue_clock quad .still quad_built { workerCount := 1 }
    Nat.one_pos (v := 0) Nat.one_pos (.refl _) exec
  exact ⟨trs, w, exec, hw, after, fun s tr hs => (quotes s tr hs).2⟩

/-! ### The loop of the coordinator -/

/-- The venues are among the active vertices. -/
theorem venues_le_totalActive (order : loaded.Perm (vertices p d))
    (workers : 0 < config.workerCount)
    (exec : GraphEngine.Execution BookState.compute (GraphEngine.load config loaded) trs k e) :
    venues p ≤ e.totalActive := by
  have hconfig : e.config = config := by
    rw [(GraphEngine.execution_frame exec).1, GraphEngine.load_config]
  have hfiber : ((List.range config.workerCount).map fun i =>
      (List.range (venues p)).countP fun v => v % config.workerCount = i).sum = venues p := by
    rw [List.sum_countP_fiber fun v _ => Nat.mod_lt v workers, List.length_range]
  rw [GraphEngine.totalActive, hconfig, ← hfiber]
  apply List.sum_le_sum
  intro i _
  -- the venues on worker `i` are among its active vertices
  set own := (List.range (venues p)).filter fun v => v % config.workerCount = i
  set active := ((e.workers i).vertices.entries.filter fun a => !a.2.halted).map Sigma.fst
  have hsubset : own ⊆ active := by
    intro v hv
    obtain ⟨hv, hhome⟩ := List.mem_filter.mp hv
    obtain ⟨⟨w, hw, after⟩, -⟩ := venue_of_execution order workers (List.mem_range.mp hv) exec
    rw [of_decide_eq_true hhome] at hw
    refine List.mem_map.mpr ⟨⟨v, w⟩, List.mem_filter.mpr ⟨?_, ?_⟩, rfl⟩
    · exact AList.lookup_eq_some_iff.mp hw
    · simp [after.active]
  have hnodup : own.Nodup := List.nodup_range.filter _
  have hle := (List.subperm_of_subset hnodup hsubset).length_le
  rw [List.length_map, ← List.countP_eq_length_filter, ← List.countP_eq_length_filter] at hle
  exact hle

open Coordinator (traces)

/-- The coordinator after some events, started on `e₀`: it has not stopped early. -/
structure Busy (p : OrderBookGraphParams) (config : EngineConfig)
    (e₀ : GraphEngine BookState Message) (ls : List (Coordinator.Event Message))
    (c : Coordinator BookState Message) : Prop where
  execution : GraphEngine.Execution BookState.compute e₀ (traces ls) (traces ls).length c.engine
  running : ∀ s, c.phase = .running s → s = (traces ls).length
  bounded : (traces ls).length ≤ config.maxSupersteps
  unconverged : ∀ s, c.phase ≠ .converged s
  exhausted : c.phase = .exhausted → (traces ls).length = config.maxSupersteps
  processed : venues p * (traces ls).length ≤ c.totalVerticesProcessed

theorem Busy.next (order : loaded.Perm (vertices p d)) (workers : 0 < config.workerCount)
    (venue : 0 < venues p) {ls : List (Coordinator.Event Message)}
    {c c' : Coordinator BookState Message} {l : Coordinator.Event Message}
    (busy : Busy p config (GraphEngine.load config loaded) ls c)
    (hstep : Coordinator.Step BookState.compute c l c') :
    Busy p config (GraphEngine.load config loaded) (ls ++ [l]) c' := by
  have hconfig : c.engine.config = config := by
    rw [(GraphEngine.execution_frame busy.execution).1, GraphEngine.load_config]
  have htraces : traces (ls ++ [l]) = traces ls ++ traces [l] := List.filterMap_append
  cases hstep with
  | @superstep step timing tr e running more run =>
      obtain rfl := busy.running step running
      have hmore : (traces ls).length + 1 ≤ config.maxSupersteps := hconfig ▸ more
      have hexec := busy.execution.next run
      have hactive := venues_le_totalActive order workers hexec
      -- the venues keep the loop going
      have hphase : (if e.totalActive = 0 then Coordinator.Phase.converged (traces ls).length
          else .running ((traces ls).length + 1)) = .running ((traces ls).length + 1) :=
        if_neg (Nat.ne_of_gt (Nat.lt_of_lt_of_le venue hactive))
      have hlength : (traces (ls ++ [.superstep timing tr])).length = (traces ls).length + 1 := by
        rw [htraces, List.length_append]
        rfl
      rw [hphase]
      refine ⟨?_, fun s hs => ?_, ?_, fun s hs => ?_, fun hs => ?_, ?_⟩
      · rw [hlength, htraces]
        exact hexec
      · rw [hlength]
        exact (Coordinator.Phase.running.inj hs).symm
      · rw [hlength]
        exact hmore
      · cases hs
      · cases hs
      · rw [hlength, Nat.mul_succ]
        exact Nat.add_le_add busy.processed hactive
  | @exhausted step running nomore =>
      obtain rfl := busy.running step running
      have hsame : traces (ls ++ [.exhausted]) = traces ls := htraces.trans (List.append_nil _)
      have hlast : (traces ls).length = config.maxSupersteps :=
        Nat.le_antisymm busy.bounded (hconfig ▸ Nat.le_of_not_lt nomore)
      refine ⟨?_, fun s hs => ?_, ?_, fun s hs => ?_, fun _ => ?_, ?_⟩
      · rw [hsame]
        exact busy.execution
      · cases hs
      · rw [hsame]
        exact busy.bounded
      · cases hs
      · rw [hsame]
        exact hlast
      · rw [hsame]
        exact busy.processed
  | failure failed =>
      have hsame : traces (ls ++ [.failure failed]) = traces ls := htraces.trans (List.append_nil _)
      refine ⟨?_, ?_, ?_, busy.unconverged, ?_, ?_⟩
      all_goals rw [hsame]
      · exact busy.execution
      · exact busy.running
      · exact busy.bounded
      · exact busy.exhausted
      · exact busy.processed

/-- **An order book with a venue never converges.** Take any graph that the builder makes with
a venue, and any run of the coordinator on it, with any number of workers, their vertex maps in
any order, any timing and any failures reported. It has not converged; if it has come to its
end, it has gone through all `max_supersteps` rounds; and in each of them every venue was
active. -/
theorem book_never_converges (p : OrderBookGraphParams) (d : Draws) {g : GraphData}
    (built : buildOrderBookGraph p d = .ok g) (venue : 0 < venues p) (config : EngineConfig)
    (workers : 0 < config.workerCount)
    (order : (GraphEngine.load config g.vertices).Reordered e₀)
    {ls : List (Coordinator.Event Message)} {c : Coordinator BookState Message}
    (run : Run (Coordinator.Step BookState.compute) { engine := e₀ } ls c) :
    Busy p config e₀ ls c := by
  obtain ⟨loaded, perm, rfl⟩ := exists_perm_of_built built order
  refine run.invariant_history (Busy p config _) (fun _ _ _ _ busy => busy.next perm workers venue) ?_
  refine ⟨.nil _, fun s hs => ?_, Nat.zero_le _, fun s hs => ?_, fun hs => ?_, Nat.zero_le _⟩
  · cases hs
    rfl
  · cases hs
  · cases hs

/-! ### The program -/

/-- What an argument does to the number of rounds. -/
theorem readOption_steps {cfg cfg' : EngineConfig} {arg value : String}
    (h : cfg.readOption arg value = some cfg') : cfg'.maxSupersteps =
      if arg = "--steps" then toUint32 (atoi value) else cfg.maxSupersteps := by
  unfold EngineConfig.readOption at h
  split at h
  · next hworkers =>
      cases h
      simp [hworkers]
  · split at h
    · next hsteps =>
        cases h
        simp [hsteps]
    · next hsteps =>
        split at h
        · cases h
          simp [hsteps]
        · cases h

theorem readFlag_steps {cfg cfg' : EngineConfig} {arg : String}
    (h : cfg.readFlag arg = some cfg') : cfg'.maxSupersteps = cfg.maxSupersteps := by
  unfold EngineConfig.readFlag at h
  split at h
  · cases h
    rfl
  · split at h
    · cases h
      rfl
    · split at h
      · cases h
      · cases h
        rfl

/-- The number of rounds is the last one given, or that of `cfg`. -/
theorem readArgs_steps {cfg cfg' : EngineConfig} {args : List String}
    (h : readArgs cfg args = some cfg') :
    cfg'.maxSupersteps = (lastNumber "--steps" args).getD cfg.maxSupersteps := by
  fun_induction readArgs cfg args with
  | case1 cfg =>
      cases h
      rfl
  | case2 cfg arg => exact readFlag_steps h
  | case3 cfg arg value rest cfg₁ hoption ih =>
      obtain ⟨option, -⟩ := readOption_counts hoption
      rw [ih h, readOption_steps hoption, lastNumber_option _ _ _ option]
      cases lastNumber "--steps" rest with
      | some n => rfl
      | none => by_cases harg : arg = "--steps" <;> simp [harg]
  | case4 cfg arg value rest hoption cfg₁ hflag ih =>
      rw [ih h, readFlag_steps hflag, lastNumber_flag _ _ _ (readOption_none hoption)]
  | case5 => cases h

theorem readArgs_workers_lt {args : List String} {config : EngineConfig}
    (hargs : readArgs {} args = some config) : config.workerCount < 2 ^ 32 := by
  obtain ⟨hworkers, -⟩ := readArgs_counts hargs
  rw [hworkers, lastNumber]
  cases ((options args).filter fun o => o.1 = "--workers").getLast? with
  | none => exact (by decide : (4 : Nat) < 2 ^ 32)
  | some o =>
      have hlt : (atoi o.2 % 2 ^ 32).toNat < 2 ^ 32 := by omega
      exact hlt

/-- **The program never converges.** Take any command line that `main` runs with, any draws
and any run of the coordinator on what `main` has started, with the vertex maps in any order. It
has not converged; it has gone through as many rounds as `--steps` says, or 100, or it is still
at it; and the five venues were active in every one. -/
theorem main_never_converges {args : List String} {config : EngineConfig}
    (hargs : readArgs {} args = some config) {concurrency : Nat} {d : Draws}
    {scheduler : Scheduler.Config} {e : GraphEngine BookState Message}
    (started : GraphEngine.start concurrency d config = .ok (scheduler, e))
    (order : e.Reordered e₀)
    {ls : List (Coordinator.Event Message)} {c : Coordinator BookState Message}
    (run : Run (Coordinator.Step BookState.compute) { engine := e₀ } ls c) :
    (∀ s, c.phase ≠ .converged s) ∧
      (c.phase = .exhausted → (traces ls).length = (lastNumber "--steps" args).getD 100) ∧
      5 * (traces ls).length ≤ c.totalVerticesProcessed := by
  have hworkers : config.workerCount ≠ 0 := by
    intro hzero
    rw [GraphEngine.start_of_zero concurrency d (.inl hzero)] at started
    cases started
  have hnodes : config.numaNodes ≠ 0 := by
    intro hzero
    rw [GraphEngine.start_of_zero concurrency d (.inr hzero)] at started
    cases started
  have hbounded := readArgs_workers_lt hargs
  obtain ⟨scheduler', hstart, -⟩ := GraphEngine.start_eq concurrency d hworkers hbounded hnodes
  rw [hstart] at started
  cases started
  have hpositive : workers (GraphEngine.graphParams config) ≠ 0 := by
    rw [workers, GraphEngine.graphParams, UInt32.toNat_ofNat_of_lt' hbounded]
    exact hworkers
  obtain ⟨b, hrun, hvertices, -⟩ := run_eq d hpositive
  have busy := book_never_converges _ d (buildOrderBookGraph_eq hrun) (by decide : 0 < 5) config
    (Nat.pos_of_ne_zero hworkers) (hvertices ▸ order) run
  exact ⟨busy.unconverged, fun h => (busy.exhausted h).trans (readArgs_steps hargs), busy.processed⟩

/-- One round: the loop ends because there are no more rounds. -/
theorem main_never_converges_one : ∃ config scheduler e ls c,
    readArgs {} ["--workers", "2", "--steps", "1"] = some config ∧
      GraphEngine.start 8 .still config = .ok (scheduler, e) ∧
      Run (Coordinator.Step BookState.compute) { engine := e } ls c ∧ c.phase = .exhausted ∧
      (traces ls).length = 1 ∧ 5 ≤ c.totalVerticesProcessed := by
  have hargs : readArgs {} ["--workers", "2", "--steps", "1"] =
      some { workerCount := 2, maxSupersteps := 1 } := by
    decide +kernel
  obtain ⟨scheduler, started, -⟩ := GraphEngine.start_eq 8 .still
    (show ({ workerCount := 2, maxSupersteps := 1 } : EngineConfig).workerCount ≠ 0 by decide)
    (by decide) (by decide)
  generalize vertices (GraphEngine.graphParams { workerCount := 2, maxSupersteps := 1 }) .still = vs
    at started
  have nodes : ∀ i, 0 < ((GraphEngine.load { workerCount := 2, maxSupersteps := 1 } vs).workers
      i).config.numaNodes := GraphEngine.load_nodes Nat.two_pos vs
  have hconfig := GraphEngine.load_config { workerCount := 2, maxSupersteps := 1 } vs
  generalize GraphEngine.load { workerCount := 2, maxSupersteps := 1 } vs = e at started nodes hconfig
  obtain ⟨tr, round⟩ := GraphEngine.exists_superstepRun BookState.compute 0 (fun _ _ => 0)
    fun i _ => nodes i
  have round' : GraphEngine.Execution BookState.compute e [tr] 1 _ := .one ⟨rfl, _, round⟩
  have hconfig₁ := (GraphEngine.execution_frame round').1
  obtain ⟨c₁, first, hc₁, hphase⟩ : ∃ c₁, Coordinator.Step BookState.compute { engine := e }
      (.superstep (fun _ _ => 0) tr) c₁ ∧ c₁.engine.config = e.config ∧
        (c₁.phase = .converged 0 ∨ c₁.phase = .running 1) := by
    refine ⟨_, .superstep rfl (by rw [hconfig]; exact Nat.one_pos) round, hconfig₁, ?_⟩
    exact ite_eq_or_eq _ _ _
  obtain ⟨unconverged, -, processed⟩ := main_never_converges hargs started (.refl e) (.one first)
  have running := hphase.resolve_left (unconverged 0)
  obtain ⟨c₂, last, hend, htotal⟩ : ∃ c₂, Coordinator.Step BookState.compute c₁ .exhausted c₂ ∧
      c₂.phase = .exhausted ∧ c₂.totalVerticesProcessed = c₁.totalVerticesProcessed :=
    ⟨_, .exhausted running (by rw [hc₁, hconfig]; exact Nat.lt_irrefl 1), rfl, rfl⟩
  refine ⟨_, scheduler, e, _, c₂, hargs, started, .cons first (.one last), hend, rfl, ?_⟩
  rw [htotal]
  exact processed

end OrderBook

end Pregel
