import Pregel.Ledger
import Pregel.Termination

/-!
What `Coordinator::run` prints (`coordinator.cpp`).

A round of the loop prints a line of a table and passes the number of the superstep and the
number of active vertices to a callback. After the loop a summary adds up the statistics of the
workers. Times and rates are left out, and so are `rdma_ops` and `latency_spike_count` of the
workers, to which nothing is ever added.

* `Row`, `report`: the table.
* `Summary`, `printSummary`: the numbers of the summary.
* `report_of_run`: what the table and the summary show, in any run.
* `wokenIn`, `computed_balance`: what the total of the active vertices says about the calls of
  `compute`.
-/

namespace Pregel

open Lts
open WorkerNode (Event)

namespace GraphEngine

variable {σ μ : Type}

/-- The sum of a statistic over the workers. -/
def sumStats (e : GraphEngine σ μ) (stat : WorkerStats → Nat) : Nat :=
  ((List.range e.config.workerCount).map fun i => stat (e.workers i).stats).sum

end GraphEngine

namespace Coordinator

open GraphEngine (activeAfter computedIn load collectedIn)

/-- A line that `print_superstep_stats` prints. -/
structure Row where
  superstep : Superstep
  active : Nat
  msgs : Nat
  deriving DecidableEq, Repr

/-- What a run has printed, and `current_step_`. -/
structure Report where
  currentStep : Superstep := 0
  rows : List Row := []
  deriving DecidableEq, Repr

/-- The numbers that `print_summary` prints. -/
structure Summary where
  workers : Nat
  supersteps : Nat
  vertices : Nat
  messages : Nat
  migrations : Nat
  deriving DecidableEq, Repr

variable {σ μ : Type}

/-- `Coordinator::print_superstep_stats`. -/
def superstepStats (c : Coordinator σ μ) (step : Superstep) : Row where
  superstep := step
  active := c.engine.totalActive
  msgs := c.engine.sumStats WorkerStats.messagesSent

/-- `Coordinator::print_summary`. -/
def printSummary (c : Coordinator σ μ) (r : Report) : Summary where
  workers := c.engine.config.workerCount
  supersteps := r.currentStep + 1
  vertices := c.engine.sumStats WorkerStats.verticesProcessed
  messages := c.engine.sumStats WorkerStats.messagesSent
  migrations := c.engine.sumStats WorkerStats.migrationsPerformed

/-- What a step prints. -/
def report (c : Coordinator σ μ) (l : Event μ) (c' : Coordinator σ μ) (r : Report) : Report :=
  match l, c.phase with
  | .superstep _ _, .running step =>
      { currentStep := step, rows := r.rows ++ [c'.superstepStats step] }
  | _, _ => r

theorem report_superstep {c : Coordinator σ μ} {step : Superstep} (running : c.phase = .running step)
    (timing : WorkerId → WorkerId → Nat) (tr : List (WorkerId × WorkerNode.Event μ))
    (c' : Coordinator σ μ) (r : Report) : c.report (.superstep timing tr) c' r =
      { currentStep := step, rows := r.rows ++ [c'.superstepStats step] } := by
  simp only [report, running]

section Runs

variable [Addressed μ] {compute : Compute σ μ}

/-- A step of the coordinator, with what it prints. -/
def ReportedStep (compute : Compute σ μ) (s : Coordinator σ μ × Report) (l : Event μ)
    (t : Coordinator σ μ × Report) : Prop :=
  Step compute s.1 l t.1 ∧ t.2 = report s.1 l t.1 s.2

/-- Every run prints something. -/
theorem reported_of_run {c c' : Coordinator σ μ} {ls : List (Event μ)}
    (run : Run (Step compute) c ls c') (r : Report) :
    ∃ r', Run (ReportedStep compute) (c, r) ls (c', r') := by
  induction run generalizing r with
  | nil c => exact ⟨r, .nil _⟩
  | @cons c c₁ _ l _ hstep _ ih =>
      obtain ⟨r', rest⟩ := ih (c.report l c₁ r)
      exact ⟨r', .cons ⟨hstep, rfl⟩ rest⟩

/-- The messages that `W` workers have collected in some supersteps. -/
def sentOver (W : Nat) (trs : List (List (WorkerId × WorkerNode.Event μ))) : Nat :=
  ((List.range W).map fun i => (trs.map fun tr => (collectedIn i tr).length).sum).sum

/-- The calls of `compute` that they have made. -/
def computedOver (W : Nat) (trs : List (List (WorkerId × WorkerNode.Event μ))) : Nat :=
  ((List.range W).map fun i => (trs.map (computedIn i)).sum).sum

section Totals

variable {config : EngineConfig} {vertices : List (Vertex σ μ)} {ls : List (Event μ)}
  {c : Coordinator σ μ} {r : Report}

/-- The statistics of all workers together. -/
theorem sumStats_of_execution {trs : List (List (WorkerId × WorkerNode.Event μ))} {k : Nat}
    {e : GraphEngine σ μ} (exec : GraphEngine.Execution compute (load config vertices) trs k e) :
    e.sumStats WorkerStats.messagesSent = sentOver config.workerCount trs ∧
      e.sumStats WorkerStats.verticesProcessed = computedOver config.workerCount trs ∧
      e.sumStats WorkerStats.migrationsPerformed = 0 := by
  have hconfig : e.config = config := by
    rw [(GraphEngine.execution_frame exec).1, GraphEngine.load_config]
  have hledger := fun i (hi : i ∈ List.range config.workerCount) =>
    exec.ledger (List.mem_range.mp hi)
  unfold GraphEngine.sumStats sentOver computedOver
  rw [hconfig]
  refine ⟨?_, ?_, ?_⟩
  · exact congrArg List.sum (List.map_congr_left fun i hi => (hledger i hi).collected)
  · exact congrArg List.sum (List.map_congr_left fun i hi => (hledger i hi).processed)
  · apply List.sum_eq_zero
    intro x hx
    obtain ⟨i, hi, rfl⟩ := List.mem_map.mp hx
    exact (hledger i hi).migrations

/-- The line for superstep `s`. -/
def rowOf (compute : Compute σ μ) (config : EngineConfig) (vertices : List (Vertex σ μ))
    (trs : List (List (WorkerId × WorkerNode.Event μ))) (s : Superstep) : Row :=
  ⟨s, activeAfter compute config vertices s, sentOver config.workerCount (trs.take (s + 1))⟩

/-- What has been printed after `n` supersteps. -/
structure Printed (compute : Compute σ μ) (config : EngineConfig) (vertices : List (Vertex σ μ))
    (trs : List (List (WorkerId × WorkerNode.Event μ))) (n : Nat) (r : Report) : Prop where
  rows : r.rows = (List.range n).map (rowOf compute config vertices trs)
  current : r.currentStep + 1 = max 1 n

/-- Another line. -/
theorem Printed.next {trs : List (List (WorkerId × WorkerNode.Event μ))} {k : Nat}
    {tr : List (WorkerId × WorkerNode.Event μ)} (printed : Printed compute config vertices trs k r)
    {c : Coordinator σ μ} (exec : GraphEngine.Execution compute (load config vertices) (trs ++ [tr])
      (k + 1) c.engine) (length : trs.length = k) :
    Printed compute config vertices (trs ++ [tr]) (k + 1)
      { currentStep := k, rows := r.rows ++ [c.superstepStats k] } where
  rows := by
    have hlast : c.superstepStats k = rowOf compute config vertices (trs ++ [tr]) k := by
      rw [superstepStats, GraphEngine.totalActive_of_execution exec, (sumStats_of_execution exec).1,
        rowOf, List.take_of_length_le (by simp [length])]
    have hbefore : (List.range k).map (rowOf compute config vertices trs) =
        (List.range k).map (rowOf compute config vertices (trs ++ [tr])) := by
      apply List.map_congr_left
      intro s hs
      have hle : s + 1 ≤ trs.length := length ▸ List.mem_range.mp hs
      rw [rowOf, rowOf, List.take_append_of_le_length hle]
    rw [printed.rows, hbefore, hlast, List.range_succ, List.map_append]
    rfl
  current := (Nat.max_eq_right (Nat.succ_le_succ (Nat.zero_le k))).symm

theorem printed_step (run : Run (Step compute) { engine := load config vertices } ls c)
    (printed : Printed compute config vertices (traces ls)
      (c.phase.supersteps config.maxSupersteps) r) {l : Event μ} {c' : Coordinator σ μ}
    (hstep : Step compute c l c') : Printed compute config vertices (traces (ls ++ [l]))
      (c'.phase.supersteps config.maxSupersteps) (c.report l c' r) := by
  obtain ⟨exec, counted⟩ := outcome_of_run run
  have hconfig : c.engine.config = config := by
    rw [(GraphEngine.execution_frame exec).1, GraphEngine.load_config]
  have hexec := (outcome_of_run (run.append (.one hstep))).1
  have htraces : traces (ls ++ [l]) = traces ls ++ traces [l] := List.filterMap_append
  rw [htraces] at hexec ⊢
  cases hstep with
  | @superstep step timing tr e running more superstep =>
      rw [running] at printed exec
      have hphase : (if e.totalActive = 0 then Phase.converged step
          else .running (step + 1)).supersteps config.maxSupersteps = step + 1 := by
        split <;> rfl
      rw [hphase] at hexec ⊢
      rw [report_superstep running]
      exact printed.next hexec exec.length_eq
  | @exhausted step running nomore =>
      rw [running] at printed counted
      obtain rfl : step = config.maxSupersteps :=
        Nat.le_antisymm counted.1 (not_lt.mp (hconfig ▸ nomore))
      change Printed compute config vertices (traces ls ++ []) config.maxSupersteps r
      rw [List.append_nil]
      exact printed
  | failure =>
      change Printed compute config vertices (traces ls ++ []) _ r
      rw [List.append_nil]
      exact printed

/-- **What a run prints.** In any run of the coordinator over a graph, the table has one line for
each superstep, in order, with the number of vertices that are active after it. The column of
the messages does not show the messages of the step but all that were collected up to it. The
summary shows the number of supersteps, or 1 if there were none, and what the workers have
computed and collected in all of them. -/
theorem report_of_run
    (run : Run (ReportedStep compute) ({ engine := load config vertices }, {}) ls (c, r)) :
    r.rows = (List.range (c.phase.supersteps config.maxSupersteps)).map
        (rowOf compute config vertices (traces ls)) ∧
      c.printSummary r =
        { workers := config.workerCount
          supersteps := max 1 (c.phase.supersteps config.maxSupersteps)
          vertices := computedOver config.workerCount (traces ls)
          messages := sentOver config.workerCount (traces ls)
          migrations := 0 } := by
  set start : Coordinator σ μ := { engine := load config vertices }
  obtain ⟨hrun, printed⟩ : Run (Step compute) start ls c ∧ Printed compute config vertices
      (traces ls) (c.phase.supersteps config.maxSupersteps) r := by
    refine run.invariant_history (fun ls (s : Coordinator σ μ × Report) =>
      Run (Step compute) start ls s.1 ∧ Printed compute config vertices (traces ls)
        (s.1.phase.supersteps config.maxSupersteps) s.2) ?_ ⟨.nil _, rfl, rfl⟩
    rintro ls ⟨c, r⟩ l ⟨c', r'⟩ ⟨run, printed⟩ ⟨hstep, hreport⟩
    obtain rfl : r' = report c l c' r := hreport
    exact ⟨run.append (.one hstep), printed_step run printed hstep⟩
  obtain ⟨exec, -⟩ := outcome_of_run hrun
  obtain ⟨hsent, hcomputed, hmigrations⟩ := sumStats_of_execution exec
  refine ⟨printed.rows, ?_⟩
  rw [printSummary, printed.current, hsent, hcomputed, hmigrations,
    (GraphEngine.execution_frame exec).1, GraphEngine.load_config]

end Totals

end Runs

/-- The two vertices on one worker: one superstep, two messages. -/
theorem report_of_run_pair : ∃ c : Coordinator Nat Message, ∃ r trs,
    c.phase = .converged 0 ∧
      r.rows = [rowOf GraphEngine.pingPong { workerCount := 1 } GraphEngine.pairVertices trs 0] ∧
      (c.printSummary r).supersteps = 1 ∧ (c.printSummary r).messages = 2 := by
  have nodes : ∀ i < (GraphEngine.pair { workerCount := 1 }).config.workerCount,
      0 < ((GraphEngine.pair { workerCount := 1 }).workers i).config.numaNodes :=
    fun i _ => GraphEngine.load_nodes Nat.two_pos _ i
  obtain ⟨tr, superstep⟩ :=
    GraphEngine.superstepRun_supersteps GraphEngine.pingPong (fun _ _ _ => 0) nodes 0
  have run : Run (Step GraphEngine.pingPong)
      { engine := load { workerCount := 1 } GraphEngine.pairVertices } [_] _ :=
    .one (.superstep rfl (by decide) superstep)
  obtain ⟨r, reported⟩ := reported_of_run run {}
  obtain ⟨hrows, hsummary⟩ := report_of_run reported
  have hmessages : ((GraphEngine.pair { workerCount := 1 }).supersteps GraphEngine.pingPong
      (fun _ _ _ => 0) 1).sumStats WorkerStats.messagesSent = 2 := by
    decide
  exact ⟨_, r, _, rfl, hrows, congrArg Summary.supersteps hsummary, hmessages⟩

end Coordinator

/-! ### Active vertices and calls of `compute` -/

namespace Core

variable {σ μ : Type} [Addressed μ]

/-- The number of halted vertices that have mail. -/
def woken (c : Core σ μ) : Nat :=
  c.vertices.entries.countP fun e => e.2.halted && !(c.inbox.filter fun m => dst m = e.1).isEmpty

/-- The vertices that a superstep computes: those that are active and those that it wakes. -/
theorem length_taskIds {pmap : PartitionMap} {i : WorkerId} {n : WorkerNode σ μ}
    (h : WorkerNode.AtBoundary pmap i n) (timing : WorkerId → Nat) :
    (n.receive timing).taskIds.length = n.core.active + n.core.woken := by
  have hskips : ∀ e ∈ n.vertices.entries, (!(n.receive timing).skips e.1 e.2) =
      (!e.2.halted || (e.2.halted && !(n.bus.inbox.filter fun m => dst m = e.1).isEmpty)) := by
    intro e he
    rw [WorkerNode.skips, WorkerNode.receive_own h (AList.mem_of_mem_entries he)]
    cases n.bus.inbox.filter (fun m => dst m = e.1) with
    | nil => cases e.2.halted <;> rfl
    | cons m ms => cases e.2.halted <;> rfl
  have hsplit : ∀ (halted mail : (Sigma fun _ : VertexId => Vertex σ μ) → Bool)
      (es : List (Sigma fun _ : VertexId => Vertex σ μ)),
      (es.countP fun e => !halted e || (halted e && mail e)) =
        (es.countP fun e => !halted e) + es.countP fun e => halted e && mail e := by
    intro halted mail es
    induction es with
    | nil => rfl
    | cons e es ih =>
        rw [List.countP_cons, List.countP_cons, List.countP_cons, ih]
        cases halted e <;> cases mail e <;> simp <;> omega
  rw [WorkerNode.taskIds_eq, List.length_map, ← List.countP_eq_length_filter,
    WorkerNode.receive_vertices, active, woken, ← hsplit]
  exact List.countP_congr fun e he => iff_of_eq (congrArg (· = true) (hskips e he))

end Core

namespace GraphEngine

variable {σ μ : Type} [Addressed μ] {compute : Compute σ μ} {config : EngineConfig}
  {vertices : List (Vertex σ μ)} {trs : List (List (WorkerId × Event μ))} {k n : Nat}
  {e : GraphEngine σ μ}

/-- The number of halted vertices that superstep `s` wakes. -/
def wokenIn (compute : Compute σ μ) (config : EngineConfig) (vertices : List (Vertex σ μ))
    (s : Superstep) : Nat :=
  ((List.range config.workerCount).map fun i =>
    (((load config vertices).workers i).core.run (load config vertices).pmap i compute s).woken).sum

/-- A superstep computes the vertices that are active before it and those that it wakes. -/
theorem sum_computedIn {timing : WorkerId → WorkerId → Nat} {tr : List (WorkerId × Event μ)}
    {e' : GraphEngine σ μ} (exec : Execution compute (load config vertices) trs k e)
    (run : SuperstepRun compute k timing e tr e') :
    ((List.range config.workerCount).map fun i => computedIn i tr).sum =
      e.totalActive + wokenIn compute config vertices k := by
  have hconfig : e.config = config := by rw [(execution_frame exec).1, load_config]
  rw [totalActive, wokenIn, hconfig, ← List.sum_map_add]
  congr 1
  apply List.map_congr_left
  intro i hi
  have hi := List.mem_range.mp hi
  obtain ⟨hbound, hcore⟩ := execution_core exec hi
  rw [computedIn, (WorkerNode.calls_of_run (worker_run run (hconfig ▸ hi))).length_eq,
    List.length_map, Core.length_taskIds hbound, ← hcore]
  rfl

/-- The calls of `compute` in a run. -/
theorem computedOver_of_execution (exec : Execution compute (load config vertices) trs k e) :
    Coordinator.computedOver config.workerCount trs + e.totalActive =
      (load config vertices).totalActive +
        ∑ s ∈ Finset.range k, (activeAfter compute config vertices s +
          wokenIn compute config vertices s) := by
  induction k generalizing trs e with
  | zero =>
      obtain rfl := List.eq_nil_of_length_eq_zero exec.length_eq
      obtain rfl := exec.eq_of_zero
      simp [Coordinator.computedOver]
  | succ k ih =>
      have hactive := totalActive_of_execution exec
      obtain ⟨trs', tr, timing, e₀, rfl, exec', run⟩ := exec.exists_last
      have hcomputed : Coordinator.computedOver config.workerCount (trs' ++ [tr]) =
          Coordinator.computedOver config.workerCount trs' +
            ((List.range config.workerCount).map fun i => computedIn i tr).sum := by
        unfold Coordinator.computedOver
        rw [← List.sum_map_add]
        congr 1
        apply List.map_congr_left
        intro i _
        simp
      rw [hcomputed, sum_computedIn exec' run, hactive, Finset.sum_range_succ, ← Nat.add_assoc _ _ (_ + _),
        ← ih exec']
      omega

end GraphEngine

namespace Benchmark

open GraphEngine (wokenIn load)

variable {σ μ : Type} [Addressed μ] {compute : Compute σ μ} {config : EngineConfig}
  {vertices : List (Vertex σ μ)} {trs : List (List (WorkerId × Event μ))} {n : Nat}
  {b : Benchmark σ μ}

/-- **What the benchmark measures.** `total_verts` adds up the vertices that the supersteps leave
active. The number of calls of `compute` differs from it by the vertices that are active at the
start and not at the end, and by the halted ones that messages have woken. -/
theorem computed_balance
    (run : Run (Round compute) (0, { engine := load config vertices }) trs (n, b)) :
    Coordinator.computedOver config.workerCount trs + b.engine.totalActive =
      b.totalVerts + (load config vertices).totalActive +
        ∑ s ∈ Finset.range n, wokenIn compute config vertices s := by
  obtain ⟨exec, htotal⟩ := counts_of_run run
  rw [GraphEngine.computedOver_of_execution exec, htotal, Finset.sum_add_distrib]
  omega

/-- The two vertices on one worker wake each other up: the benchmark counts none of it. -/
theorem computed_balance_pair : ∃ trs : List (List (WorkerId × Event Message)),
    ∃ b : Benchmark Nat Message, b.totalVerts = 0 ∧ Coordinator.computedOver 1 trs = 6 := by
  have nodes : ∀ i < (GraphEngine.pair { workerCount := 1 }).config.workerCount,
      0 < ((GraphEngine.pair { workerCount := 1 }).workers i).config.numaNodes :=
    fun i _ => GraphEngine.load_nodes Nat.two_pos _ i
  obtain ⟨trs, exec⟩ := GraphEngine.execution_supersteps GraphEngine.pingPong (fun _ _ _ => 0)
    nodes 3
  obtain ⟨b, hengine, run⟩ := run_of_execution exec
  have htotal : b.totalVerts = 0 := (counts_of_run run).2.trans (by decide)
  have hbalance := computed_balance run
  have hend : b.engine.totalActive = 0 := hengine ▸ by decide
  have hstart : (load { workerCount := 1 } GraphEngine.pairVertices).totalActive = 2 := by decide
  have hwoken : ∑ s ∈ Finset.range 3,
      wokenIn GraphEngine.pingPong { workerCount := 1 } GraphEngine.pairVertices s = 4 := by
    decide
  rw [htotal, hend, hstart, hwoken] at hbalance
  exact ⟨trs, b, htotal, hbalance⟩

end Benchmark

end Pregel
