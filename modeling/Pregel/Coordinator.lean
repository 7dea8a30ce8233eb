import Pregel.GraphEngine

/-!
The coordinator (`coordinator.hpp`, `coordinator.cpp`): the loop over the supersteps
and the callback for a failed worker.

`Coordinator.Step` has one transition for a round of the loop, one for the end of the
loop without convergence, and one for the callback, which the thread of the failure
detector makes at any time. The callback looks at the vertex counts, chooses a worker
and writes a line about it; it changes nothing in the engine, so that it makes no
difference at which moment of a superstep it comes.

* `execution_of_run`: the rounds of the loop are an execution of the engine.
* `handed_over_iff`, `failed_partition_handed_over`: a callback hands the partition of
  the failed worker over if and only if there is nothing to hand over.
-/

namespace Pregel

open Lts
open WorkerNode (Event)

namespace GraphEngine

variable {σ μ : Type}

/-- The sum of the votes in `Coordinator::run`. -/
def totalActive (e : GraphEngine σ μ) : Nat :=
  ((List.range e.config.workerCount).map fun i => (e.workers i).active).sum

/-- `SIZE_MAX`. -/
def sizeMax : Nat := 2 ^ 64 - 1

/-- One round of the loop of `handle_worker_failure`. -/
def pickOwner (failed : WorkerId) (best : WorkerId × Nat) (n : WorkerNode σ μ) : WorkerId × Nat :=
  if n.id = failed then best
  else if n.vertexCount < best.2 then (n.id, n.vertexCount)
  else best

/-- The worker that `handle_worker_failure` chooses. -/
def newOwner (e : GraphEngine σ μ) (failed : WorkerId) : WorkerId :=
  (((List.range e.config.workerCount).map e.workers).foldl (pickOwner failed) (0, sizeMax)).1

end GraphEngine

namespace Coordinator

/-- Where `Coordinator::run` is. -/
inductive Phase where
  | running (step : Superstep)
  | converged (step : Superstep)
  | exhausted
  deriving DecidableEq, Repr

inductive Event (μ : Type) where
  | superstep (timing : WorkerId → WorkerId → Nat) (tr : List (WorkerId × WorkerNode.Event μ))
  | exhausted
  | failure (failed : WorkerId)

end Coordinator

/-- `Coordinator`, with the engine it drives and the lines it writes to `std::cerr`. -/
structure Coordinator (σ μ : Type) where
  engine : GraphEngine σ μ
  phase : Coordinator.Phase := .running 0
  totalVerticesProcessed : Nat := 0
  log : List String := []

namespace Coordinator

variable {σ μ : Type}

/-- `Coordinator::redistribute_partition`. -/
def redistributePartition (c : Coordinator σ μ) (failed newOwner : WorkerId) : Coordinator σ μ :=
  { c with log := c.log ++ ["[COORDINATOR] Reassigning partition from worker " ++
      toString failed ++ " to worker " ++ toString newOwner ++ "\n"] }

/-- `Coordinator::handle_worker_failure`. -/
def handleWorkerFailure (c : Coordinator σ μ) (failed : WorkerId) : Coordinator σ μ :=
  c.redistributePartition failed (c.engine.newOwner failed)

/-- The callback that the constructor registers with the failure detector. -/
def onFailure (c : Coordinator σ μ) (failed : WorkerId) : Coordinator σ μ :=
  { c with log := c.log ++ ["[COORDINATOR] Worker " ++ toString failed ++
      " detected as FAILED — initiating recovery\n"] }.handleWorkerFailure failed

section Loop

variable [Addressed μ] (compute : Compute σ μ)

/-- The steps of the coordinator. A superstep without an active vertex at its end
leaves the loop through the convergence branch. -/
inductive Step : Coordinator σ μ → Event μ → Coordinator σ μ → Prop where
  | superstep {c : Coordinator σ μ} {step : Superstep} {timing : WorkerId → WorkerId → Nat}
      {tr : List (WorkerId × WorkerNode.Event μ)} {e : GraphEngine σ μ}
      (running : c.phase = .running step) (more : step < c.engine.config.maxSupersteps)
      (run : GraphEngine.SuperstepRun compute step timing c.engine tr e) :
      Step c (.superstep timing tr)
        { c with
          engine := e
          totalVerticesProcessed := c.totalVerticesProcessed + e.totalActive
          phase := if e.totalActive = 0 then .converged step else .running (step + 1) }
  | exhausted {c : Coordinator σ μ} {step : Superstep} (running : c.phase = .running step)
      (nomore : ¬ step < c.engine.config.maxSupersteps) :
      Step c .exhausted { c with phase := .exhausted }
  | failure (c : Coordinator σ μ) (failed : WorkerId) : Step c (.failure failed) (c.onFailure failed)

end Loop

/-- The traces of the supersteps in a run. -/
def traces (ls : List (Event μ)) : List (List (WorkerId × WorkerNode.Event μ)) :=
  ls.filterMap fun
    | .superstep _ tr => some tr
    | _ => none

/-- The workers reported failed in a run. -/
def failures (ls : List (Event μ)) : List WorkerId :=
  ls.filterMap fun
    | .failure failed => some failed
    | _ => none

section Runs

variable [Addressed μ] {compute : Compute σ μ} {c c' : Coordinator σ μ} {ls : List (Event μ)}

/-- A coordinator that is in its loop has been in it all along, and the rounds so far
are consecutive supersteps. -/
theorem supersteps_of_run (run : Run (Step compute) c ls c') {k : Superstep}
    (running : c'.phase = .running k) :
    ∃ j, c.phase = .running j ∧
      Run (GraphEngine.NextSuperstep compute) (j, c.engine) (traces ls) (k, c'.engine) := by
  induction run with
  | nil => exact ⟨k, running, .nil _⟩
  | cons hstep _ ih =>
      obtain ⟨j, hphase, rest⟩ := ih running
      cases hstep with
      | @superstep step timing tr e hrunning _ run =>
          simp only at hphase
          split at hphase
          · cases hphase
          · cases hphase
            exact ⟨step, hrunning, .cons ⟨rfl, timing, run⟩ rest⟩
      | exhausted => cases hphase
      | failure => exact ⟨j, hphase, rest⟩

/-- **The rounds of the loop are an execution of the engine.** -/
theorem execution_of_run {e : GraphEngine σ μ} (run : Run (Step compute) { engine := e } ls c)
    {k : Superstep} (running : c.phase = .running k) :
    GraphEngine.Execution compute e (traces ls) k c.engine := by
  obtain ⟨j, hphase, rest⟩ := supersteps_of_run run running
  cases hphase
  exact rest

end Runs

/-! ### The partition of a failed worker -/

/-- Worker `w` owns vertex `vid`: it has it and messages for it go there. -/
def Owns (e : GraphEngine σ μ) (w : WorkerId) (vid : VertexId) : Prop :=
  e.pmap.ownerOf vid = w ∧ vid ∈ (e.workers w).vertices

/-- After the callback for `failed`, every vertex that this worker owned is owned by a
worker not in `reported`. -/
def HandedOver (c c' : Coordinator σ μ) (failed : WorkerId) (reported : List WorkerId) : Prop :=
  ∀ vid, Owns c.engine failed vid →
    ∃ w < c'.engine.config.workerCount, w ∉ reported ∧ Owns c'.engine w vid

/-- **A partition is handed over if and only if it is empty**, whatever state the
engine is in and whichever workers failed before. -/
theorem handed_over_iff {c : Coordinator σ μ} {failed : WorkerId} {reported : List WorkerId}
    (hfailed : failed ∈ reported) :
    HandedOver c (c.onFailure failed) failed reported ↔ ∀ vid, ¬ Owns c.engine failed vid := by
  constructor
  · intro handed vid howns
    obtain ⟨w, -, hnot, howner, -⟩ := handed vid howns
    obtain rfl : failed = w := howns.1.symm.trans howner
    exact hnot hfailed
  · intro hnone vid howns
    exact absurd howns (hnone vid)

/-- A coordinator somewhere in a superstep. -/
def during (c : Coordinator σ μ) (ws : WorkerId → WorkerNode σ μ × WorkerNode.Phase μ) :
    Coordinator σ μ :=
  { c with engine := { c.engine with workers := fun i => (ws i).1 } }

section Reachable

variable [Addressed μ] {compute : Compute σ μ} {config : EngineConfig}
  {vertices : List (Vertex σ μ)} {ls : List (Event μ)} {c : Coordinator σ μ}

theorem run_frame (run : Run (Step compute) { engine := GraphEngine.load config vertices } ls c) :
    c.engine.config = config ∧ c.engine.pmap = { workerCount := config.workerCount } ∧
      ∀ i vid, vid ∈ (c.engine.workers i).vertices ↔
        vid % config.workerCount = i ∧ ∃ v ∈ vertices, v.id = vid := by
  refine run.invariant (fun c => c.engine.config = config ∧
    c.engine.pmap = { workerCount := config.workerCount } ∧
      ∀ i vid, vid ∈ (c.engine.workers i).vertices ↔
        vid % config.workerCount = i ∧ ∃ v ∈ vertices, v.id = vid) ?_
    ⟨GraphEngine.load_config _ _, GraphEngine.load_pmap _ _, GraphEngine.mem_load _ _⟩
  rintro c l c' ⟨hconfig, hpmap, hmem⟩ hstep
  cases hstep with
  | superstep _ _ run =>
      obtain ⟨ws, run, -, rfl⟩ := run
      exact ⟨hconfig, hpmap, fun i vid => (GraphEngine.mem_during run).trans (hmem i vid)⟩
  | exhausted => exact ⟨hconfig, hpmap, hmem⟩
  | failure => exact ⟨hconfig, hpmap, hmem⟩

/-- **The partition of a failed worker is handed over if and only if the worker has
none.** Take any run of the coordinator with any failures so far, and the callback for
another one at any moment of the superstep after it. The vertices of the failed worker
are handed over to a worker that has not been reported if and only if no vertex of the
graph was placed on it. -/
theorem failed_partition_handed_over
    (run : Run (Step compute) { engine := GraphEngine.load config vertices } ls c) {k : Superstep}
    {timing : WorkerId → WorkerId → Nat} {tr : List (WorkerId × WorkerNode.Event μ)}
    {ws : WorkerId → WorkerNode σ μ × WorkerNode.Phase μ}
    (superstep : Run (Interleave (c.engine.WorkerStep compute k timing))
      (fun i => (c.engine.workers i, .ready)) tr ws) (failed : WorkerId) :
    HandedOver (c.during ws) ((c.during ws).onFailure failed) failed (failures ls ++ [failed]) ↔
      ∀ v ∈ vertices, v.id % config.workerCount ≠ failed := by
  obtain ⟨-, hpmap, hmem⟩ := run_frame run
  rw [handed_over_iff (List.mem_append_right _ List.mem_cons_self)]
  have howns : ∀ vid, Owns (c.during ws).engine failed vid ↔
      vid % config.workerCount = failed ∧ ∃ v ∈ vertices, v.id = vid := by
    intro vid
    show c.engine.pmap.ownerOf vid = failed ∧ vid ∈ (ws failed).1.vertices ↔ _
    rw [GraphEngine.mem_during superstep, hmem, hpmap]
    simp [PartitionMap.ownerOf]
  simp only [howns]
  constructor
  · intro hnone v hv howner
    exact hnone v.id ⟨howner, v, hv, rfl⟩
  · rintro hnone vid ⟨howner, v, hv, rfl⟩
    exact hnone v hv howner

end Reachable

/-- Of three workers, the one without a vertex fails after the one with vertex 1. -/
theorem failed_partition_handed_over_pair :
    let c : Coordinator Nat Message := { engine := GraphEngine.pair { workerCount := 3 } }
    let n : WorkerId → WorkerNode Nat Message × WorkerNode.Phase Message :=
      fun i => (c.engine.workers i, .ready)
    HandedOver ((c.onFailure 1).during n) (((c.onFailure 1).during n).onFailure 2) 2 [1, 2] ∧
      ¬ HandedOver (c.during n) ((c.during n).onFailure 1) 1 [1] := by
  intro c n
  have run : Run (Step GraphEngine.pingPong) c [.failure 1] (c.onFailure 1) := .one (.failure c 1)
  have start : Run (Step GraphEngine.pingPong) c [] c := .nil c
  have superstep : Run (Interleave (c.engine.WorkerStep GraphEngine.pingPong 0 fun _ _ => 0))
      n [] n := .nil n
  refine ⟨(failed_partition_handed_over run superstep 2).mpr (by decide), ?_⟩
  intro handed
  have hnone := (failed_partition_handed_over start superstep 1).mp handed
  exact absurd hnone (by decide)

/-- Worker 1 of two fails. The log says that worker 0 takes over; vertex 1 is where it
was. -/
theorem failed_partition_stays :
    let c : Coordinator Nat Message := { engine := GraphEngine.pair { workerCount := 2 } }
    (c.onFailure 1).log = ["[COORDINATOR] Worker 1 detected as FAILED — initiating recovery\n",
        "[COORDINATOR] Reassigning partition from worker 1 to worker 0\n"] ∧
      Owns c.engine 1 1 ∧ 0 ∉ [1] ∧ (c.onFailure 1).engine.pmap.ownerOf 1 = 1 ∧
      1 ∉ ((c.onFailure 1).engine.workers 0).vertices ∧
      ¬ HandedOver c (c.onFailure 1) 1 [1] := by
  intro c
  have howns : Owns c.engine 1 1 := ⟨by decide, by decide⟩
  refine ⟨by decide +kernel, howns, by decide, by decide, by decide, ?_⟩
  intro handed
  exact (handed_over_iff List.mem_cons_self).mp handed 1 howns

end Coordinator

end Pregel
