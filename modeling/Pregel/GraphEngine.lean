import Pregel.WorkerNode

/-!
All workers of an engine (`graph_engine.hpp`, `graph_engine.cpp`) and their common
superstep.

`GraphEngine.SuperstepRun` interleaves the steps of all workers in any order. The
workers share the partition map, which no superstep changes, and the scheduler;
every other piece of state belongs to one worker, its bus and its transport
included. A superstep has ended when every worker has flushed, which is what the
barrier waits for. As in `WorkerNode.Step`, every `wait_all` joins.

The network threads of the queue pairs act on a superstep only through what the
drain at its start finds. The `timing` of a superstep says how many steps each of
them has taken by then since the drain before.

* `superstepRun_eq`: a superstep has one result, whatever the interleaving.
* `superstep_schedule_independent`: two interleavings leave the same engine.
* `exists_superstepRun`: an engine with a NUMA node can always run a superstep.
* `Execution`: supersteps `0 .. k - 1`, as the coordinator and the benchmark call
  them, with the invariant rule `Execution.invariant`. `execution_supersteps` says
  that there is one for every timing.
-/

namespace Pregel

open Lts
open WorkerNode (Phase Event)

/-- `GraphEngine` with its buses, workers and partition map. Workers from
`worker_count` on do not exist. -/
@[ext] structure GraphEngine (σ μ : Type) where
  config : EngineConfig
  pmap : PartitionMap
  workers : WorkerId → WorkerNode σ μ

namespace GraphEngine

variable {σ μ : Type}

/-- `GraphEngine::setup_infrastructure`. -/
def setupInfrastructure (config : EngineConfig) : GraphEngine σ μ where
  config := config
  pmap := { workerCount := config.workerCount }
  workers := fun i =>
    WorkerNode.new i config (MessageBus.new i config.workerCount config.enableRdmaSim)

/-- One round of the loop of `distribute_vertices`. -/
def distributeVertex (e : GraphEngine σ μ) (v : Vertex σ μ) : GraphEngine σ μ :=
  let owner := e.pmap.ownerOf v.id
  { e with workers := Function.update e.workers owner ((e.workers owner).addVertex v) }

/-- `GraphEngine::distribute_vertices`. -/
def distributeVertices (e : GraphEngine σ μ) (vertices : List (Vertex σ μ)) : GraphEngine σ μ :=
  vertices.foldl distributeVertex e

/-- The engine as `run` and `benchmark` start it, on a graph with these vertices. -/
def load (config : EngineConfig) (vertices : List (Vertex σ μ)) : GraphEngine σ μ :=
  (setupInfrastructure config).distributeVertices vertices

/-! ### Loading a graph -/

/-- The vertex that `distribute_vertices` leaves under an id: the last one with it. -/
def lastWith (vid : VertexId) (vertices : List (Vertex σ μ)) (old : Option (Vertex σ μ)) :
    Option (Vertex σ μ) :=
  vertices.foldl (fun acc v => if v.id = vid then some v else acc) old

theorem lastWith_mem {vid : VertexId} {vertices : List (Vertex σ μ)} {old : Option (Vertex σ μ)}
    {v : Vertex σ μ} (h : lastWith vid vertices old = some v) : old = some v ∨ v ∈ vertices := by
  induction vertices generalizing old with
  | nil => exact Or.inl h
  | cons w vertices ih =>
      rcases ih h with hold | hmem
      · simp only at hold
        split at hold
        · exact Or.inr (by simp [Option.some.inj hold])
        · exact Or.inl hold
      · exact Or.inr (List.mem_cons_of_mem _ hmem)

theorem isSome_lastWith {vid : VertexId} {vertices : List (Vertex σ μ)}
    {old : Option (Vertex σ μ)} :
    (lastWith vid vertices old).isSome ↔ old.isSome ∨ ∃ v ∈ vertices, v.id = vid := by
  induction vertices generalizing old with
  | nil => simp [lastWith]
  | cons w vertices ih =>
      show (lastWith vid vertices (if w.id = vid then some w else old)).isSome ↔ _
      rw [ih]
      by_cases hw : w.id = vid
      · simp [hw]
      · simp [hw]

/-- If no two vertices share an id, the last one with an id is the only one. -/
theorem lastWith_eq_find {vid : VertexId} {vertices : List (Vertex σ μ)}
    (distinct : (vertices.map Vertex.id).Nodup) (old : Option (Vertex σ μ)) :
    lastWith vid vertices old = (vertices.find? fun v => v.id = vid).or old := by
  induction vertices generalizing old with
  | nil => rfl
  | cons w vertices ih =>
      obtain ⟨hnot, hdistinct⟩ := List.nodup_cons.mp distinct
      show lastWith vid vertices (if w.id = vid then some w else old) = _
      rw [ih hdistinct]
      rcases eq_or_ne w.id vid with rfl | hne
      · have hnone : (vertices.find? fun v => v.id = w.id) = none := by
          refine List.find?_eq_none.mpr fun v hv hid => hnot ?_
          exact List.mem_map.mpr ⟨v, hv, of_decide_eq_true hid⟩
        simp [hnone]
      · simp [hne]

/-- Distributing vertices adds to the vertex maps and changes nothing else. -/
theorem distributeVertices_frame (e : GraphEngine σ μ) (vertices : List (Vertex σ μ)) :
    (e.distributeVertices vertices).config = e.config ∧
      (e.distributeVertices vertices).pmap = e.pmap ∧
      ∀ i, (e.distributeVertices vertices).workers i = { e.workers i with
        vertices := ((e.distributeVertices vertices).workers i).vertices } := by
  induction vertices generalizing e with
  | nil => exact ⟨rfl, rfl, fun _ => rfl⟩
  | cons v vertices ih =>
      obtain ⟨hconfig, hpmap, hworkers⟩ := ih (e.distributeVertex v)
      refine ⟨hconfig, hpmap, fun i => ?_⟩
      show ((e.distributeVertex v).distributeVertices vertices).workers i = _
      rw [hworkers i]
      rcases eq_or_ne i (e.pmap.ownerOf v.id) with rfl | hne
      · simp [distributeVertex, WorkerNode.addVertex, distributeVertices]
      · simp [distributeVertex, distributeVertices, Function.update_of_ne hne]

theorem distributeVertices_lookup (e : GraphEngine σ μ) (vertices : List (Vertex σ μ))
    (i : WorkerId) (vid : VertexId) :
    ((e.distributeVertices vertices).workers i).vertices.lookup vid =
      if e.pmap.ownerOf vid = i then
        lastWith vid vertices ((e.workers i).vertices.lookup vid)
      else (e.workers i).vertices.lookup vid := by
  induction vertices generalizing e with
  | nil => simp [distributeVertices, lastWith]
  | cons v vertices ih =>
      have hstep : ((e.distributeVertex v).workers i).vertices.lookup vid =
          if e.pmap.ownerOf vid = i ∧ v.id = vid then some v
          else (e.workers i).vertices.lookup vid := by
        rcases eq_or_ne i (e.pmap.ownerOf v.id) with rfl | hne
        · rcases eq_or_ne v.id vid with rfl | hvid
          · simp [distributeVertex, WorkerNode.addVertex]
          · simp [distributeVertex, WorkerNode.addVertex, hvid, AList.lookup_insert_ne hvid.symm]
        · have hboth : ¬ (e.pmap.ownerOf vid = i ∧ v.id = vid) := by
            rintro ⟨rfl, rfl⟩
            exact hne rfl
          simp [distributeVertex, Function.update_of_ne hne, hboth]
      show (((e.distributeVertex v).distributeVertices vertices).workers i).vertices.lookup vid = _
      rw [ih, hstep]
      by_cases howner : e.pmap.ownerOf vid = i
      · simp [distributeVertex, lastWith, howner]
      · simp [distributeVertex, howner]

theorem load_worker (config : EngineConfig) (vertices : List (Vertex σ μ)) (i : WorkerId) :
    (load config vertices).workers i =
      { (WorkerNode.new i config (MessageBus.new i config.workerCount config.enableRdmaSim) :
          WorkerNode σ μ) with
        vertices := ((load config vertices).workers i).vertices } :=
  (distributeVertices_frame (setupInfrastructure config) vertices).2.2 i

theorem load_config (config : EngineConfig) (vertices : List (Vertex σ μ)) :
    (load config vertices).config = config :=
  (distributeVertices_frame (setupInfrastructure config) vertices).1

theorem load_pmap (config : EngineConfig) (vertices : List (Vertex σ μ)) :
    (load config vertices).pmap = { workerCount := config.workerCount } :=
  (distributeVertices_frame (setupInfrastructure config) vertices).2.1

/-- A loaded vertex is on the worker that its id names. -/
theorem load_lookup (config : EngineConfig) (vertices : List (Vertex σ μ)) (i : WorkerId)
    (vid : VertexId) : ((load config vertices).workers i).vertices.lookup vid =
      if vid % config.workerCount = i then lastWith vid vertices none else none :=
  distributeVertices_lookup (setupInfrastructure config) vertices i vid

/-- The vertices that a worker is given. -/
theorem mem_load (config : EngineConfig) (vertices : List (Vertex σ μ)) (i : WorkerId)
    (vid : VertexId) : vid ∈ ((load config vertices).workers i).vertices ↔
      vid % config.workerCount = i ∧ ∃ v ∈ vertices, v.id = vid := by
  rw [← AList.lookup_isSome, load_lookup]
  split
  · rename_i howner
    simp [isSome_lastWith, howner]
  · rename_i howner
    simp [howner]

/-! ### Supersteps -/

section Supersteps

variable [Addressed μ]

/-- The steps of worker `i`. -/
def WorkerStep (e : GraphEngine σ μ) (compute : Compute σ μ) (step : Superstep)
    (timing : WorkerId → WorkerId → Nat) (i : WorkerId)
    (s : WorkerNode σ μ × Phase μ) (l : Event μ)
    (t : WorkerNode σ μ × Phase μ) : Prop :=
  i < e.config.workerCount ∧ WorkerNode.Step e.pmap compute step (timing i) s l t

/-- One superstep of all workers, with the events in the order they happen. -/
def SuperstepRun (compute : Compute σ μ) (step : Superstep) (timing : WorkerId → WorkerId → Nat)
    (e : GraphEngine σ μ) (tr : List (WorkerId × Event μ)) (e' : GraphEngine σ μ) :
    Prop :=
  ∃ ws, Run (Interleave (e.WorkerStep compute step timing)) (fun i => (e.workers i, .ready)) tr ws ∧
    (∀ i < e.config.workerCount, (ws i).2 = .flushed) ∧
    e' = { e with workers := fun i => (ws i).1 }

/-- One superstep of all workers, each running its tasks in order. -/
def superstep (compute : Compute σ μ) (step : Superstep) (timing : WorkerId → WorkerId → Nat)
    (e : GraphEngine σ μ) : GraphEngine σ μ :=
  { e with workers := fun i =>
      if i < e.config.workerCount then
        (e.workers i).runSuperstep e.pmap compute step (timing i)
      else e.workers i }

/-- The next superstep, with any interleaving and any timing. The state carries
the number of the superstep. -/
def NextSuperstep (compute : Compute σ μ) (s : Superstep × GraphEngine σ μ)
    (tr : List (WorkerId × Event μ)) (t : Superstep × GraphEngine σ μ) : Prop :=
  t.1 = s.1 + 1 ∧ ∃ timing, SuperstepRun compute s.1 timing s.2 tr t.2

/-- Supersteps `0 .. k - 1`, with their traces. -/
def Execution (compute : Compute σ μ) (e : GraphEngine σ μ)
    (trs : List (List (WorkerId × Event μ))) (k : Nat) (e' : GraphEngine σ μ) : Prop :=
  Run (NextSuperstep compute) (0, e) trs (k, e')

/-- Supersteps `0 .. k - 1`, each worker running its tasks in order. -/
def supersteps (compute : Compute σ μ) (timing : Superstep → WorkerId → WorkerId → Nat)
    (e : GraphEngine σ μ) : Nat → GraphEngine σ μ
  | 0 => e
  | k + 1 => (supersteps compute timing e k).superstep compute k (timing k)

variable {compute : Compute σ μ} {step : Superstep} {timing : WorkerId → WorkerId → Nat}
  {e e' : GraphEngine σ μ} {tr : List (WorkerId × Event μ)}

theorem Execution.next {trs : List (List (WorkerId × Event μ))} {k : Nat} {e e₁ e₂ : GraphEngine σ μ}
    (exec : Execution compute e trs k e₁) (run : SuperstepRun compute k timing e₁ tr e₂) :
    Execution compute e (trs ++ [tr]) (k + 1) e₂ :=
  Run.append exec (.one ⟨rfl, timing, run⟩)

/-- **The invariant rule for executions.** -/
theorem Execution.invariant (Inv : Superstep → GraphEngine σ μ → Prop)
    (preserved : ∀ k timing e₁ tr e₂, Inv k e₁ → SuperstepRun compute k timing e₁ tr e₂ →
      Inv (k + 1) e₂)
    {trs : List (List (WorkerId × Event μ))} {k : Nat} (exec : Execution compute e trs k e')
    (init : Inv 0 e) : Inv k e' := by
  refine Run.invariant (fun s => Inv s.1 s.2) ?_ exec init
  rintro ⟨k, e₁⟩ tr ⟨k', e₂⟩ h ⟨rfl, timing, run⟩
  exact preserved k timing e₁ tr e₂ h run

omit [Addressed μ] in
theorem load_nodes {config : EngineConfig} (nodes : 0 < config.numaNodes)
    (vertices : List (Vertex σ μ)) (i : WorkerId) :
    0 < ((load config vertices).workers i).config.numaNodes := by
  rw [load_worker]
  exact nodes

/-- In a superstep of the engine each worker has a complete run of its own. -/
theorem worker_run (run : SuperstepRun compute step timing e tr e') {i : WorkerId}
    (hi : i < e.config.workerCount) :
    Run (WorkerNode.Step e.pmap compute step (timing i)) (e.workers i, .ready) (labelsOf i tr)
      (e'.workers i, .flushed) := by
  obtain ⟨ws, run, flushed, rfl⟩ := run
  have hrun := (Interleave.proj run i).mono fun _ _ _ h => h.2
  convert hrun using 2
  exact (flushed i hi).symm

/-- A worker that does not exist does nothing. -/
theorem worker_idle (run : SuperstepRun compute step timing e tr e') {i : WorkerId}
    (hi : ¬ i < e.config.workerCount) : e'.workers i = e.workers i := by
  obtain ⟨ws, run, -, rfl⟩ := run
  refine (Interleave.proj run i).invariant (fun s => s.1 = e.workers i) ?_ rfl
  intro s l t _ hstep
  exact absurd hstep.1 hi

/-- Only workers that exist take part in a superstep. -/
theorem label_inRange (run : SuperstepRun compute step timing e tr e') {i : WorkerId} {l : Event μ}
    (hmem : (i, l) ∈ tr) : i < e.config.workerCount := by
  obtain ⟨ws, run, -, -⟩ := run
  have hall := run.label_property (fun _ => True) (fun _ _ _ _ _ => trivial)
    (fun s l t _ hstep => (show l.1 < e.config.workerCount from hstep.choose_spec.1.1)) trivial
  exact hall _ hmem

/-- A worker that does not exist has no events. -/
theorem labelsOf_idle (run : SuperstepRun compute step timing e tr e') {i : WorkerId}
    (hi : ¬ i < e.config.workerCount) : labelsOf i tr = [] := by
  apply List.eq_nil_iff_forall_not_mem.mpr
  intro l hl
  exact hi (label_inRange run (mem_labelsOf.mp hl))

/-- The calls of `compute` in a superstep: one for each task, with its inbox. -/
theorem mem_compute_iff (run : SuperstepRun compute step timing e tr e') {i : WorkerId}
    (hi : i < e.config.workerCount) {vid : VertexId} {ms : List μ} :
    (i, Event.compute vid ms) ∈ tr ↔ vid ∈ ((e.workers i).receive (timing i)).taskIds ∧
      ms = ((e.workers i).receive (timing i)).inboxOf vid := by
  have hcalls := (WorkerNode.calls_of_run (worker_run run hi)).mem_iff (a := (vid, ms))
  rw [WorkerNode.calls, List.mem_filterMap, List.mem_map] at hcalls
  rw [← mem_labelsOf]
  constructor
  · intro hmem
    obtain ⟨k, hk, heq⟩ := hcalls.mp ⟨_, hmem, rfl⟩
    cases heq
    exact ⟨hk, rfl⟩
  · rintro ⟨htask, rfl⟩
    obtain ⟨l, hl, hcall⟩ := hcalls.mpr ⟨vid, htask, rfl⟩
    cases l with
    | compute => cases hcall; exact hl
    | _ => cases hcall

/-- Somewhere in a superstep, every worker has the vertices it had at the start. -/
theorem mem_during {ws : WorkerId → WorkerNode σ μ × Phase μ}
    (run : Run (Interleave (e.WorkerStep compute step timing)) (fun i => (e.workers i, .ready)) tr ws)
    {i : WorkerId} {vid : VertexId} : vid ∈ (ws i).1.vertices ↔ vid ∈ (e.workers i).vertices := by
  refine (Interleave.proj run i).invariant
    (fun s => vid ∈ s.1.vertices ↔ vid ∈ (e.workers i).vertices) ?_ Iff.rfl
  intro s l t h hstep
  exact (WorkerNode.mem_vertices_step hstep.2).trans h

/-- **A superstep has one result.** -/
theorem superstepRun_eq (run : SuperstepRun compute step timing e tr e') :
    e' = e.superstep compute step timing := by
  have hworkers : e'.workers = (e.superstep compute step timing).workers := by
    funext i
    by_cases hi : i < e.config.workerCount
    · rw [WorkerNode.run_eq_runSuperstep (worker_run run hi)]
      simp [superstep, hi]
    · rw [worker_idle run hi]
      simp [superstep, hi]
  obtain ⟨ws, -, -, rfl⟩ := run
  exact GraphEngine.ext rfl rfl hworkers

/-- **Two interleavings of a superstep leave the same engine**: the same vertices,
buses, queue pairs, inbox maps and counters, and so the same active counts. -/
theorem superstep_schedule_independent (compute : Compute σ μ) (step : Superstep)
    (timing : WorkerId → WorkerId → Nat) (e : GraphEngine σ μ) {e₁ e₂ : GraphEngine σ μ}
    {tr₁ tr₂ : List (WorkerId × Event μ)}
    (run₁ : SuperstepRun compute step timing e tr₁ e₁)
    (run₂ : SuperstepRun compute step timing e tr₂ e₂) :
    e₁ = e₂ ∧ ∀ i, (e₁.workers i).active = (e₂.workers i).active := by
  have heq : e₁ = e₂ := (superstepRun_eq run₁).trans (superstepRun_eq run₂).symm
  exact ⟨heq, fun i => by rw [heq]⟩

/-- An engine with a NUMA node can run a superstep. -/
theorem exists_superstepRun (compute : Compute σ μ) (step : Superstep)
    (timing : WorkerId → WorkerId → Nat) {e : GraphEngine σ μ}
    (nodes : ∀ i < e.config.workerCount, 0 < (e.workers i).config.numaNodes) :
    ∃ tr, SuperstepRun compute step timing e tr (e.superstep compute step timing) := by
  have hruns : ∀ i ∈ List.range e.config.workerCount, ∃ ls,
      Run (e.WorkerStep compute step timing i) (e.workers i, .ready) ls
        ((e.superstep compute step timing).workers i, .flushed) := by
    intro i hi
    have hi := List.mem_range.mp hi
    obtain ⟨ls, run⟩ := WorkerNode.exists_run e.pmap compute step (timing i) (nodes i hi)
    refine ⟨ls, ?_⟩
    simp only [superstep, hi, if_true]
    exact run.mono fun _ _ _ h => ⟨hi, h⟩
  obtain ⟨tr, run⟩ := Interleave.lift_list List.nodup_range
    (fun i => (e.workers i, Phase.ready))
    (fun i => ((e.superstep compute step timing).workers i, Phase.flushed)) hruns
  refine ⟨tr, _, run, ?_, ?_⟩
  · intro i hi
    simp [hi]
  · unfold superstep
    congr 1
    funext i
    by_cases hi : i < e.config.workerCount
    · simp [hi]
    · simp [hi]

theorem supersteps_config (compute : Compute σ μ)
    (timing : Superstep → WorkerId → WorkerId → Nat) (e : GraphEngine σ μ) (k : Nat) :
    (e.supersteps compute timing k).config = e.config ∧
      ∀ i, ((e.supersteps compute timing k).workers i).config = (e.workers i).config := by
  induction k with
  | zero => exact ⟨rfl, fun _ => rfl⟩
  | succ k ih =>
      refine ⟨ih.1, fun i => ?_⟩
      simp only [supersteps, superstep]
      split
      · rw [WorkerNode.runSuperstep_config, ih.2 i]
      · exact ih.2 i

section Existence

variable (compute : Compute σ μ) (timing : Superstep → WorkerId → WorkerId → Nat)
  {e : GraphEngine σ μ}
  (nodes : ∀ i < e.config.workerCount, 0 < (e.workers i).config.numaNodes)

include nodes

theorem superstepRun_supersteps (k : Nat) :
    ∃ tr, SuperstepRun compute k (timing k) (e.supersteps compute timing k) tr
      (e.supersteps compute timing (k + 1)) := by
  obtain ⟨hconfig, hworkers⟩ := supersteps_config compute timing e k
  apply exists_superstepRun compute k (timing k)
  intro i hi
  rw [hworkers i]
  exact nodes i (hconfig ▸ hi)

/-- An engine with a NUMA node can run any number of supersteps, with any timing. -/
theorem execution_supersteps (k : Nat) :
    ∃ trs, Execution compute e trs k (e.supersteps compute timing k) := by
  induction k with
  | zero => exact ⟨[], .nil _⟩
  | succ k ih =>
      obtain ⟨trs, exec⟩ := ih
      obtain ⟨tr, run⟩ := superstepRun_supersteps compute timing nodes k
      exact ⟨trs ++ [tr], exec.next run⟩

end Existence

omit [Addressed μ] in
/-- The workers while one of them has moved on. -/
theorem workers_update_ready (e : GraphEngine σ μ) (i : WorkerId) (n : WorkerNode σ μ)
    (ph : Phase μ) : (fun j => (Function.update (fun j => (e.workers j, Phase.ready)) i (n, ph) j).1) =
      Function.update e.workers i n := by
  funext j
  rcases eq_or_ne j i with rfl | hne
  · simp
  · simp [hne]

/-- A run of the only worker is a superstep of the engine. -/
theorem superstepRun_single {t : WorkerId → WorkerId → Nat} {tr : List (Event μ)}
    {n : WorkerNode σ μ} (one : e.config.workerCount = 1)
    (run : Run (WorkerNode.Step e.pmap compute step (t 0)) (e.workers 0, .ready) tr
      (n, .flushed)) :
    SuperstepRun compute step t e (tr.map (Prod.mk 0))
      { e with workers := Function.update e.workers 0 n } := by
  have hstep : ∀ x l y, WorkerNode.Step e.pmap compute step (t 0) x l y →
      e.WorkerStep compute step t 0 x l y := fun _ _ _ h => ⟨one ▸ Nat.one_pos, h⟩
  refine ⟨_, Interleave.lift (fun i => (e.workers i, Phase.ready)) (run.mono hstep), ?_,
    by rw [workers_update_ready]⟩
  intro i hi
  obtain rfl : i = 0 := by omega
  simp

/-- An execution does not touch the configuration and the partition map. -/
theorem execution_frame {trs : List (List (WorkerId × Event μ))} {k : Nat}
    (exec : Execution compute e trs k e') : e'.config = e.config ∧ e'.pmap = e.pmap := by
  refine exec.invariant (fun _ x => x.config = e.config ∧ x.pmap = e.pmap) ?_ ⟨rfl, rfl⟩
  intro k timing e₁ tr e₂ h run
  rw [superstepRun_eq run]
  exact h

/-- An execution does not move a vertex. -/
theorem mem_execution {trs : List (List (WorkerId × Event μ))} {k : Nat}
    (exec : Execution compute e trs k e') {i : WorkerId} {vid : VertexId} :
    vid ∈ (e'.workers i).vertices ↔ vid ∈ (e.workers i).vertices := by
  refine exec.invariant
    (fun _ x => vid ∈ (x.workers i).vertices ↔ vid ∈ (e.workers i).vertices) ?_ Iff.rfl
  rintro k timing e₁ tr e₂ h ⟨ws, run, -, rfl⟩
  exact (mem_during run).trans h

end Supersteps

/-! ### Two vertices that send each other messages -/

/-- Counts its messages, sends one to vertex `1 - id` and halts. -/
def pingPong : Compute Nat Message := fun v inbox step =>
  Vertex.voteToHalt (Vertex.sendMessage { v with state := v.state + inbox.length } (1 - v.id)
    ⟨v.id, 1 - v.id, step, .heartbeat⟩)

def pairVertices : List (Vertex Nat Message) :=
  [⟨0, .order, 0, false, [], [], 0⟩, ⟨1, .order, 1, false, [], [], 0⟩]

def pair (config : EngineConfig) : GraphEngine Nat Message := load config pairVertices

def pairOutboxes : List (VertexId × List Message) :=
  [(1, [⟨1, 0, 0, .heartbeat⟩]), (0, [⟨0, 1, 0, .heartbeat⟩])]

/-- The two tasks of `pair` in order, and overlapping in the other order. -/
theorem superstep_schedule_independent_pair :
    ∃ e₁ e₂,
      SuperstepRun pingPong 0 (fun _ _ => 0) (pair { workerCount := 1 })
        [(0, .start), (0, .take 0), (0, .compute 0 []), (0, .take 1), (0, .compute 1 []),
          (0, .finish pairOutboxes)] e₁ ∧
      SuperstepRun pingPong 0 (fun _ _ => 0) (pair { workerCount := 1 })
        [(0, .start), (0, .take 1), (0, .take 0), (0, .compute 0 []), (0, .compute 1 []),
          (0, .finish pairOutboxes)] e₂ ∧
      e₁ = e₂ ∧ ∀ i, (e₁.workers i).active = (e₂.workers i).active := by
  have run₁ : ∃ n, Run (WorkerNode.Step ⟨1, fun _ => none⟩ pingPong 0 fun _ => 0)
      ((pair { workerCount := 1 }).workers 0, .ready)
      [.start, .take 0, .compute 0 [], .take 1, .compute 1 [], .finish pairOutboxes]
      (n, .flushed) :=
    ⟨_, .cons (.start (by decide)) <| .cons (.take rfl) <| .cons (.compute rfl) <|
      .cons (.take rfl) <| .cons (.compute rfl) <| .one <|
      .finish (by rintro (_ | _ | vid) <;> rfl)⟩
  have run₂ : ∃ n, Run (WorkerNode.Step ⟨1, fun _ => none⟩ pingPong 0 fun _ => 0)
      ((pair { workerCount := 1 }).workers 0, .ready)
      [.start, .take 1, .take 0, .compute 0 [], .compute 1 [], .finish pairOutboxes]
      (n, .flushed) :=
    ⟨_, .cons (.start (by decide)) <| .cons (.take rfl) <| .cons (.take rfl) <|
      .cons (.compute rfl) <| .cons (.compute rfl) <| .one <|
      .finish (by rintro (_ | _ | vid) <;> rfl)⟩
  obtain ⟨n₁, run₁⟩ := run₁
  obtain ⟨n₂, run₂⟩ := run₂
  have super₁ := superstepRun_single (e := pair { workerCount := 1 }) (t := fun _ _ => 0) rfl run₁
  have super₂ := superstepRun_single (e := pair { workerCount := 1 }) (t := fun _ _ => 0) rfl run₂
  exact ⟨_, _, super₁, super₂, superstep_schedule_independent _ _ _ _ super₁ super₂⟩

end GraphEngine

end Pregel
