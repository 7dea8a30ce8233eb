import Mathlib.Algebra.Group.Int.Defs
import Pregel.Coordinator
import Pregel.OrderBook.WellFormed

/-!
The command line (`main.cpp`) and the divisions that its numbers reach.

`readArgs` is the loop of `main` over the arguments. The number of workers is a divisor in
`PartitionMap::owner_of` and in the builder of the graph; the number of NUMA nodes is one
in `setup_infrastructure`, in `run_superstep` and in `NumaScheduler::submit`. A division by
zero is an error here. `start` is `GraphEngine::run` up to the loop over the supersteps, and
`sectionDivisions` has the divisions of a worker from one point of a superstep to the next.

* `readArgs_counts`: the two numbers are the last values given for them.
* `start_eq`, `start_of_zero`: the engine starts if and only if neither is zero.
* `no_division_by_zero_iff`: when a command line leads to no division by zero.
-/

namespace Pregel

open Lts

/-! ### The library function `atoi` -/

/-- `isspace`. -/
def isspace (c : Char) : Bool := c.toNat = 32 || (9 ≤ c.toNat && c.toNat ≤ 13)

/-- The number that the digits at the front make. -/
def decimalPrefix (cs : List Char) : Nat :=
  (cs.takeWhile Char.isDigit).foldl (fun n c => 10 * n + (c.toNat - 48)) 0

/-- `strtol` in base 10. It stays within the range of `long`. -/
def strtol (cs : List Char) : Int :=
  match cs.dropWhile isspace with
  | '-' :: cs => max (-(decimalPrefix cs : Int)) (-2 ^ 63)
  | '+' :: cs => min (decimalPrefix cs : Int) (2 ^ 63 - 1)
  | cs => min (decimalPrefix cs : Int) (2 ^ 63 - 1)

/-- `atoi`: the low 32 bits of a `long`, as an `int`. -/
def atoi (s : String) : Int := (strtol s.toList).bmod (2 ^ 32)

/-- The conversion of an `int` to `uint32_t`. -/
def toUint32 (n : Int) : Nat := (n % 2 ^ 32).toNat

/-! ### The loop over the arguments -/

/-- The flags with a value; `none` if `arg` is not one of them. -/
def EngineConfig.readOption (cfg : EngineConfig) (arg value : String) : Option EngineConfig :=
  if arg = "--workers" then some { cfg with workerCount := toUint32 (atoi value) }
  else if arg = "--steps" then some { cfg with maxSupersteps := toUint32 (atoi value) }
  else if arg = "--numa-nodes" then some { cfg with numaNodes := toUint32 (atoi value) }
  else none

/-- The flags without a value. After `--help` the program returns. -/
def EngineConfig.readFlag (cfg : EngineConfig) (arg : String) : Option EngineConfig :=
  if arg = "--fault" then some { cfg with enableFaultInjection := true }
  else if arg = "--no-rdma" then some { cfg with enableRdmaSim := false }
  else if arg = "--help" then none
  else some cfg

/-- The loop of `main`: the configuration it ends with, or `none` if it returns. A flag
that takes a value does nothing if it is the last argument. -/
def readArgs : EngineConfig → List String → Option EngineConfig
  | cfg, [] => some cfg
  | cfg, [arg] => cfg.readFlag arg
  | cfg, arg :: value :: rest =>
      match cfg.readOption arg value with
      | some cfg => readArgs cfg rest
      | none =>
          match cfg.readFlag arg with
          | some cfg => readArgs cfg (value :: rest)
          | none => none

/-- The flags of a command line that take a value, with their values. What follows such a
flag is its value, also if it looks like a flag. -/
def options : List String → List (String × String)
  | arg :: value :: rest =>
      if arg = "--workers" ∨ arg = "--steps" ∨ arg = "--numa-nodes" then
        (arg, value) :: options rest
      else options (value :: rest)
  | _ => []

/-- The last number given for a flag. -/
def lastNumber (flag : String) (args : List String) : Option Nat :=
  ((options args).filter fun o => o.1 = flag).getLast?.map fun o => toUint32 (atoi o.2)

theorem lastNumber_option {arg : String} (value : String) (rest : List String) (flag : String)
    (option : arg = "--workers" ∨ arg = "--steps" ∨ arg = "--numa-nodes") :
    lastNumber flag (arg :: value :: rest) =
      (lastNumber flag rest).or (if arg = flag then some (toUint32 (atoi value)) else none) := by
  unfold lastNumber
  rw [options, if_pos option]
  by_cases hflag : arg = flag
  · rw [List.filter_cons_of_pos (by simpa using hflag), List.getLast?_cons, if_pos hflag]
    cases ((options rest).filter fun o => o.1 = flag).getLast? <;> rfl
  · rw [List.filter_cons_of_neg (by simpa using hflag), if_neg hflag, Option.or_none]

theorem lastNumber_flag {arg : String} (value : String) (rest : List String) (flag : String)
    (noOption : ¬ (arg = "--workers" ∨ arg = "--steps" ∨ arg = "--numa-nodes")) :
    lastNumber flag (arg :: value :: rest) = lastNumber flag (value :: rest) := by
  rw [lastNumber, options, if_neg noOption]
  rfl

/-- The flags without a value do not change the two numbers. -/
theorem readFlag_counts {cfg cfg' : EngineConfig} {arg : String}
    (h : cfg.readFlag arg = some cfg') :
    cfg'.workerCount = cfg.workerCount ∧ cfg'.numaNodes = cfg.numaNodes := by
  unfold EngineConfig.readFlag at h
  split at h
  · cases h
    exact ⟨rfl, rfl⟩
  · split at h
    · cases h
      exact ⟨rfl, rfl⟩
    · split at h
      · cases h
      · cases h
        exact ⟨rfl, rfl⟩

/-- What a flag with a value does to the two numbers. -/
theorem readOption_counts {cfg cfg' : EngineConfig} {arg value : String}
    (h : cfg.readOption arg value = some cfg') :
    (arg = "--workers" ∨ arg = "--steps" ∨ arg = "--numa-nodes") ∧
      cfg'.workerCount = (if arg = "--workers" then toUint32 (atoi value) else cfg.workerCount) ∧
      cfg'.numaNodes = (if arg = "--numa-nodes" then toUint32 (atoi value) else cfg.numaNodes) := by
  unfold EngineConfig.readOption at h
  split at h
  · rename_i hworkers
    cases h
    simp [hworkers]
  · rename_i hworkers
    split at h
    · rename_i hsteps
      cases h
      simp [hsteps]
    · split at h
      · rename_i hnodes
        cases h
        simp [hnodes]
      · cases h

theorem readOption_none {cfg : EngineConfig} {arg value : String}
    (h : cfg.readOption arg value = none) :
    ¬ (arg = "--workers" ∨ arg = "--steps" ∨ arg = "--numa-nodes") := by
  rintro (rfl | rfl | rfl)
  · cases h
  · cases h
  · cases h

/-- **The two numbers are the last ones given for them**, or those of `cfg`. -/
theorem readArgs_counts {cfg cfg' : EngineConfig} {args : List String}
    (h : readArgs cfg args = some cfg') :
    cfg'.workerCount = (lastNumber "--workers" args).getD cfg.workerCount ∧
      cfg'.numaNodes = (lastNumber "--numa-nodes" args).getD cfg.numaNodes := by
  fun_induction readArgs cfg args with
  | case1 cfg =>
      cases h
      exact ⟨rfl, rfl⟩
  | case2 cfg arg => exact readFlag_counts h
  | case3 cfg arg value rest cfg₁ hoption ih =>
      obtain ⟨option, hworkers, hnodes⟩ := readOption_counts hoption
      obtain ⟨ihworkers, ihnodes⟩ := ih h
      rw [ihworkers, ihnodes, hworkers, hnodes, lastNumber_option _ _ _ option,
        lastNumber_option _ _ _ option]
      constructor
      · cases lastNumber "--workers" rest with
        | some n => rfl
        | none => by_cases harg : arg = "--workers" <;> simp [harg]
      · cases lastNumber "--numa-nodes" rest with
        | some n => rfl
        | none => by_cases harg : arg = "--numa-nodes" <;> simp [harg]
  | case4 cfg arg value rest hoption cfg₁ hflag ih =>
      obtain ⟨hworkers, hnodes⟩ := readFlag_counts hflag
      obtain ⟨ihworkers, ihnodes⟩ := ih h
      have noOption := readOption_none hoption
      rw [ihworkers, ihnodes, hworkers, hnodes, lastNumber_flag _ _ _ noOption,
        lastNumber_flag _ _ _ noOption]
      exact ⟨rfl, rfl⟩
  | case5 => cases h

/-! ### The divisions -/

/-- `a / b`, which traps as `a % b` does. -/
def divide (a b : Nat) : Except Fault Nat :=
  if b = 0 then .error .moduloByZero else .ok (a / b)

/-- `PartitionMap::owner_of`, with its division. -/
def PartitionMap.ownerOfChecked (pmap : PartitionMap) (v : VertexId) : Except Fault WorkerId :=
  match pmap.overrides v with
  | some w => .ok w
  | none => modulo v pmap.workerCount

theorem PartitionMap.ownerOfChecked_eq {pmap : PartitionMap} (workers : pmap.workerCount ≠ 0)
    (v : VertexId) : pmap.ownerOfChecked v = .ok (pmap.ownerOf v) := by
  unfold ownerOfChecked ownerOf
  cases pmap.overrides v with
  | some w => rfl
  | none => exact modulo_of_ne v workers

namespace GraphEngine

variable {σ μ : Type}

/-- `GraphEngine::setup_infrastructure`, with its division; `concurrency` is what
`hardware_concurrency` returns. -/
def setupChecked (concurrency : Nat) (config : EngineConfig) :
    Except Fault (Scheduler.Config × GraphEngine σ μ) := do
  let threadsPerNode ← divide concurrency config.numaNodes
  return ({ numaNodes := config.numaNodes
            threadsPerNode := max 1 threadsPerNode
            clients := config.workerCount },
    setupInfrastructure config)

/-- One round of the loop of `distribute_vertices`, with its division. -/
def distributeChecked (e : GraphEngine σ μ) (v : Vertex σ μ) : Except Fault (GraphEngine σ μ) := do
  let owner ← e.pmap.ownerOfChecked v.id
  return { e with workers := Function.update e.workers owner ((e.workers owner).addVertex v) }

/-- The parameters in `GraphEngine::load_graph`. -/
def graphParams (config : EngineConfig) : OrderBookGraphParams where
  venueCount := 5
  priceLevels := 10
  ordersPerLevel := 20
  marketMakerCount := 8
  workerCount := UInt32.ofNat config.workerCount

/-- `GraphEngine::load_graph`. -/
def loadGraph (d : Draws) (e : GraphEngine BookState Message) :
    Except Fault (GraphEngine BookState Message) := do
  let data ← buildOrderBookGraph (graphParams e.config) d
  data.vertices.foldlM distributeChecked e

/-- `GraphEngine::run` up to the loop over the supersteps. -/
def start (concurrency : Nat) (d : Draws) (config : EngineConfig) :
    Except Fault (Scheduler.Config × GraphEngine BookState Message) := do
  let (scheduler, e) ← setupChecked concurrency config
  let e ← e.loadGraph d
  return (scheduler, e)

theorem foldlM_distributeChecked {e : GraphEngine σ μ} (workers : e.pmap.workerCount ≠ 0)
    (vertices : List (Vertex σ μ)) :
    vertices.foldlM distributeChecked e = .ok (e.distributeVertices vertices) := by
  induction vertices generalizing e with
  | nil => rfl
  | cons v vertices ih =>
      have hfirst : e.distributeChecked v = .ok (e.distributeVertex v) := by
        rw [distributeChecked, PartitionMap.ownerOfChecked_eq workers]
        rfl
      rw [List.foldlM_cons, hfirst]
      exact ih (e := e.distributeVertex v) workers

/-- The engine starts if there is a worker and a NUMA node. -/
theorem start_eq (concurrency : Nat) (d : Draws) {config : EngineConfig}
    (workers : config.workerCount ≠ 0) (bounded : config.workerCount < 2 ^ 32)
    (nodes : config.numaNodes ≠ 0) :
    ∃ scheduler, start concurrency d config =
        .ok (scheduler, load config (Layout.vertices (graphParams config) d)) ∧
      scheduler.numaNodes = config.numaNodes := by
  have hworkers : Layout.workers (graphParams config) ≠ 0 := by
    rw [Layout.workers, graphParams, UInt32.toNat_ofNat_of_lt' bounded]
    exact workers
  obtain ⟨b, hrun, hvertices, -⟩ := Layout.run_eq d hworkers
  have hbuild := buildOrderBookGraph_eq hrun
  have hload : (setupInfrastructure config : GraphEngine BookState Message).loadGraph d =
      .ok (load config (Layout.vertices (graphParams config) d)) := by
    rw [loadGraph, show (setupInfrastructure config : GraphEngine BookState Message).config = config
      from rfl, hbuild, ← hvertices]
    exact foldlM_distributeChecked workers b.vertices
  refine ⟨⟨config.numaNodes, max 1 (concurrency / config.numaNodes), config.workerCount⟩, ?_, rfl⟩
  rw [start, setupChecked, divide, if_neg nodes]
  simp only [bind, Except.bind, pure, Except.pure, hload]

/-- Without a worker or without a NUMA node it does not. -/
theorem start_of_zero (concurrency : Nat) (d : Draws) {config : EngineConfig}
    (zero : config.workerCount = 0 ∨ config.numaNodes = 0) :
    start concurrency d config = .error .moduloByZero := by
  by_cases nodes : config.numaNodes = 0
  · rw [start, setupChecked, divide, if_pos nodes]
    rfl
  · have workers : config.workerCount = 0 := zero.resolve_right nodes
    have hparams : graphParams config = graphParams { config with workerCount := 0 } := by
      rw [graphParams, workers]
      rfl
    have hload : (setupInfrastructure config : GraphEngine BookState Message).loadGraph d =
        .error .moduloByZero := by
      rw [loadGraph, show (setupInfrastructure config : GraphEngine BookState Message).config =
        config from rfl, hparams]
      rfl
    rw [start, setupChecked, divide, if_neg nodes]
    simp only [bind, Except.bind, pure, Except.pure, hload]

end GraphEngine

/-! ### The loop over the supersteps -/

namespace WorkerNode

variable {σ μ : Type} [Addressed μ]

/-- The divisions of `run_superstep` and of `NumaScheduler::submit` for one task. -/
def nodeOfTask (scheduler : Scheduler.Config) (n : WorkerNode σ μ) (vid : VertexId) :
    Except Fault Nat := do
  let numaNode ← modulo vid n.config.numaNodes
  modulo numaNode scheduler.numaNodes

/-- The divisions up to the next point of a superstep: those for the tasks before their
submission, and those for the messages in the outboxes after the tasks. -/
def sectionDivisions (scheduler : Scheduler.Config) (pmap : PartitionMap)
    (timing : WorkerId → Nat) : WorkerNode σ μ × Phase μ → Except Fault (List Nat)
  | (n, .ready) => (n.receive timing).taskIds.mapM ((n.receive timing).nodeOfTask scheduler)
  | (n, .computing _) =>
      (n.outboxes.flatMap Prod.snd).mapM fun m => pmap.ownerOfChecked (dst m)
  | (_, .flushed) => .ok []

theorem mapM_ok {α β : Type} {f : α → Except Fault β} (hf : ∀ a, ∃ b, f a = .ok b) (as : List α) :
    ∃ bs, as.mapM f = .ok bs := by
  induction as with
  | nil => exact ⟨[], rfl⟩
  | cons a as ih =>
      obtain ⟨b, hb⟩ := hf a
      obtain ⟨bs, hbs⟩ := ih
      refine ⟨b :: bs, ?_⟩
      rw [List.mapM_cons, hb, hbs]
      rfl

theorem sectionDivisions_ok {scheduler : Scheduler.Config} {pmap : PartitionMap}
    {timing : WorkerId → Nat} {s : WorkerNode σ μ × Phase μ} (workers : pmap.workerCount ≠ 0)
    (nodes : s.1.config.numaNodes ≠ 0) (queues : scheduler.numaNodes ≠ 0) :
    ∃ results, sectionDivisions scheduler pmap timing s = .ok results := by
  obtain ⟨n, phase⟩ := s
  cases phase with
  | ready =>
      refine mapM_ok (fun vid => ⟨vid % n.config.numaNodes % scheduler.numaNodes, ?_⟩) _
      have hnode : modulo vid (n.receive timing).config.numaNodes =
          .ok (vid % n.config.numaNodes) := modulo_of_ne vid nodes
      rw [nodeOfTask, hnode]
      exact modulo_of_ne _ queues
  | computing ts => exact mapM_ok (fun m => ⟨_, PartitionMap.ownerOfChecked_eq workers (dst m)⟩) _
  | flushed => exact ⟨[], rfl⟩

/-- A step does not change the configuration of the worker. -/
theorem config_step {pmap : PartitionMap} {compute : Compute σ μ} {k : Superstep}
    {timing : WorkerId → Nat} {s t : WorkerNode σ μ × Phase μ} {l : Event μ}
    (step : Step pmap compute k timing s l t) : t.1.config = s.1.config := by
  cases step with
  | start => rfl
  | take => rfl
  | compute => rfl
  | finish => rw [finish_eq]

end WorkerNode

namespace Coordinator

variable {σ μ : Type}

/-- The configuration of an engine in all places that keep a copy of it. -/
structure Configured (config : EngineConfig) (e : GraphEngine σ μ) : Prop where
  engine : e.config = config
  pmap : e.pmap.workerCount = config.workerCount
  workers : ∀ i, (e.workers i).config = config

theorem configured_load (config : EngineConfig) (vertices : List (Vertex σ μ)) :
    Configured config (GraphEngine.load config vertices) where
  engine := GraphEngine.load_config config vertices
  pmap := by rw [GraphEngine.load_pmap]
  workers := fun i => by rw [GraphEngine.load_worker]; rfl

variable [Addressed μ] {compute : Compute σ μ}

theorem Configured.during {config : EngineConfig} {e : GraphEngine σ μ} (h : Configured config e)
    {k : Superstep} {timing : WorkerId → WorkerId → Nat} {tr : List (WorkerId × WorkerNode.Event μ)}
    {ws : WorkerId → WorkerNode σ μ × WorkerNode.Phase μ}
    (run : Run (Interleave (e.WorkerStep compute k timing)) (fun i => (e.workers i, .ready)) tr ws)
    (i : WorkerId) : (ws i).1.config = config :=
  (Interleave.proj run i).invariant (fun s => s.1.config = config)
    (fun _ _ _ hs hstep => (WorkerNode.config_step hstep.2).trans hs) (h.workers i)

theorem configured_run {config : EngineConfig} {c c' : Coordinator σ μ} {ls : List (Event μ)}
    (h : Configured config c.engine) (run : Run (Step compute) c ls c') :
    Configured config c'.engine := by
  refine run.invariant (fun c => Configured config c.engine) ?_ h
  intro c l c' h step
  cases step with
  | superstep _ _ run =>
      obtain ⟨ws, run, -, rfl⟩ := run
      exact ⟨h.engine, h.pmap, fun i => h.during run i⟩
  | exhausted => exact h
  | failure => exact h

end Coordinator

/-- No division by zero comes up: not while the engine starts, and not in a section of a
worker in any superstep of any run. -/
def DivisionSafe (concurrency : Nat) (d : Draws) (config : EngineConfig) : Prop :=
  ∃ scheduler e, GraphEngine.start concurrency d config = .ok (scheduler, e) ∧
    ∀ ls c k timing tr ws, Run (Coordinator.Step BookState.compute) { engine := e } ls c →
      c.phase = .running k →
      Run (Interleave (c.engine.WorkerStep BookState.compute k timing))
        (fun i => (c.engine.workers i, .ready)) tr ws →
      ∀ i < c.engine.config.workerCount,
        ∃ results, WorkerNode.sectionDivisions scheduler c.engine.pmap (timing i) (ws i) =
          .ok results

theorem divisionSafe_iff (concurrency : Nat) (d : Draws) {config : EngineConfig}
    (bounded : config.workerCount < 2 ^ 32) :
    DivisionSafe concurrency d config ↔ config.workerCount ≠ 0 ∧ config.numaNodes ≠ 0 := by
  constructor
  · rintro ⟨scheduler, e, hstart, -⟩
    rw [← not_or]
    intro zero
    rw [GraphEngine.start_of_zero concurrency d zero] at hstart
    cases hstart
  · rintro ⟨workers, nodes⟩
    obtain ⟨scheduler, hstart, hscheduler⟩ :=
      GraphEngine.start_eq concurrency d workers bounded nodes
    refine ⟨scheduler, _, hstart, ?_⟩
    intro ls c k timing tr ws run _ superstep i _
    have configured := Coordinator.configured_run
      (c := { engine := GraphEngine.load config _ }) (Coordinator.configured_load config _) run
    apply WorkerNode.sectionDivisions_ok
    · rw [configured.pmap]
      exact workers
    · rw [configured.during superstep i]
      exact nodes
    · rw [hscheduler]
      exact nodes

/-- **When a command line leads to no division by zero.** Take any arguments among which
`main` does not find `--help`. No division by zero comes up, whatever the machine, the
random numbers and the order of the threads, if and only if neither the last number given
for `--workers` nor the last one given for `--numa-nodes` is zero as a 32-bit unsigned
integer. -/
theorem no_division_by_zero_iff {args : List String} {config : EngineConfig}
    (hargs : readArgs {} args = some config) (concurrency : Nat) (d : Draws) :
    DivisionSafe concurrency d config ↔
      lastNumber "--workers" args ≠ some 0 ∧ lastNumber "--numa-nodes" args ≠ some 0 := by
  obtain ⟨hworkers, hnodes⟩ := readArgs_counts hargs
  have hbounded : ∀ n, lastNumber "--workers" args = some n → n < 2 ^ 32 := by
    intro n hn
    obtain ⟨o, -, rfl⟩ := Option.map_eq_some_iff.mp hn
    unfold toUint32
    omega
  have bounded : config.workerCount < 2 ^ 32 := by
    rw [hworkers]
    cases hlast : lastNumber "--workers" args with
    | some n => exact hbounded n hlast
    | none => decide
  rw [divisionSafe_iff concurrency d bounded, hworkers, hnodes]
  have hgetD : ∀ (last : Option Nat) (default : Nat), default ≠ 0 →
      (last.getD default ≠ 0 ↔ last ≠ some 0) := by
    intro last default hdefault
    cases last with
    | some n => simp
    | none => simpa using hdefault
  rw [hgetD _ _ (by decide), hgetD _ _ (by decide)]

/-- Two workers and one node. The second `--workers` is the value of `--steps`. -/
theorem no_division_by_zero_two :
    readArgs {} ["--workers", "0", "--steps", "--workers", "--workers", " 2x", "--numa-nodes", "1"] =
        some { workerCount := 2, numaNodes := 1, maxSupersteps := 0 } ∧
      DivisionSafe 8 .still { workerCount := 2, numaNodes := 1, maxSupersteps := 0 } := by
  have hargs : readArgs {} ["--workers", "0", "--steps", "--workers", "--workers", " 2x",
      "--numa-nodes", "1"] = some { workerCount := 2, numaNodes := 1, maxSupersteps := 0 } := by
    decide +kernel
  exact ⟨hargs, (no_division_by_zero_iff hargs 8 .still).mpr ⟨by decide +kernel, by decide +kernel⟩⟩

/-- `--workers 0`: the builder divides by zero. So does `setup_infrastructure` after
`--numa-nodes none`, which `atoi` reads as zero. -/
theorem division_by_zero :
    readArgs {} ["--workers", "0"] = some { workerCount := 0 } ∧
      GraphEngine.start 8 .still { workerCount := 0 } = .error .moduloByZero ∧
      ¬ DivisionSafe 8 .still { workerCount := 0 } ∧
      readArgs {} ["--numa-nodes", "none"] = some { numaNodes := 0 } ∧
      ¬ DivisionSafe 8 .still { numaNodes := 0 } := by
  refine ⟨by decide +kernel, GraphEngine.start_of_zero 8 .still (Or.inl rfl), fun safe => ?_,
    by decide +kernel, fun safe => ?_⟩
  · exact ((divisionSafe_iff 8 .still (by decide)).mp safe).1 rfl
  · exact ((divisionSafe_iff 8 .still (by decide)).mp safe).2 rfl

end Pregel
