import Pregel.Provenance
import Pregel.Coordinator
import Mathlib.Algebra.BigOperators.Group.Finset.Basic

/-!
When an engine has nothing left to do, and what its two loops make of that.

`Coordinator::run` stops after the first superstep that leaves no vertex active, whether
messages are still on their way or not. `GraphEngine::benchmark` does not look and runs the
number of supersteps that it was given. The numbers of active vertices are the same in
every run of a graph, so that both loops can be compared superstep by superstep.

* `Asleep`: every vertex is halted and none has mail.
* `sleeps_forever_iff`: an engine never computes again exactly if it is asleep.
* `outcome_of_run`, `outcome_unique`: what the loop of the coordinator counts, and that it
  does not depend on anything but the graph, the number of workers and the limit.
* `benchmark_agrees`: the benchmark counts what the coordinator counts, and possibly more if
  the coordinator has stopped over messages.
-/

namespace Pregel

open Lts
open WorkerNode (Phase Event)

/-! ### Asleep -/

namespace Core

variable {σ μ : Type} [Addressed μ] {compute : Compute σ μ} {pmap : PartitionMap} {i : WorkerId}
  {step : Superstep} {c : Core σ μ}

/-- The number of vertices of a worker that are not halted. -/
def active (c : Core σ μ) : Nat := c.vertices.entries.countP fun e => !e.2.halted

/-- No vertex of a worker has anything to do. -/
structure Asleep (c : Core σ μ) : Prop where
  halted : ∀ vid v, c.vertices.lookup vid = some v → v.halted = true
  unread : ∀ vid ∈ c.vertices, c.inbox.filter (fun m => dst m = vid) = []

/-- The outboxes of a worker are collected. -/
def Rested (c : Core σ μ) : Prop :=
  ∀ vid v, c.vertices.lookup vid = some v → v.outbox = []

theorem rested_step : (c.step pmap i compute step).Rested := by
  intro vid v hv
  simp only [Core.step, AList.lookup_mapVals, Option.map_eq_some_iff] at hv
  obtain ⟨w, -, rfl⟩ := hv
  rfl

/-- A superstep leaves the vertices of a sleeping worker alone. -/
theorem Asleep.computed (asleep : c.Asleep) : c.computed compute step = c.vertices := by
  apply AList.mapVals_eq_self
  rintro ⟨vid, v⟩ he
  have hv := AList.lookup_eq_some_iff.mpr he
  have hunread := asleep.unread vid (AList.mem_of_mem_entries he)
  simp only [WorkerNode.advance, hunread, WorkerNode.extend_nil, asleep.halted vid v hv]
  rfl

variable (compute pmap i step) in
/-- It sleeps on. -/
theorem Asleep.next (asleep : c.Asleep) (rested : c.Rested) :
    (c.step pmap i compute step).vertices = c.vertices ∧
      (c.step pmap i compute step).Asleep := by
  have houtbox : ∀ e ∈ c.vertices.entries, e.2.outbox = [] := fun e he =>
    rested e.1 e.2 (AList.lookup_eq_some_iff.mpr he)
  have hvertices : (c.step pmap i compute step).vertices = c.vertices := by
    simp only [Core.step, asleep.computed]
    exact AList.mapVals_eq_self fun e he => Vertex.clearOutbox_of_nil (houtbox e he)
  have hinbox : (c.step pmap i compute step).inbox = [] := by
    simp only [Core.step, asleep.computed, List.flatMap_eq_nil_iff.mpr houtbox]
    rfl
  refine ⟨hvertices, fun vid v hv => asleep.halted vid v (hvertices ▸ hv), fun vid _ => ?_⟩
  rw [hinbox]
  rfl

theorem Asleep.active (asleep : c.Asleep) : c.active = 0 := by
  apply List.countP_eq_zero.mpr
  intro e he
  simp [asleep.halted e.1 e.2 (AList.lookup_eq_some_iff.mpr he)]

/-- And on. -/
theorem Asleep.run {k : Nat} (asleep : (c.run pmap i compute k).Asleep)
    (rested : (c.run pmap i compute k).Rested) (j : Nat) :
    (c.run pmap i compute (k + j)).vertices = (c.run pmap i compute k).vertices ∧
      (c.run pmap i compute (k + j)).Asleep ∧ (c.run pmap i compute (k + j)).Rested := by
  induction j with
  | zero => exact ⟨rfl, asleep, rested⟩
  | succ j ih =>
      obtain ⟨hvertices, hasleep, hrested⟩ := ih
      obtain ⟨hsame, hnext⟩ := hasleep.next compute pmap i (k + j) hrested
      exact ⟨hsame.trans hvertices, hnext, rested_step⟩

end Core

namespace GraphEngine

variable {σ μ : Type} [Addressed μ] {compute : Compute σ μ}

/-- No vertex of an engine has anything to do. -/
def Asleep (e : GraphEngine σ μ) : Prop :=
  ∀ i < e.config.workerCount, (e.workers i).core.Asleep

section Sleep

variable {config : EngineConfig} {vertices : List (Vertex σ μ)}
  {trs trs' : List (List (WorkerId × Event μ))} {k k' : Nat} {e e' : GraphEngine σ μ}
  {timing : WorkerId → WorkerId → Nat} {tr : List (WorkerId × Event μ)}

/-- **A superstep computes no vertex exactly if the engine is asleep.** -/
theorem asleep_iff (exec : Execution compute (load config vertices) trs k e)
    (run : SuperstepRun compute k timing e tr e') :
    Asleep e ↔ ∀ i vid inbox, (i, Event.compute vid inbox) ∉ tr := by
  have hconfig : e.config = config := by rw [(execution_frame exec).1, load_config]
  constructor
  · intro asleep i vid inbox hmem
    have hi := label_inRange run hmem
    obtain ⟨hbound, -⟩ := execution_core exec (hconfig ▸ hi)
    obtain ⟨htask, -⟩ := (mem_compute_iff run hi).mp hmem
    obtain ⟨v, hv, hactive⟩ := (WorkerNode.mem_taskIds_core hbound).mp htask
    rcases hactive with hactive | hmail
    · exact Bool.noConfusion (((asleep i hi).halted vid v hv).symm.trans hactive)
    · have hmem : vid ∈ (e.workers i).vertices := AList.lookup_isSome.mp (by simp [hv])
      exact hmail ((asleep i hi).unread vid hmem)
  · intro none i hi
    obtain ⟨hbound, -⟩ := execution_core exec (hconfig ▸ hi)
    have hidle : ∀ vid, vid ∉ ((e.workers i).receive (timing i)).taskIds := fun vid htask =>
      none i vid _ ((mem_compute_iff run hi).mpr ⟨htask, rfl⟩)
    constructor
    · intro vid v hv
      by_contra hactive
      exact hidle vid ((WorkerNode.mem_taskIds_core hbound).mpr
        ⟨v, hv, Or.inl (Bool.not_eq_true _ ▸ hactive)⟩)
    · intro vid hvid
      obtain ⟨v, hv⟩ := AList.exists_lookup_of_mem hvid
      by_contra hmail
      exact hidle vid ((WorkerNode.mem_taskIds_core hbound).mpr ⟨v, hv, Or.inr hmail⟩)

theorem core_superstep (exec : Execution compute (load config vertices) trs k e)
    (run : SuperstepRun compute k timing e tr e') {i : WorkerId} (hi : i < config.workerCount) :
    (e'.workers i).core = (e.workers i).core.step e.pmap i compute k := by
  have hconfig : e.config = config := by rw [(execution_frame exec).1, load_config]
  obtain ⟨hbound, -⟩ := execution_core exec hi
  rw [WorkerNode.run_eq_runSuperstep (worker_run run (hconfig ▸ hi))]
  exact WorkerNode.core_runSuperstep hbound

/-- After a superstep the outboxes are collected. -/
theorem rested_execution (exec : Execution compute (load config vertices) trs (k + 1) e)
    {i : WorkerId} (hi : i < config.workerCount) : (e.workers i).core.Rested := by
  obtain ⟨hbound, hcore⟩ := execution_core exec hi
  rw [hcore]
  exact Core.rested_step

/-- `e'` is what is left of `e` after a sleep. -/
structure Unchanged (e e' : GraphEngine σ μ) : Prop where
  asleep : Asleep e'
  vertices : ∀ i < e.config.workerCount, (e'.workers i).vertices = (e.workers i).vertices

/-- Run on, a sleeping engine sleeps on. -/
theorem Asleep.run (asleep : Asleep e)
    (exec : Execution compute (load config vertices) trs (k + 1) e)
    (rest : Run (NextSuperstep compute) (k + 1, e) trs' (k', e')) :
    Unchanged e e' ∧ ∀ tr ∈ trs', ∀ i vid inbox, (i, Event.compute vid inbox) ∉ tr := by
  induction trs' generalizing trs k e with
  | nil =>
      cases run_nil_iff.mp rest
      exact ⟨⟨asleep, fun _ _ => rfl⟩, fun tr htr => nomatch htr⟩
  | cons tr trs' ih =>
      obtain ⟨⟨j, e₁⟩, ⟨rfl, timing, run⟩, rest⟩ := run_cons_iff.mp rest
      have hconfig : e.config = config := by rw [(execution_frame exec).1, load_config]
      have hexec := exec.next run
      have hconfig₁ : e₁.config = config := by rw [(execution_frame hexec).1, load_config]
      have hnext : ∀ i < config.workerCount, (e₁.workers i).vertices = (e.workers i).vertices ∧
          (e₁.workers i).core.Asleep := by
        intro i hi
        have hcore := core_superstep exec run hi
        have hsleep := (asleep i (hconfig ▸ hi)).next compute e.pmap i (k + 1)
          (rested_execution exec hi)
        rw [← hcore] at hsleep
        exact hsleep
      obtain ⟨unchanged, hnone⟩ := ih (fun i hi => (hnext i (hconfig₁ ▸ hi)).2) hexec rest
      refine ⟨⟨unchanged.asleep, fun i hi => ?_⟩, ?_⟩
      · rw [unchanged.vertices i (by rw [hconfig₁, ← hconfig]; exact hi)]
        exact (hnext i (hconfig ▸ hi)).1
      · rintro tr' htr'
        rcases List.mem_cons.mp htr' with rfl | htr'
        · exact (asleep_iff exec run).mp asleep
        · exact hnone tr' htr'

/-- **When an engine has nothing left to do.** Take any run of any graph, of one superstep at
least, and any way to run it on. No vertex computes in any of the supersteps that follow if
and only if all vertices are halted now, and nothing that is in the inbox of a bus is for a
vertex of that bus's worker. -/
theorem sleeps_forever_iff (exec : Execution compute (load config vertices) trs (k + 1) e)
    (rest : Run (NextSuperstep compute) (k + 1, e) trs' (k', e')) (more : trs' ≠ []) :
    (∀ tr ∈ trs', ∀ i vid inbox, (i, Event.compute vid inbox) ∉ tr) ↔ Asleep e := by
  constructor
  · intro hnone
    obtain ⟨tr, trs', rfl⟩ := List.exists_cons_of_ne_nil more
    obtain ⟨⟨j, e₁⟩, ⟨-, timing, run⟩, -⟩ := run_cons_iff.mp rest
    exact (asleep_iff exec run).mpr (hnone tr List.mem_cons_self)
  · exact fun asleep => (asleep.run exec rest).2

end Sleep

/-- Both vertices of `pair` are halted after a superstep, and each has a message: they compute
again. -/
theorem sleeps_forever_iff_pair : ∃ tr : List (WorkerId × Event Message),
    ∃ e : GraphEngine Nat Message, (e.workers 0).active = 0 ∧
      ∃ i vid inbox, (i, Event.compute vid inbox) ∈ tr := by
  have nodes : ∀ i < (pair { workerCount := 1 }).config.workerCount,
      0 < ((pair { workerCount := 1 }).workers i).config.numaNodes :=
    fun i _ => load_nodes Nat.two_pos _ i
  obtain ⟨trs, exec⟩ := execution_supersteps pingPong (fun _ _ _ => 0) nodes 1
  obtain ⟨tr, run⟩ := superstepRun_supersteps pingPong (fun _ _ _ => 0) nodes 1
  have rest : Run (NextSuperstep pingPong) (1, _) [tr] (2, _) := .one ⟨rfl, _, run⟩
  refine ⟨tr, _, (by decide : (((pair { workerCount := 1 }).supersteps pingPong
    (fun _ _ _ => 0) 1).workers 0).active = 0), ?_⟩
  by_contra hnone
  have asleep := (sleeps_forever_iff exec rest (List.cons_ne_nil _ _)).mp fun tr' htr' i vid inbox h =>
    hnone ⟨i, vid, inbox, List.mem_singleton.mp htr' ▸ h⟩
  exact absurd ((asleep 0 Nat.one_pos).unread 0 (by decide)) (by decide)

/-! ### How many vertices are active -/

/-- The number of active vertices after superstep `s`. -/
def activeAfter (compute : Compute σ μ) (config : EngineConfig) (vertices : List (Vertex σ μ))
    (s : Superstep) : Nat :=
  ((List.range config.workerCount).map fun i =>
    (((load config vertices).workers i).core.run (load config vertices).pmap i compute
      (s + 1)).active).sum

section Counts

variable {config : EngineConfig} {vertices : List (Vertex σ μ)}
  {trs : List (List (WorkerId × Event μ))} {k n : Nat} {e : GraphEngine σ μ}

/-- It is the same in every run. -/
theorem totalActive_of_execution (exec : Execution compute (load config vertices) trs (k + 1) e) :
    e.totalActive = activeAfter compute config vertices k := by
  have hconfig : e.config = config := by rw [(execution_frame exec).1, load_config]
  rw [totalActive, activeAfter, hconfig]
  congr 1
  apply List.map_congr_left
  intro i hi
  obtain ⟨-, hcore⟩ := execution_core exec (List.mem_range.mp hi)
  rw [← hcore]
  rfl

section Settings

variable {config₁ config₂ : EngineConfig} (workers : config₁.workerCount = config₂.workerCount)
  (vertices : List (Vertex σ μ))

include workers

omit [Addressed μ] in
/-- Of the settings only the number of workers matters. -/
theorem load_core_of_workers (i : WorkerId) :
    ((load config₁ vertices).workers i).core = ((load config₂ vertices).workers i).core := by
  have hpmap : (setupInfrastructure (σ := σ) (μ := μ) config₁).pmap =
      (setupInfrastructure (σ := σ) (μ := μ) config₂).pmap :=
    congrArg (fun n => ({ workerCount := n } : PartitionMap)) workers
  have hvertices := distributeVertices_congr (setupInfrastructure config₁)
    (setupInfrastructure config₂) hpmap (fun _ => rfl) vertices i
  have hinbox : ∀ c : EngineConfig, ((load c vertices).workers i).bus.inbox = [] := by
    intro c
    rw [load_worker]
    rfl
  unfold WorkerNode.core
  rw [hinbox, hinbox]
  exact congrArg (Core.mk · []) hvertices

theorem activeAfter_of_workers :
    activeAfter compute config₁ vertices = activeAfter compute config₂ vertices := by
  funext s
  rw [activeAfter, activeAfter, workers]
  congr 1
  apply List.map_congr_left
  intro i _
  rw [load_core_of_workers workers, load_pmap, load_pmap, workers]

end Settings

/-- An engine that is asleep after superstep `k` has no active vertex from then on. -/
theorem activeAfter_of_asleep (exec : Execution compute (load config vertices) trs (k + 1) e)
    (asleep : Asleep e) (j : Nat) : activeAfter compute config vertices (k + j) = 0 := by
  have hconfig : e.config = config := by rw [(execution_frame exec).1, load_config]
  apply List.sum_eq_zero
  intro a ha
  obtain ⟨i, hi, rfl⟩ := List.mem_map.mp ha
  have hi := List.mem_range.mp hi
  have hasleep := asleep i (hconfig ▸ hi)
  have hrested := rested_execution exec hi
  rw [(execution_core exec hi).2] at hasleep hrested
  rw [Nat.add_right_comm]
  exact (hasleep.run hrested j).2.1.active

end Counts

end GraphEngine

/-! ### The loop of the coordinator -/

namespace Coordinator

open GraphEngine (Execution activeAfter load)

variable {σ μ : Type} [Addressed μ] {compute : Compute σ μ}

/-- The loop has ended. -/
def Phase.finished : Phase → Bool
  | .running _ => false
  | .converged _ => true
  | .exhausted => true

/-- The number of supersteps that have been run, of at most `max`. -/
def Phase.supersteps (max : Nat) : Phase → Nat
  | .running k => k
  | .converged k => k + 1
  | .exhausted => max

/-- What `run` has counted, if `a s` vertices are active after superstep `s`. -/
def Counted (a : Nat → Nat) (max : Nat) : Phase → Nat → Prop
  | .running k, total => k ≤ max ∧ (∀ s < k, a s ≠ 0) ∧ total = ∑ s ∈ Finset.range k, a s
  | .converged k, total =>
      k < max ∧ (∀ s < k, a s ≠ 0) ∧ a k = 0 ∧ total = ∑ s ∈ Finset.range k, a s
  | .exhausted, total => (∀ s < max, a s ≠ 0) ∧ total = ∑ s ∈ Finset.range max, a s

/-- A loop that has ended has ended in one way. -/
theorem Counted.unique {a : Nat → Nat} {max : Nat} {ph₁ ph₂ : Phase} {total₁ total₂ : Nat}
    (h₁ : Counted a max ph₁ total₁) (h₂ : Counted a max ph₂ total₂) (finished₁ : ph₁.finished = true)
    (finished₂ : ph₂.finished = true) : ph₁ = ph₂ ∧ total₁ = total₂ := by
  cases ph₁ with
  | running => cases finished₁
  | converged k₁ =>
      obtain ⟨hmax₁, hactive₁, hzero₁, rfl⟩ := h₁
      cases ph₂ with
      | running => cases finished₂
      | converged k₂ =>
          obtain ⟨-, hactive₂, hzero₂, rfl⟩ := h₂
          -- both are the first superstep that leaves no vertex active
          obtain rfl : k₁ = k₂ := Nat.le_antisymm
            (not_lt.mp fun hlt => hactive₁ k₂ hlt hzero₂)
            (not_lt.mp fun hlt => hactive₂ k₁ hlt hzero₁)
          exact ⟨rfl, rfl⟩
      | exhausted => exact absurd hzero₁ (h₂.1 k₁ hmax₁)
  | exhausted =>
      cases ph₂ with
      | running => cases finished₂
      | converged k₂ => exact absurd h₂.2.2.1 (h₁.1 k₂ h₂.1)
      | exhausted => exact ⟨rfl, h₁.2.trans h₂.2.symm⟩

section Runs

variable {config : EngineConfig} {vertices : List (Vertex σ μ)} {ls : List (Event μ)}
  {c : Coordinator σ μ}

/-- **What the loop does and counts**, in any run. -/
theorem outcome_of_run (run : Run (Step compute) { engine := load config vertices } ls c) :
    Execution compute (load config vertices) (traces ls) (c.phase.supersteps config.maxSupersteps)
        c.engine ∧
      Counted (activeAfter compute config vertices) config.maxSupersteps c.phase
        c.totalVerticesProcessed := by
  refine run.invariant_history (fun ls (c : Coordinator σ μ) =>
    Execution compute (load config vertices) (traces ls) (c.phase.supersteps config.maxSupersteps)
        c.engine ∧
      Counted (activeAfter compute config vertices) config.maxSupersteps c.phase
        c.totalVerticesProcessed) ?_
    ⟨.nil _, Nat.zero_le _, fun s hs => absurd hs (Nat.not_lt_zero s), rfl⟩
  rintro ls c l c' ⟨exec, counted⟩ hstep
  have hconfig : c.engine.config = config := by
    rw [(GraphEngine.execution_frame exec).1, GraphEngine.load_config]
  have htraces : traces (ls ++ [l]) = traces ls ++ traces [l] := List.filterMap_append
  rw [htraces]
  cases hstep with
  | @superstep step timing tr e running more superstep =>
      rw [running] at exec counted
      obtain ⟨-, hactive, htotal⟩ := counted
      have hexec : Execution compute (load config vertices) (traces ls ++ [tr]) (step + 1) e :=
        exec.next superstep
      have hcount := GraphEngine.totalActive_of_execution hexec
      have hmore : step < config.maxSupersteps := hconfig ▸ more
      have hsum : c.totalVerticesProcessed + e.totalActive =
          ∑ s ∈ Finset.range (step + 1), activeAfter compute config vertices s := by
        rw [Finset.sum_range_succ, htotal, hcount]
      split
      · next hzero =>
          have hsame : c.totalVerticesProcessed + e.totalActive = c.totalVerticesProcessed := by
            rw [hzero, Nat.add_zero]
          exact ⟨hexec, hmore, hactive, hcount.symm.trans hzero, hsame.trans htotal⟩
      · next hpos =>
          refine ⟨hexec, hmore, ?_, hsum⟩
          intro s hs
          rcases Nat.lt_succ_iff_lt_or_eq.mp hs with hs | rfl
          · exact hactive s hs
          · rwa [← hcount]
  | @exhausted step running nomore =>
      rw [running] at exec counted
      obtain ⟨hle, hactive, htotal⟩ := counted
      obtain rfl : step = config.maxSupersteps :=
        Nat.le_antisymm hle (not_lt.mp (hconfig ▸ nomore))
      refine ⟨?_, hactive, htotal⟩
      change Execution compute _ (traces ls ++ []) _ _
      rwa [List.append_nil]
  | failure =>
      refine ⟨?_, counted⟩
      change Execution compute _ (traces ls ++ []) _ _
      rwa [List.append_nil]

/-- **A run has one outcome**, whatever the settings but the number of workers and the limit. -/
theorem outcome_unique {config₁ config₂ : EngineConfig}
    (workers : config₁.workerCount = config₂.workerCount)
    (limit : config₁.maxSupersteps = config₂.maxSupersteps) {ls₁ ls₂ : List (Event μ)}
    {c₁ c₂ : Coordinator σ μ}
    (run₁ : Run (Step compute) { engine := load config₁ vertices } ls₁ c₁)
    (run₂ : Run (Step compute) { engine := load config₂ vertices } ls₂ c₂)
    (finished₁ : c₁.phase.finished = true) (finished₂ : c₂.phase.finished = true) :
    c₁.phase = c₂.phase ∧ c₁.totalVerticesProcessed = c₂.totalVerticesProcessed ∧
      ∀ i < config₁.workerCount, (c₁.engine.workers i).vertices = (c₂.engine.workers i).vertices := by
  obtain ⟨exec₁, counted₁⟩ := outcome_of_run run₁
  obtain ⟨exec₂, counted₂⟩ := outcome_of_run run₂
  rw [GraphEngine.activeAfter_of_workers workers, limit] at counted₁
  obtain ⟨hphase, htotal⟩ := counted₁.unique counted₂ finished₁ finished₂
  refine ⟨hphase, htotal, fun i hi => ?_⟩
  obtain ⟨-, hcore₁⟩ := GraphEngine.execution_core exec₁ hi
  obtain ⟨-, hcore₂⟩ := GraphEngine.execution_core exec₂ (workers ▸ hi)
  rw [GraphEngine.load_core_of_workers workers, GraphEngine.load_pmap, workers, hphase, limit]
    at hcore₁
  rw [GraphEngine.load_pmap] at hcore₂
  exact congrArg Core.vertices (hcore₁.trans hcore₂.symm)

theorem finished_or_running (ph : Phase) : ph.finished = true ∨ ∃ k, ph = .running k := by
  cases ph with
  | running k => exact Or.inr ⟨k, rfl⟩
  | converged k => exact Or.inl rfl
  | exhausted => exact Or.inl rfl

/-- The workers keep their configuration. -/
theorem nodes_of_execution {trs : List (List (WorkerId × WorkerNode.Event μ))} {k : Nat}
    {e : GraphEngine σ μ} (nodes : 0 < config.numaNodes)
    (exec : Execution compute (load config vertices) trs k e) (i : WorkerId) :
    0 < (e.workers i).config.numaNodes := by
  refine exec.invariant (fun _ e => 0 < (e.workers i).config.numaNodes) ?_
    (GraphEngine.load_nodes nodes vertices i)
  intro k timing e₁ tr e₂ h run
  by_cases hi : i < e₁.config.workerCount
  · rw [WorkerNode.run_eq_runSuperstep (GraphEngine.worker_run run hi),
      WorkerNode.runSuperstep_config]
    exact h
  · rwa [GraphEngine.worker_idle run hi]

end Runs

end Coordinator

/-! ### The benchmark -/

/-- `GraphEngine::benchmark`: the engine and `total_verts`. The rate that it returns is
`total_verts` by the time it took. -/
structure Benchmark (σ μ : Type) where
  engine : GraphEngine σ μ
  totalVerts : Nat := 0

namespace Benchmark

open GraphEngine (Execution activeAfter load NextSuperstep)

variable {σ μ : Type} [Addressed μ] {compute : Compute σ μ}

/-- One round of the loop of `benchmark`. -/
def Round (compute : Compute σ μ) (s : Superstep × Benchmark σ μ)
    (tr : List (WorkerId × Event μ)) (t : Superstep × Benchmark σ μ) : Prop :=
  NextSuperstep compute (s.1, s.2.engine) tr (t.1, t.2.engine) ∧
    t.2.totalVerts = s.2.totalVerts + t.2.engine.totalActive

section Runs

variable {config : EngineConfig} {vertices : List (Vertex σ μ)}
  {trs : List (List (WorkerId × Event μ))} {n : Nat} {b : Benchmark σ μ}

/-- What the benchmark does and counts. -/
theorem counts_of_run (run : Run (Round compute) (0, { engine := load config vertices }) trs (n, b)) :
    Execution compute (load config vertices) trs n b.engine ∧
      b.totalVerts = ∑ s ∈ Finset.range n, activeAfter compute config vertices s := by
  refine run.invariant_history (fun trs (s : Superstep × Benchmark σ μ) =>
    Execution compute (load config vertices) trs s.1 s.2.engine ∧
      s.2.totalVerts = ∑ s ∈ Finset.range s.1, activeAfter compute config vertices s) ?_ ⟨.nil _, rfl⟩
  rintro trs ⟨k, b⟩ tr ⟨k', b'⟩ ⟨exec, htotal⟩ ⟨⟨hnext, timing, superstep⟩, hround⟩
  obtain rfl : k' = k + 1 := hnext
  have hexec := exec.next superstep
  refine ⟨hexec, ?_⟩
  have htotal : b.totalVerts = _ := htotal
  have hround : b'.totalVerts = b.totalVerts + b'.engine.totalActive := hround
  rw [hround, htotal, Finset.sum_range_succ, GraphEngine.totalActive_of_execution hexec]

/-- **The benchmark and the coordinator.** Take any run of the coordinator over a graph that has
ended, and any run of the benchmark over the same graph. If the loop has ended without
convergence, a benchmark of `max_supersteps` supersteps counts the same and leaves the same
vertices. If it has converged in superstep `k`, a longer benchmark counts no less; and if the
engine is asleep then, it counts the same and leaves the same vertices. -/
theorem benchmark_agrees {ls : List (Coordinator.Event μ)} {c : Coordinator σ μ}
    (run : Run (Coordinator.Step compute) { engine := load config vertices } ls c)
    (bench : Run (Round compute) (0, { engine := load config vertices }) trs (n, b)) :
    (c.phase = .exhausted → n = config.maxSupersteps →
        b.totalVerts = c.totalVerticesProcessed ∧
          ∀ i < config.workerCount, (b.engine.workers i).vertices = (c.engine.workers i).vertices) ∧
      ∀ k, c.phase = .converged k → k < n →
        c.totalVerticesProcessed ≤ b.totalVerts ∧
          (c.engine.Asleep → b.totalVerts = c.totalVerticesProcessed ∧ ∀ i < config.workerCount,
            (b.engine.workers i).vertices = (c.engine.workers i).vertices) := by
  obtain ⟨exec, counted⟩ := Coordinator.outcome_of_run run
  obtain ⟨exec', htotal⟩ := counts_of_run bench
  constructor
  · rintro hphase rfl
    rw [hphase] at exec counted
    refine ⟨htotal.trans counted.2.symm, fun i hi => ?_⟩
    exact congrArg Core.vertices (((GraphEngine.execution_core exec' hi).2).trans
      (GraphEngine.execution_core exec hi).2.symm)
  · intro k hphase hlt
    rw [hphase] at exec counted
    obtain ⟨-, -, hzero, hcount⟩ := counted
    obtain ⟨j, rfl⟩ := Nat.exists_eq_add_of_le (Nat.succ_le_of_lt hlt)
    have hsplit : k.succ + j = k + (1 + j) := Nat.add_assoc k 1 j
    rw [htotal, hcount, hsplit, Finset.sum_range_add]
    constructor
    · exact Nat.le_add_right _ _
    · intro asleep
      constructor
      · -- nobody is active from superstep `k` on
        have hrest : ∑ x ∈ Finset.range (1 + j), activeAfter compute config vertices (k + x) = 0 :=
          Finset.sum_eq_zero fun x _ => GraphEngine.activeAfter_of_asleep exec asleep x
        rw [hrest, Nat.add_zero]
      · intro i hi
        have hconfig : c.engine.config = config := by
          rw [(GraphEngine.execution_frame exec).1, GraphEngine.load_config]
        have hasleep := asleep i (hconfig ▸ hi)
        have hrested := GraphEngine.rested_execution exec hi
        have hcore := (GraphEngine.execution_core exec hi).2
        have hcore' := (GraphEngine.execution_core exec' hi).2
        change _ = Core.run _ i compute _ (k + 1) at hcore
        rw [hcore] at hasleep hrested
        have hsame := (hasleep.run hrested j).1
        rw [← hcore, ← hcore'] at hsame
        exact hsame

/-- Every execution is one of the benchmark. -/
theorem run_of_execution {e : GraphEngine σ μ}
    (exec : Execution compute (load config vertices) trs n e) :
    ∃ b : Benchmark σ μ, b.engine = e ∧
      Run (Round compute) (0, { engine := load config vertices }) trs (n, b) := by
  apply exec.invariant_history (fun trs s => ∃ b : Benchmark σ μ, b.engine = s.2 ∧
    Run (Round compute) (0, { engine := load config vertices }) trs (s.1, b))
  · rintro trs ⟨k, e⟩ tr ⟨k', e'⟩ ⟨b, rfl, run⟩ hstep
    -- a round is a superstep of the engine, after which its active vertices are added up
    exact ⟨⟨e', b.totalVerts + e'.totalActive⟩, rfl, run.append (.one ⟨hstep, rfl⟩)⟩
  · exact ⟨_, rfl, .nil _⟩

end Runs

/-- On two workers the messages of the two vertices are lost, so that they sleep after the
first superstep. -/
theorem benchmark_agrees_pair : ∃ c : Coordinator Nat Message, ∃ b : Benchmark Nat Message,
    c.phase = .converged 0 ∧ b.totalVerts = c.totalVerticesProcessed := by
  have nodes : ∀ i < (GraphEngine.pair { workerCount := 2 }).config.workerCount,
      0 < ((GraphEngine.pair { workerCount := 2 }).workers i).config.numaNodes :=
    fun i _ => GraphEngine.load_nodes Nat.two_pos _ i
  obtain ⟨tr, superstep⟩ :=
    GraphEngine.superstepRun_supersteps GraphEngine.pingPong (fun _ _ _ => 0) nodes 0
  obtain ⟨trs, exec⟩ :=
    GraphEngine.execution_supersteps GraphEngine.pingPong (fun _ _ _ => 0) nodes 3
  obtain ⟨b, -, bench⟩ := run_of_execution exec
  have run : Run (Coordinator.Step GraphEngine.pingPong)
      { engine := load { workerCount := 2 } GraphEngine.pairVertices } [_] _ :=
    .one (.superstep rfl (by decide) superstep)
  have asleep : GraphEngine.Asleep ((GraphEngine.pair { workerCount := 2 }).supersteps
      GraphEngine.pingPong (fun _ _ _ => 0) 1) := by
    intro i hi
    have hhalted : ∀ i < 2, ∀ e ∈ (((GraphEngine.pair { workerCount := 2 }).supersteps
        GraphEngine.pingPong (fun _ _ _ => 0) 1).workers i).vertices.entries, e.2.halted = true := by
      decide
    have hinbox : ∀ i < 2, (((GraphEngine.pair { workerCount := 2 }).supersteps
        GraphEngine.pingPong (fun _ _ _ => 0) 1).workers i).bus.inbox = [] := by
      decide
    refine ⟨fun vid v hv => hhalted i hi _ (AList.lookup_eq_some_iff.mp hv), fun vid _ => ?_⟩
    exact (congrArg (List.filter _) (hinbox i hi)).trans rfl
  exact ⟨_, b, rfl, (((benchmark_agrees run bench).2 0 rfl (by decide)).2 asleep).1⟩

end Benchmark

end Pregel
