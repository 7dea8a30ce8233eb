import Pregel.GraphEngine

/-!
A worker by itself.

The buses of two workers never meet: a message for another worker is dropped, or
it goes to a queue pair of the sender and comes back to the sender's own inbox.
There it is dispatched to a vertex the sender does not have. So what a worker's
vertices do depends on the worker's own vertices and on the messages they send
one another, and on nothing else: not on the other workers, not on the transport
and not on its timing. `Core` is this part of a worker and `Core.step` its
superstep.

* `AtBoundary`: the invariant of a worker between supersteps. The inbox entries
  that came back belong to vertices of other workers, as does everything in the
  queue pairs.
* `core_runSuperstep`, `atBoundary_runSuperstep`: a superstep of the worker is a
  superstep of its core and keeps the invariant.
* `execution_core`: after any number of supersteps, a loaded worker has the core
  that `Core.run` computes.
* `transport_modes_agree`: the runs with and without the simulated transport
  compute the same.
-/

namespace Pregel

open Lts
open WorkerNode (Phase Event)

/-- The vertices of a worker and the messages waiting for them. -/
structure Core (σ μ : Type) where
  vertices : AList fun _ : VertexId => Vertex σ μ
  inbox : List μ

namespace Core

variable {σ μ : Type} [Addressed μ]

/-- The vertices after their `compute`, before the outboxes are collected. -/
def computed (compute : Compute σ μ) (step : Superstep) (c : Core σ μ) :
    AList fun _ : VertexId => Vertex σ μ :=
  c.vertices.mapVals fun vid v => WorkerNode.advance compute step
    (WorkerNode.extend none (c.inbox.filter fun m => dst m = vid)) v

/-- What worker `i` makes of its own vertices in a superstep. Only messages for
its own vertices are kept. -/
def step (pmap : PartitionMap) (i : WorkerId) (compute : Compute σ μ) (step : Superstep)
    (c : Core σ μ) : Core σ μ where
  vertices := (c.computed compute step).mapVals fun _ v => v.clearOutbox
  inbox := ((c.computed compute step).entries.flatMap fun e => e.2.outbox).filter fun m =>
    pmap.ownerOf (dst m) = i

/-- Supersteps `0 .. k - 1`. -/
def run (pmap : PartitionMap) (i : WorkerId) (compute : Compute σ μ) (c : Core σ μ) :
    Nat → Core σ μ
  | 0 => c
  | k + 1 => (run pmap i compute c k).step pmap i compute k

end Core

namespace WorkerNode

variable {σ μ : Type} [Addressed μ]

def core (n : WorkerNode σ μ) : Core σ μ := ⟨n.vertices, n.bus.inbox⟩

/-- Worker `i` between two supersteps. -/
structure AtBoundary (pmap : PartitionMap) (i : WorkerId) (n : WorkerNode σ μ) : Prop where
  localId : n.bus.localId = i
  inRange : i < n.bus.workerCount
  owned : ∀ vid ∈ n.vertices, pmap.ownerOf vid = i
  consumed : ∀ vid ∈ n.vertices, n.vertexInbox vid = none
  flushed : n.bus.outboxes = fun _ => []
  foreign : ∀ m, n.bus.Holds m → pmap.ownerOf (dst m) ≠ i

variable {pmap : PartitionMap} {i : WorkerId} {n : WorkerNode σ μ} {compute : Compute σ μ}
  {step : Superstep} {timing : WorkerId → Nat}

/-- What comes back from the transport is not for this worker's vertices. -/
theorem receive_own (h : AtBoundary pmap i n) {vid : VertexId} (hvid : vid ∈ n.vertices) :
    (n.receive timing).vertexInbox vid =
      extend none (n.bus.inbox.filter fun m => dst m = vid) := by
  obtain ⟨remote, hdrain, hremote⟩ := (n.bus.network timing).drainInbox_eq
  have hnone : remote.filter (fun m => dst m = vid) = [] := by
    apply List.filter_eq_nil_iff.mpr
    intro m hm
    have hforeign := h.foreign m (MessageBus.holds_network.mp (hremote m hm))
    intro hdst
    rw [of_decide_eq_true hdst] at hforeign
    exact hforeign (h.owned vid hvid)
  rw [receive_vertexInbox, hdrain, List.filter_append, hnone, List.append_nil, h.consumed vid hvid]
  rfl

/-- The vertices with a task: those that are not halted or have mail. -/
theorem mem_taskIds_core (h : AtBoundary pmap i n) {vid : VertexId} :
    vid ∈ (n.receive timing).taskIds ↔ ∃ v, n.vertices.lookup vid = some v ∧
      (v.halted = false ∨ n.bus.inbox.filter (fun m => dst m = vid) ≠ []) := by
  rw [mem_taskIds, receive_vertices]
  refine exists_congr fun v => and_congr_right fun hv => ?_
  have hmem : vid ∈ n.vertices := AList.lookup_isSome.mp (by simp [hv])
  rw [skips, receive_own h hmem, Bool.and_eq_false_iff, ← Bool.not_eq_true (Option.isNone _),
    Option.isNone_iff_eq_none, isNone_extend]
  simp

theorem inboxOf_core (h : AtBoundary pmap i n) {vid : VertexId} (hvid : vid ∈ n.vertices) :
    (n.receive timing).inboxOf vid = n.bus.inbox.filter fun m => dst m = vid := by
  rw [inboxOf, receive_own h hvid, getD_extend]
  rfl

theorem computed_vertices_core (h : AtBoundary pmap i n) :
    (n.computed compute step timing).vertices = n.core.computed compute step := by
  rw [computed_vertices]
  apply AList.mapVals_congr
  intro e he
  rw [receive_own h (AList.mem_of_mem_entries he)]
  rfl

omit [Addressed μ] in
theorem collectedMessages_eq (n : WorkerNode σ μ) :
    n.collectedMessages = n.vertices.entries.flatMap fun e => e.2.outbox := by
  simp [collectedMessages, outboxes, List.flatMap_map]

/-- A drained bus has nothing to flush. -/
theorem computed_flushed (h : AtBoundary pmap i n) :
    (n.computed compute step timing).bus.outboxes = fun _ => [] := by
  rw [computed_bus, MessageBus.drainInbox_outboxes]
  exact h.flushed

theorem runSuperstep_bus : (n.runSuperstep pmap compute step timing).bus =
    ((n.computed compute step timing).bus.enqueueBatch pmap
      (n.computed compute step timing).collectedMessages).flush := by
  rw [runSuperstep_eq, finish_eq]

theorem runSuperstep_vertices : (n.runSuperstep pmap compute step timing).vertices =
    (n.computed compute step timing).vertices.mapVals fun _ v => v.clearOutbox := by
  rw [runSuperstep_eq, finish_eq]

theorem runSuperstep_vertexInbox (vid : VertexId) :
    (n.runSuperstep pmap compute step timing).vertexInbox vid =
      if vid ∈ n.vertices then none else (n.receive timing).vertexInbox vid := by
  rw [runSuperstep_eq, finish_eq, ← computed_vertexInbox]

theorem runSuperstep_inboxOf (vid : VertexId) :
    (n.runSuperstep pmap compute step timing).inboxOf vid =
      if vid ∈ n.vertices then [] else (n.receive timing).inboxOf vid := by
  rw [inboxOf, runSuperstep_vertexInbox]
  split <;> rfl

theorem runSuperstep_useRdma :
    (n.runSuperstep pmap compute step timing).bus.useRdma = n.bus.useRdma := by
  rw [runSuperstep_bus, MessageBus.flush_useRdma, MessageBus.enqueueBatch_useRdma, computed_bus,
    MessageBus.drainInbox_useRdma]
  rfl

theorem runSuperstep_workerCount :
    (n.runSuperstep pmap compute step timing).bus.workerCount = n.bus.workerCount := by
  rw [runSuperstep_bus, MessageBus.flush_workerCount, MessageBus.enqueueBatch_workerCount,
    computed_bus, MessageBus.drainInbox_workerCount]
  rfl

theorem runSuperstep_localId :
    (n.runSuperstep pmap compute step timing).bus.localId = n.bus.localId := by
  rw [runSuperstep_bus, MessageBus.flush_localId, MessageBus.enqueueBatch_localId, computed_bus,
    MessageBus.drainInbox_localId]
  rfl

theorem connected_runSuperstep (h : n.bus.Connected) :
    (n.runSuperstep pmap compute step timing).bus.Connected := by
  rw [runSuperstep_bus]
  refine MessageBus.connected_flush (MessageBus.connected_enqueueBatch ?_ _)
  exact MessageBus.connected_drainInbox (MessageBus.connected_network h timing)

theorem mem_runSuperstep {vid : VertexId} :
    vid ∈ (n.runSuperstep pmap compute step timing).vertices ↔ vid ∈ n.vertices := by
  rw [runSuperstep_vertices, computed_vertices, AList.mem_mapVals, AList.mem_mapVals]

/-- **A superstep of a worker is a superstep of its core**, whatever the transport
does. -/
theorem core_runSuperstep (h : AtBoundary pmap i n) :
    (n.runSuperstep pmap compute step timing).core = n.core.step pmap i compute step := by
  have hlocal : (n.computed compute step timing).bus.localId = i := by
    rw [computed_bus, MessageBus.drainInbox_localId]
    exact h.localId
  have hrange : (n.computed compute step timing).bus.localId <
      (n.computed compute step timing).bus.workerCount := by
    rw [hlocal, computed_bus, MessageBus.drainInbox_workerCount]
    exact h.inRange
  unfold core Core.step
  rw [runSuperstep_vertices, runSuperstep_bus, MessageBus.inbox_of_routed (computed_flushed h) hrange,
    collectedMessages_eq, computed_vertices_core h, hlocal]
  rfl

theorem atBoundary_runSuperstep (h : AtBoundary pmap i n) :
    AtBoundary pmap i (n.runSuperstep pmap compute step timing) where
  localId := runSuperstep_localId.trans h.localId
  inRange := by
    rw [runSuperstep_workerCount]
    exact h.inRange
  owned vid hvid := h.owned vid (mem_runSuperstep.mp hvid)
  consumed vid hvid := by
    rw [runSuperstep_vertexInbox, if_pos (mem_runSuperstep.mp hvid)]
  flushed := by rw [runSuperstep_bus, MessageBus.flush_outboxes]
  foreign m hm := by
    rw [runSuperstep_bus] at hm
    rcases MessageBus.holds_of_routed (computed_flushed h) hm with hm | ⟨-, -, hne, -⟩
    · exact h.foreign m (MessageBus.holds_network.mp (MessageBus.holds_drainInbox hm))
    · rw [computed_bus, MessageBus.drainInbox_localId] at hne
      exact fun howner => hne (howner.trans h.localId.symm)

end WorkerNode

/-! ### Workers of a loaded engine -/

namespace GraphEngine

variable {σ μ : Type} [Addressed μ] {compute : Compute σ μ}

theorem load_atBoundary (config : EngineConfig) (vertices : List (Vertex σ μ)) {i : WorkerId}
    (hi : i < config.workerCount) :
    WorkerNode.AtBoundary (load config vertices).pmap i ((load config vertices).workers i) := by
  rw [load_worker, load_pmap]
  constructor
  · rfl
  · exact hi
  · intro vid hvid
    obtain ⟨v, hv⟩ := AList.exists_lookup_of_mem hvid
    simp only at hv
    rw [load_lookup] at hv
    by_contra hne
    rw [if_neg (show ¬ vid % config.workerCount = i from hne)] at hv
    cases hv
  · intro vid _
    rfl
  · rfl
  · rintro m ⟨t, ht, hm⟩
    simp only [WorkerNode.new, MessageBus.new] at ht
    split at ht
    · cases ht
      exact absurd hm (RdmaTransport.not_holds_new _ _ m)
    · cases ht

/-- **After `k` supersteps every worker of a loaded engine has the core that its
own vertices alone determine.** -/
theorem execution_core {config : EngineConfig} {vertices : List (Vertex σ μ)}
    {trs : List (List (WorkerId × Event μ))} {k : Nat} {e : GraphEngine σ μ}
    (exec : Execution compute (load config vertices) trs k e) {i : WorkerId}
    (hi : i < config.workerCount) :
    WorkerNode.AtBoundary e.pmap i (e.workers i) ∧
      (e.workers i).core = ((load config vertices).workers i).core.run
        (load config vertices).pmap i compute k := by
  have hinv := exec.invariant (fun k e => e.config = config ∧
    e.pmap = (load config vertices).pmap ∧ WorkerNode.AtBoundary e.pmap i (e.workers i) ∧
      (e.workers i).core = ((load config vertices).workers i).core.run
        (load config vertices).pmap i compute k) ?_
    ⟨load_config config vertices, rfl, load_atBoundary config vertices hi, rfl⟩
  · exact hinv.2.2
  · rintro k timing e₁ tr e₂ ⟨hconfig, hpmap, hbound, hcore⟩ run
    have hrun := worker_run run (i := i) (hconfig ▸ hi)
    rw [WorkerNode.run_eq_runSuperstep hrun, superstepRun_eq run]
    refine ⟨hconfig, hpmap, WorkerNode.atBoundary_runSuperstep hbound, ?_⟩
    rw [WorkerNode.core_runSuperstep hbound, hcore, hpmap]
    rfl

omit [Addressed μ] in
/-- Where vertices go does not depend on the transport. -/
theorem distributeVertices_congr (e₁ e₂ : GraphEngine σ μ) (hpmap : e₁.pmap = e₂.pmap)
    (hvertices : ∀ i, (e₁.workers i).vertices = (e₂.workers i).vertices)
    (vertices : List (Vertex σ μ)) (i : WorkerId) :
    ((e₁.distributeVertices vertices).workers i).vertices =
      ((e₂.distributeVertices vertices).workers i).vertices := by
  induction vertices generalizing e₁ e₂ with
  | nil => exact hvertices i
  | cons v vertices ih =>
      refine ih _ _ hpmap fun j => ?_
      simp only [distributeVertex, hpmap]
      rcases eq_or_ne j (e₂.pmap.ownerOf v.id) with rfl | hne
      · simp [WorkerNode.addVertex, hvertices]
      · simp [Function.update_of_ne hne, hvertices]

omit [Addressed μ] in
theorem load_core_congr (config : EngineConfig) (vertices : List (Vertex σ μ)) (i : WorkerId) :
    ((load { config with enableRdmaSim := true } vertices).workers i).core =
      ((load { config with enableRdmaSim := false } vertices).workers i).core := by
  have hvertices := distributeVertices_congr
    (setupInfrastructure { config with enableRdmaSim := true })
    (setupInfrastructure { config with enableRdmaSim := false }) rfl (fun _ => rfl) vertices i
  have hinbox : ∀ c : EngineConfig, ((load c vertices).workers i).bus.inbox = [] := by
    intro c
    rw [load_worker]
    rfl
  unfold WorkerNode.core
  rw [hinbox, hinbox]
  exact congrArg (Core.mk · []) hvertices

/-- What a worker collects in a superstep is determined by its core. -/
theorem collected_core {n n' : WorkerNode σ μ} {pmap : PartitionMap} {i : WorkerId}
    {step : Superstep} {timing : WorkerId → Nat} {tr : List (Event μ)}
    (hbound : WorkerNode.AtBoundary pmap i n)
    (run : Run (WorkerNode.Step pmap compute step timing) (n, .ready) tr (n', .flushed)) :
    WorkerNode.collected tr =
      [(n.core.computed compute step).entries.map fun e => (e.1, e.2.outbox)] := by
  rw [WorkerNode.collected_of_run run, WorkerNode.outboxes, WorkerNode.computed_vertices_core hbound]

/-- **The two transport modes compute the same.** Take any two executions of `k`
supersteps, one in each mode, and the superstep after them. The outboxes collected
in it and the vertices after it, with their states, halted flags and outboxes,
agree on every worker, and so does the number of active vertices. -/
theorem transport_modes_agree (compute : Compute σ μ) (config : EngineConfig)
    (vertices : List (Vertex σ μ)) {k : Nat} {trs₁ trs₂ : List (List (WorkerId × Event μ))}
    {e₁ e₂ e₁' e₂' : GraphEngine σ μ}
    {timing₁ timing₂ : WorkerId → WorkerId → Nat} {tr₁ tr₂ : List (WorkerId × Event μ)}
    (exec₁ : Execution compute (load { config with enableRdmaSim := true } vertices) trs₁ k e₁)
    (exec₂ : Execution compute (load { config with enableRdmaSim := false } vertices) trs₂ k e₂)
    (run₁ : SuperstepRun compute k timing₁ e₁ tr₁ e₁')
    (run₂ : SuperstepRun compute k timing₂ e₂ tr₂ e₂') {i : WorkerId}
    (hi : i < config.workerCount) :
    WorkerNode.collected (labelsOf i tr₁) = WorkerNode.collected (labelsOf i tr₂) ∧
      (e₁'.workers i).vertices = (e₂'.workers i).vertices ∧
      (e₁'.workers i).active = (e₂'.workers i).active := by
  obtain ⟨hbound₁, hcore₁⟩ := execution_core exec₁ hi
  obtain ⟨hbound₂, hcore₂⟩ := execution_core exec₂ hi
  have hcore : (e₁.workers i).core = (e₂.workers i).core := by
    rw [hcore₁, hcore₂, load_core_congr, load_pmap, load_pmap]
  have hafter : (e₁'.workers i).core = (e₂'.workers i).core := by
    obtain ⟨-, hcore₁'⟩ := execution_core (exec₁.next run₁) hi
    obtain ⟨-, hcore₂'⟩ := execution_core (exec₂.next run₂) hi
    rw [hcore₁', hcore₂', load_core_congr, load_pmap, load_pmap]
  have hvertices : (e₁'.workers i).vertices = (e₂'.workers i).vertices :=
    congrArg Core.vertices hafter
  have hcollected : WorkerNode.collected (labelsOf i tr₁) =
      WorkerNode.collected (labelsOf i tr₂) := by
    obtain ⟨hconfig₁, -⟩ := execution_frame exec₁
    obtain ⟨hconfig₂, -⟩ := execution_frame exec₂
    have worker₁ := worker_run run₁ (i := i) (by rw [hconfig₁, load_config]; exact hi)
    have worker₂ := worker_run run₂ (i := i) (by rw [hconfig₂, load_config]; exact hi)
    rw [collected_core hbound₁ worker₁, collected_core hbound₂ worker₂, hcore]
  refine ⟨hcollected, hvertices, ?_⟩
  rw [WorkerNode.active, hvertices]
  rfl

/-- Two workers whose messages come back to them in one mode and are lost in the
other. -/
theorem transport_modes_agree_pair :
    ∃ e₁ e₂ e₁' e₂' trs₁ trs₂ tr₁ tr₂,
      Execution pingPong (pair { workerCount := 2, enableRdmaSim := true }) trs₁ 1 e₁ ∧
      Execution pingPong (pair { workerCount := 2, enableRdmaSim := false }) trs₂ 1 e₂ ∧
      SuperstepRun pingPong 1 (fun _ _ => 4) e₁ tr₁ e₁' ∧
      SuperstepRun pingPong 1 (fun _ _ => 0) e₂ tr₂ e₂' ∧
      WorkerNode.collected (labelsOf 0 tr₁) = WorkerNode.collected (labelsOf 0 tr₂) ∧
      (e₁'.workers 0).vertices = (e₂'.workers 0).vertices ∧
      (e₁'.workers 0).active = (e₂'.workers 0).active := by
  have nodes : ∀ rdma, ∀ i < (pair { workerCount := 2, enableRdmaSim := rdma }).config.workerCount,
      0 < ((pair { workerCount := 2, enableRdmaSim := rdma }).workers i).config.numaNodes :=
    fun _ i _ => load_nodes Nat.two_pos _ i
  obtain ⟨trs₁, exec₁⟩ := execution_supersteps pingPong (fun _ _ _ => 4) (nodes true) 1
  obtain ⟨trs₂, exec₂⟩ := execution_supersteps pingPong (fun _ _ _ => 0) (nodes false) 1
  obtain ⟨tr₁, run₁⟩ := superstepRun_supersteps pingPong (fun _ _ _ => 4) (nodes true) 1
  obtain ⟨tr₂, run₂⟩ := superstepRun_supersteps pingPong (fun _ _ _ => 0) (nodes false) 1
  exact ⟨_, _, _, _, trs₁, trs₂, tr₁, tr₂, exec₁, exec₂, run₁, run₂,
    transport_modes_agree pingPong { workerCount := 2 } _ exec₁ exec₂ run₁ run₂ (by decide)⟩

end GraphEngine

end Pregel
