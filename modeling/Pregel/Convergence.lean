import Pregel.Coordinator
import Pregel.Local

/-!
What convergence means.

The loop of the coordinator ends when no vertex is active. A vertex that sends a
message and votes to halt in the same superstep is not counted, and neither is the
message.

* `Astray`: where the messages are that a worker has sent to others. With the
  transport they are in the worker's own queue pairs, or back in its inbox map under
  a vertex it does not have; without it they are gone.
* `astray_runSuperstep`, `execution_tracked`: this holds between all supersteps.
* `Quiescent`, `Quiescent.computes_none`: nothing is left to do.
* `LeavesNone`, `sound_convergence`: exactly when a converged engine is quiescent.
-/

namespace Pregel

open Lts
open WorkerNode (Phase Event)

namespace WorkerNode

variable {σ μ : Type} [Addressed μ]

/-- Worker `i` between two supersteps, and the messages for other workers that it has
sent so far. -/
structure Astray (pmap : PartitionMap) (i : WorkerId) (sent : μ → Prop) (n : WorkerNode σ μ) :
    Prop where
  own : ∀ m ∈ n.bus.inbox, pmap.ownerOf (dst m) = i
  addressed : ∀ vid, ∀ m ∈ n.inboxOf vid, dst m = vid
  nonempty : ∀ vid, n.vertexInbox vid ≠ some []
  connected : n.bus.Connected
  astray : ∀ m, pmap.ownerOf (dst m) ≠ i →
    ((n.bus.Holds m ∨ m ∈ n.inboxOf (dst m)) ↔ (n.bus.useRdma = true ∧ sent m))

variable {pmap : PartitionMap} {i : WorkerId} {n : WorkerNode σ μ} {sent : μ → Prop}
  {compute : Compute σ μ} {step : Superstep} {timing : WorkerId → Nat}

/-- What a superstep leaves in the inbox of the bus: the messages its vertices sent
to vertices of this worker. -/
theorem mem_runSuperstep_inbox (h : AtBoundary pmap i n) {m : μ} :
    m ∈ (n.runSuperstep pmap compute step timing).bus.inbox ↔
      m ∈ (n.computed compute step timing).collectedMessages ∧ pmap.ownerOf (dst m) = i := by
  have hlocal : (n.computed compute step timing).bus.localId = i := by
    rw [computed_bus, MessageBus.drainInbox_localId]
    exact h.localId
  rw [runSuperstep_bus, MessageBus.inbox_of_routed (computed_flushed h)
    (by rw [hlocal, computed_bus, MessageBus.drainInbox_workerCount]; exact h.inRange), hlocal]
  simp

section Routing

variable (h : AtBoundary pmap i n) (hconn : n.bus.Connected) (hrdma : n.bus.useRdma = true)

include hconn hrdma

theorem flush_runSuperstep (m : μ) :
    (n.runSuperstep pmap compute step timing).bus.Holds m ↔
      (n.bus.network timing).drainInbox.2.Holds m ∨
        ∃ w < n.bus.workerCount, w ≠ n.bus.localId ∧ (m ∈ n.bus.outboxes w ∨
          (m ∈ (n.computed compute step timing).collectedMessages ∧ pmap.ownerOf (dst m) = w)) := by
  have hdrained := MessageBus.connected_drainInbox (MessageBus.connected_network hconn timing)
  have henqueued : (((n.bus.network timing).drainInbox.2).enqueueBatch pmap
      (n.computed compute step timing).collectedMessages).Connected :=
    MessageBus.connected_enqueueBatch hdrained _
  have hon : (((n.bus.network timing).drainInbox.2).enqueueBatch pmap
      (n.computed compute step timing).collectedMessages).useRdma = true := by
    rw [MessageBus.enqueueBatch_useRdma, MessageBus.drainInbox_useRdma]
    exact hrdma
  rw [runSuperstep_bus, computed_bus, (MessageBus.flush_of_connected henqueued hon).2,
    MessageBus.holds_enqueueBatch]
  simp only [MessageBus.enqueueBatch_outboxes, MessageBus.enqueueBatch_workerCount,
    MessageBus.enqueueBatch_localId, MessageBus.drainInbox_outboxes,
    MessageBus.drainInbox_workerCount, MessageBus.drainInbox_localId, List.mem_append,
    List.mem_filter, decide_eq_true_eq]
  rfl

include h

/-- What a superstep leaves in the queue pairs: what the drain left there and the
messages its vertices sent to vertices of other workers. -/
theorem holds_runSuperstep (inRange : ∀ vid, pmap.ownerOf vid < n.bus.workerCount) {m : μ} :
    (n.runSuperstep pmap compute step timing).bus.Holds m ↔
      (n.bus.network timing).drainInbox.2.Holds m ∨
        (m ∈ (n.computed compute step timing).collectedMessages ∧ pmap.ownerOf (dst m) ≠ i) := by
  rw [flush_runSuperstep hconn hrdma, h.flushed, h.localId]
  refine or_congr_right ⟨?_, ?_⟩
  · rintro ⟨w, -, hne, hm | ⟨hm, rfl⟩⟩
    · cases hm
    · exact ⟨hm, hne⟩
  · rintro ⟨hm, hne⟩
    exact ⟨_, inRange (dst m), hne, Or.inr ⟨hm, rfl⟩⟩

end Routing

variable (compute step timing) in
/-- **One superstep**: the messages that its vertices sent to other workers join those
that are astray. -/
theorem astray_runSuperstep (h : AtBoundary pmap i n) (hastray : Astray pmap i sent n)
    (inRange : ∀ vid, pmap.ownerOf vid < n.bus.workerCount) :
    Astray pmap i (fun m => sent m ∨ m ∈ (n.computed compute step timing).collectedMessages)
      (n.runSuperstep pmap compute step timing) where
  own m hm := ((mem_runSuperstep_inbox h).mp hm).2
  addressed vid m hm := by
    rw [runSuperstep_inboxOf] at hm
    split at hm
    · cases hm
    · rcases mem_receive_inboxOf.mp hm with hm | hm
      · exact hastray.addressed vid m hm
      · exact hm.2
  nonempty vid := by
    rw [runSuperstep_vertexInbox]
    split
    · simp
    · rw [receive_vertexInbox, extend]
      split
      · exact hastray.nonempty vid
      · rename_i hsome
        intro hnil
        simp only [Option.some.injEq, List.append_eq_nil_iff] at hnil
        exact hsome (List.isEmpty_iff.mpr hnil.2)
  connected := connected_runSuperstep hastray.connected
  astray m howner := by
    have hforeign : dst m ∉ n.vertices := fun hmem => howner (h.owned _ hmem)
    have hinbox : m ∉ n.bus.inbox := fun hmem => howner (hastray.own m hmem)
    have hbefore := hastray.astray m howner
    rw [runSuperstep_inboxOf, if_neg hforeign, mem_receive_inboxOf, runSuperstep_useRdma]
    cases hrdma : n.bus.useRdma with
    | true =>
        have hdrain := (MessageBus.drainInbox_of_connected
          (MessageBus.connected_network hastray.connected timing) hrdma).2 m
        have hholds : n.bus.Holds m ↔ m ∈ (n.bus.network timing).drainInbox.1 ∨
            (n.bus.network timing).drainInbox.2.Holds m := by
          rw [hdrain, MessageBus.holds_network]
          exact (or_iff_right hinbox).symm
        rw [holds_runSuperstep h hastray.connected hrdma inRange]
        rw [hrdma] at hbefore
        constructor
        · rintro ((hm | ⟨hm, -⟩) | hm | ⟨hm, -⟩)
          · exact ⟨rfl, Or.inl (hbefore.mp (Or.inl (hholds.mpr (Or.inr hm)))).2⟩
          · exact ⟨rfl, Or.inr hm⟩
          · exact ⟨rfl, Or.inl (hbefore.mp (Or.inr hm)).2⟩
          · exact ⟨rfl, Or.inl (hbefore.mp (Or.inl (hholds.mpr (Or.inl hm)))).2⟩
        · rintro ⟨-, hm | hm⟩
          · rcases hbefore.mpr ⟨rfl, hm⟩ with hm | hm
            · rcases hholds.mp hm with hm | hm
              · exact Or.inr (Or.inr ⟨hm, rfl⟩)
              · exact Or.inl (Or.inl hm)
            · exact Or.inr (Or.inl hm)
          · exact Or.inl (Or.inr ⟨hm, howner⟩)
    | false =>
        rw [hrdma] at hbefore
        have hnone : ¬ n.bus.Holds m := fun hm => by simpa using hbefore.mp (Or.inl hm)
        have hback : m ∉ n.inboxOf (dst m) := fun hm => by simpa using hbefore.mp (Or.inr hm)
        have hholds : ¬ (n.runSuperstep pmap compute step timing).bus.Holds m := by
          rw [runSuperstep_bus]
          intro hm
          rcases MessageBus.holds_of_routed (computed_flushed h) hm with hm | ⟨hon, -⟩
          · exact hnone (MessageBus.holds_network.mp (MessageBus.holds_drainInbox hm))
          · rw [computed_bus, MessageBus.drainInbox_useRdma] at hon
            exact absurd (hrdma.symm.trans hon) (by simp)
        have hdrained : m ∉ (n.bus.network timing).drainInbox.1 := by
          obtain ⟨remote, hdrain, hremote⟩ := (n.bus.network timing).drainInbox_eq
          rw [hdrain, List.mem_append]
          rintro (hm | hm)
          · exact hinbox hm
          · exact hnone (MessageBus.holds_network.mp (hremote m hm))
        simp [hholds, hback, hdrained]

end WorkerNode

namespace GraphEngine

variable {σ μ : Type} [Addressed μ] {compute : Compute σ μ}

/-- In this superstep a vertex of worker `i` sent `m`. -/
def Sent (tr : List (WorkerId × Event μ)) (i : WorkerId) (m : μ) : Prop :=
  ∃ boxes, (i, Event.finish boxes) ∈ tr ∧ ∃ box ∈ boxes, m ∈ box.2

theorem sent_iff {step : Superstep} {timing : WorkerId → WorkerId → Nat} {e e' : GraphEngine σ μ}
    {tr : List (WorkerId × Event μ)} (run : SuperstepRun compute step timing e tr e')
    {i : WorkerId} (hi : i < e.config.workerCount) {m : μ} :
    Sent tr i m ↔
      m ∈ ((e.workers i).computed compute step (timing i)).collectedMessages := by
  have hcollected := WorkerNode.collected_of_run (worker_run run hi)
  have hfinish : ∀ boxes, (i, Event.finish boxes) ∈ tr ↔
      boxes = ((e.workers i).computed compute step (timing i)).outboxes := by
    intro boxes
    rw [← List.mem_singleton, ← hcollected, ← mem_labelsOf, WorkerNode.collected,
      List.mem_filterMap]
    constructor
    · exact fun hmem => ⟨_, hmem, rfl⟩
    · rintro ⟨l, hl, hevent⟩
      cases l with
      | finish => cases hevent; exact hl
      | _ => cases hevent
  simp only [Sent, hfinish, exists_eq_left, WorkerNode.collectedMessages, List.mem_flatMap]

/-- An engine on its way: each worker between two supersteps, with the messages it has
sent to others. -/
structure Tracked (config : EngineConfig) (trs : List (List (WorkerId × Event μ)))
    (e : GraphEngine σ μ) : Prop where
  sameConfig : e.config = config
  placement : e.pmap = { workerCount := config.workerCount }
  boundary : ∀ i < config.workerCount, WorkerNode.AtBoundary e.pmap i (e.workers i)
  astray : ∀ i < config.workerCount,
    WorkerNode.Astray e.pmap i (fun m => ∃ tr ∈ trs, Sent tr i m) (e.workers i)
  useRdma : ∀ i < config.workerCount, (e.workers i).bus.useRdma = config.enableRdmaSim
  workerCount : ∀ i < config.workerCount, (e.workers i).bus.workerCount = config.workerCount

theorem Tracked.inRange {config : EngineConfig} {trs : List (List (WorkerId × Event μ))}
    {e : GraphEngine σ μ} (h : Tracked config trs e) {i : WorkerId} (hi : i < config.workerCount)
    (vid : VertexId) : e.pmap.ownerOf vid < (e.workers i).bus.workerCount := by
  rw [h.workerCount i hi, h.placement]
  exact Nat.mod_lt _ (Nat.zero_lt_of_lt hi)

theorem load_tracked (config : EngineConfig) (vertices : List (Vertex σ μ)) :
    Tracked config [] (load config vertices) where
  sameConfig := load_config config vertices
  placement := load_pmap config vertices
  boundary _ hi := load_atBoundary config vertices hi
  astray i hi := by
    rw [load_worker]
    refine ⟨fun m hm => (by cases hm), fun vid m hm => (by cases hm), fun vid => by simp [WorkerNode.new],
      MessageBus.connected_new _ _ _, fun m _ => ?_⟩
    have hnone := (MessageBus.within_new (P := fun _ : μ => False) i config.workerCount
      config.enableRdmaSim).queuePairs m
    simpa [WorkerNode.inboxOf, WorkerNode.new] using hnone
  useRdma i _ := by rw [load_worker]; rfl
  workerCount i _ := by rw [load_worker]; rfl

theorem tracked_superstep {config : EngineConfig} {trs : List (List (WorkerId × Event μ))}
    {e e' : GraphEngine σ μ} {step : Superstep} {timing : WorkerId → WorkerId → Nat}
    {tr : List (WorkerId × Event μ)} (h : Tracked config trs e)
    (run : SuperstepRun compute step timing e tr e') : Tracked config (trs ++ [tr]) e' := by
  have hworker : ∀ i < config.workerCount,
      e'.workers i = (e.workers i).runSuperstep e.pmap compute step (timing i) :=
    fun i hi => WorkerNode.run_eq_runSuperstep (worker_run run (h.sameConfig ▸ hi))
  have hpmap : e'.pmap = e.pmap := by rw [superstepRun_eq run, superstep]
  have hconfig : e'.config = e.config := by rw [superstepRun_eq run, superstep]
  constructor
  · rw [hconfig, h.sameConfig]
  · rw [hpmap, h.placement]
  · intro i hi
    rw [hpmap, hworker i hi]
    exact WorkerNode.atBoundary_runSuperstep (h.boundary i hi)
  · intro i hi
    have hastray := WorkerNode.astray_runSuperstep compute step (timing i) (h.boundary i hi)
      (h.astray i hi) (h.inRange hi)
    rw [hpmap, hworker i hi]
    convert hastray using 2 with m
    rw [← sent_iff run (h.sameConfig ▸ hi)]
    simp [or_and_right, exists_or]
  · intro i hi
    rw [hworker i hi, WorkerNode.runSuperstep_useRdma, h.useRdma i hi]
  · intro i hi
    rw [hworker i hi, WorkerNode.runSuperstep_workerCount, h.workerCount i hi]

/-- **After any number of supersteps** every worker's messages for others are where
`Astray` says. -/
theorem execution_tracked {config : EngineConfig} {vertices : List (Vertex σ μ)}
    {trs : List (List (WorkerId × Event μ))} {k : Nat} {e : GraphEngine σ μ}
    (exec : Execution compute (load config vertices) trs k e) : Tracked config trs e := by
  refine Run.invariant_history (fun trs (s : Superstep × GraphEngine σ μ) =>
    Tracked config trs s.2) ?_ exec (load_tracked config vertices)
  rintro trs s tr t h ⟨-, timing, run⟩
  exact tracked_superstep h run

/-! ### Nothing left to do -/

/-- Every vertex is halted and no message is pending anywhere. -/
structure Quiescent (e : GraphEngine σ μ) : Prop where
  halted : ∀ i < e.config.workerCount, ∀ vid v,
    (e.workers i).vertices.lookup vid = some v → v.halted = true
  outboxes : ∀ i < e.config.workerCount, ∀ w, (e.workers i).bus.outboxes w = []
  inbox : ∀ i < e.config.workerCount, (e.workers i).bus.inbox = []
  queuePairs : ∀ i < e.config.workerCount, ∀ m, ¬ (e.workers i).bus.Holds m
  vertexInbox : ∀ i < e.config.workerCount, ∀ j < e.config.workerCount,
    ∀ vid ∈ (e.workers j).vertices, (e.workers i).vertexInbox vid = none

/-- **A superstep of a quiescent engine computes no vertex.** -/
theorem Quiescent.computes_none {e e' : GraphEngine σ μ} (h : Quiescent e) {step : Superstep}
    {timing : WorkerId → WorkerId → Nat} {tr : List (WorkerId × Event μ)}
    (run : SuperstepRun compute step timing e tr e') (i : WorkerId) (vid : VertexId)
    (ms : List μ) : (i, Event.compute vid ms) ∉ tr := by
  intro hmem
  have hi := label_inRange run hmem
  obtain ⟨htask, -⟩ := (mem_compute_iff run hi).mp hmem
  obtain ⟨v, hv, hskips⟩ := WorkerNode.mem_taskIds.mp htask
  have hdrained : ((e.workers i).bus.network (timing i)).drainInbox.1 = [] := by
    obtain ⟨remote, hdrain, hremote⟩ := ((e.workers i).bus.network (timing i)).drainInbox_eq
    have hremote : remote = [] := List.eq_nil_iff_forall_not_mem.mpr fun m hm =>
      h.queuePairs i hi m (MessageBus.holds_network.mp (hremote m hm))
    have hinbox : ((e.workers i).bus.network (timing i)).inbox = [] := h.inbox i hi
    rw [hdrain, hinbox, hremote]
    rfl
  have hvid : vid ∈ (e.workers i).vertices :=
    AList.lookup_isSome.mp (Option.isSome_iff_exists.mpr ⟨v, hv⟩)
  have hentry : ((e.workers i).receive (timing i)).vertexInbox vid = none := by
    rw [WorkerNode.receive_vertexInbox, hdrained, h.vertexInbox i hi i hi vid hvid]
    rfl
  simp [WorkerNode.skips, hentry, h.halted i hi vid v hv] at hskips

/-- The superstep `tr`, run from `e` after the supersteps `trs`, leaves no message
behind. -/
structure LeavesNone (config : EngineConfig) (vertices : List (Vertex σ μ))
    (trs : List (List (WorkerId × Event μ))) (e : GraphEngine σ μ)
    (timing : WorkerId → WorkerId → Nat) (tr : List (WorkerId × Event μ)) : Prop where
  /-- No vertex sends to a vertex of its own worker. -/
  own : ∀ i m, Sent tr i m → dst m % config.workerCount ≠ i
  /-- With the transport, no vertex sends to a vertex of another worker. -/
  others : config.enableRdmaSim = true → ∀ i m, Sent tr i m → dst m % config.workerCount = i
  /-- With the transport, no vertex has sent to an existing vertex of another worker. -/
  earlier : config.enableRdmaSim = true → ∀ tr' ∈ trs, ∀ i < config.workerCount, ∀ m,
    Sent tr' i m → dst m % config.workerCount ≠ i → ¬ ∃ v ∈ vertices, v.id = dst m
  /-- With the transport, the drain has emptied the queue pairs. -/
  drained : config.enableRdmaSim = true → ∀ i < config.workerCount, ∀ m,
    ¬ ((e.workers i).bus.network (timing i)).drainInbox.2.Holds m

omit [Addressed μ] in
theorem halted_of_totalActive {e : GraphEngine σ μ} (quiet : e.totalActive = 0) {i : WorkerId}
    (hi : i < e.config.workerCount) {vid : VertexId} {v : Vertex σ μ}
    (hv : (e.workers i).vertices.lookup vid = some v) : v.halted = true := by
  have hactive : (e.workers i).active = 0 := by
    apply List.sum_eq_zero_iff_forall_eq_nat.mp quiet _
    exact List.mem_map.mpr ⟨i, List.mem_range.mpr hi, rfl⟩
  have hnone := List.countP_eq_zero.mp hactive ⟨vid, v⟩ (AList.lookup_eq_some_iff.mp hv)
  simpa using hnone

section Convergence

variable {config : EngineConfig} {vertices : List (Vertex σ μ)} {k : Superstep}
  {trs : List (List (WorkerId × Event μ))} {e e' : GraphEngine σ μ}
  {timing : WorkerId → WorkerId → Nat} {tr : List (WorkerId × Event μ)}
  (exec : Execution compute (load config vertices) trs k e)
  (last : SuperstepRun compute k timing e tr e')

include exec last

theorem worker_last {i : WorkerId} (hi : i < config.workerCount) :
    e'.workers i = (e.workers i).runSuperstep e.pmap compute k (timing i) :=
  WorkerNode.run_eq_runSuperstep (worker_run last ((execution_tracked exec).sameConfig ▸ hi))

theorem inRange_last {i : WorkerId} {m : μ} (hsent : Sent tr i m) : i < config.workerCount := by
  obtain ⟨boxes, hmem, -⟩ := hsent
  exact (execution_tracked exec).sameConfig ▸ label_inRange last hmem

/-- The inbox of a bus after the last superstep: what was sent to its own worker. -/
theorem mem_inbox_last {i : WorkerId} (hi : i < config.workerCount) {m : μ} :
    m ∈ (e'.workers i).bus.inbox ↔ Sent tr i m ∧ dst m % config.workerCount = i := by
  have h := execution_tracked exec
  rw [worker_last exec last hi, WorkerNode.mem_runSuperstep_inbox (h.boundary i hi),
    ← sent_iff last (h.sameConfig ▸ hi), h.placement]
  rfl

/-- The queue pairs after the last superstep: what the drain left and what was sent to
other workers. -/
theorem holds_last {i : WorkerId} (hi : i < config.workerCount)
    (hrdma : config.enableRdmaSim = true) {m : μ} :
    (e'.workers i).bus.Holds m ↔ ((e.workers i).bus.network (timing i)).drainInbox.2.Holds m ∨
      (Sent tr i m ∧ dst m % config.workerCount ≠ i) := by
  have h := execution_tracked exec
  rw [worker_last exec last hi, WorkerNode.holds_runSuperstep (h.boundary i hi)
    (h.astray i hi).connected ((h.useRdma i hi).trans hrdma) (h.inRange hi),
    ← sent_iff last (h.sameConfig ▸ hi), h.placement]
  rfl

/-- A message for a vertex of another worker that is anywhere in a worker. -/
theorem pending_last {i : WorkerId} (hi : i < config.workerCount) {m : μ}
    (howner : dst m % config.workerCount ≠ i) :
    ((e'.workers i).bus.Holds m ∨ m ∈ (e'.workers i).inboxOf (dst m)) ↔
      config.enableRdmaSim = true ∧ ∃ tr' ∈ trs ++ [tr], Sent tr' i m := by
  have h' := execution_tracked (exec.next last)
  rw [← h'.useRdma i hi]
  apply (h'.astray i hi).astray m
  rw [h'.placement]
  exact howner

/-- A vertex exists where the placement puts it. -/
theorem mem_last {i : WorkerId} {vid : VertexId} : vid ∈ (e'.workers i).vertices ↔
    vid % config.workerCount = i ∧ ∃ v ∈ vertices, v.id = vid := by
  rw [mem_execution (exec.next last), mem_load]

theorem leavesNone_of_quiescent (quiescent : Quiescent e') :
    LeavesNone config vertices trs e timing tr := by
  have h' := execution_tracked (exec.next last)
  have hcount : e'.config.workerCount = config.workerCount := by rw [h'.sameConfig]
  constructor
  · intro i m hsent howner
    have hi := inRange_last exec last hsent
    have hmem := (mem_inbox_last exec last hi).mpr ⟨hsent, howner⟩
    rw [quiescent.inbox i (hcount ▸ hi)] at hmem
    cases hmem
  · intro hrdma i m hsent
    have hi := inRange_last exec last hsent
    by_contra howner
    exact quiescent.queuePairs i (hcount ▸ hi) m
      ((holds_last exec last hi hrdma).mpr (Or.inr ⟨hsent, howner⟩))
  · intro hrdma tr' htr i hi m hsent howner hexists
    have hlt : dst m % config.workerCount < e'.config.workerCount := by
      rw [hcount]
      exact Nat.mod_lt _ (Nat.zero_lt_of_lt hi)
    have hentry := quiescent.vertexInbox i (hcount ▸ hi) _ hlt (dst m)
      ((mem_last exec last).mpr ⟨rfl, hexists⟩)
    rcases (pending_last exec last hi howner).mpr
      ⟨hrdma, tr', List.mem_append_left _ htr, hsent⟩ with hm | hm
    · exact quiescent.queuePairs i (hcount ▸ hi) m hm
    · rw [WorkerNode.inboxOf, hentry] at hm
      cases hm
  · intro hrdma i hi m hm
    exact quiescent.queuePairs i (hcount ▸ hi) m
      ((holds_last exec last hi hrdma).mpr (Or.inl hm))

theorem quiescent_of_leavesNone (quiet : e'.totalActive = 0)
    (none : LeavesNone config vertices trs e timing tr) : Quiescent e' := by
  have h' := execution_tracked (exec.next last)
  have hcount : e'.config.workerCount = config.workerCount := by rw [h'.sameConfig]
  have hempty : ∀ i < config.workerCount, ∀ m, ¬ (e'.workers i).bus.Holds m := by
    intro i hi m hm
    have hforeign : dst m % config.workerCount ≠ i := by
      have hforeign := (h'.boundary i hi).foreign m hm
      rw [h'.placement] at hforeign
      exact hforeign
    obtain ⟨hrdma, -⟩ := (pending_last exec last hi hforeign).mp (Or.inl hm)
    rcases (holds_last exec last hi hrdma).mp hm with hleft | ⟨hsent, -⟩
    · exact none.drained hrdma i hi m hleft
    · exact hforeign (none.others hrdma i m hsent)
  constructor
  · intro i hi vid v hv
    exact halted_of_totalActive quiet hi hv
  · intro i hi w
    rw [(h'.boundary i (hcount ▸ hi)).flushed]
  · intro i hi
    apply List.eq_nil_iff_forall_not_mem.mpr
    intro m hm
    obtain ⟨hsent, howner⟩ := (mem_inbox_last exec last (hcount ▸ hi)).mp hm
    exact none.own i m hsent howner
  · intro i hi
    exact hempty i (hcount ▸ hi)
  · intro i hi j hj vid hvid
    rw [hcount] at hi hj
    obtain ⟨howner, hexists⟩ := (mem_last exec last).mp hvid
    cases hentry : (e'.workers i).vertexInbox vid with
    | none => rfl
    | some entry =>
        cases entry with
        | nil => exact absurd hentry ((h'.astray i hi).nonempty vid)
        | cons m entry =>
            have hm : m ∈ (e'.workers i).inboxOf vid := by simp [WorkerNode.inboxOf, hentry]
            obtain rfl := (h'.astray i hi).addressed vid m hm
            have hforeign : dst m % config.workerCount ≠ i := by
              rintro rfl
              have hown := (h'.boundary _ hi).consumed (dst m)
                ((mem_last exec last).mpr ⟨rfl, hexists⟩)
              rw [hentry] at hown
              cases hown
            obtain ⟨hrdma, tr', htr, hsent⟩ := (pending_last exec last hi hforeign).mp (Or.inr hm)
            rcases List.mem_append.mp htr with htr | htr
            · exact absurd hexists (none.earlier hrdma tr' htr i hi m hsent hforeign)
            · rw [List.mem_singleton.mp htr] at hsent
              exact absurd (none.others hrdma i m hsent) hforeign

end Convergence

end GraphEngine

namespace Coordinator

open GraphEngine

variable {σ μ : Type} [Addressed μ] {compute : Compute σ μ}

/-- **Convergence is sound exactly when the last superstep leaves no message behind.**
When the loop is left through the convergence branch, every vertex is halted and no
message is pending anywhere, so that one more superstep would compute no vertex, if and
only if in that superstep no vertex sends to a vertex of its own worker and, with the
transport, none sends at all, none ever sent to an existing vertex of another worker,
and the drain at its start emptied the queue pairs. -/
theorem sound_convergence {config : EngineConfig} {vertices : List (Vertex σ μ)}
    {ls : List (Event μ)} {c c' : Coordinator σ μ} {timing : WorkerId → WorkerId → Nat}
    {tr : List (WorkerId × WorkerNode.Event μ)} {k : Superstep}
    (run : Run (Step compute) { engine := load config vertices } ls c)
    (last : Step compute c (.superstep timing tr) c') (converged : c'.phase = .converged k) :
    (Quiescent c'.engine ∧ ∀ timing' tr' e,
        SuperstepRun compute (k + 1) timing' c'.engine tr' e →
          ∀ i vid ms, (i, WorkerNode.Event.compute vid ms) ∉ tr') ↔
      LeavesNone config vertices (traces ls) c.engine timing tr := by
  cases last with
  | superstep running _ superstep =>
      simp only at converged
      split at converged
      · rename_i quiet
        have exec := execution_of_run run running
        constructor
        · rintro ⟨quiescent, -⟩
          exact leavesNone_of_quiescent exec superstep quiescent
        · intro none
          have quiescent := quiescent_of_leavesNone exec superstep quiet none
          exact ⟨quiescent, fun _ _ _ next => quiescent.computes_none next⟩
      · cases converged

/-- A superstep that leaves no vertex active leaves the loop. -/
theorem exists_converging (compute : Compute σ μ) (timing : WorkerId → WorkerId → Nat)
    {c : Coordinator σ μ} {step : Superstep} (running : c.phase = .running step)
    (more : step < c.engine.config.maxSupersteps)
    (nodes : ∀ i < c.engine.config.workerCount, 0 < (c.engine.workers i).config.numaNodes)
    (quiet : (c.engine.superstep compute step timing).totalActive = 0) :
    ∃ tr c', Step compute c (.superstep timing tr) c' ∧ c'.phase = .converged step ∧
      c'.engine = c.engine.superstep compute step timing ∧
      SuperstepRun compute step timing c.engine tr c'.engine := by
  obtain ⟨tr, superstep⟩ := exists_superstepRun compute step timing nodes
  refine ⟨tr, _, .superstep running more superstep, ?_, rfl, superstep⟩
  simp [quiet]

/-- Two vertices that send each other a message and vote to halt: on two workers
without a transport, the messages are dropped. -/
theorem sound_convergence_pair :
    ∃ tr c', Step pingPong { engine := pair { workerCount := 2, enableRdmaSim := false } }
        (.superstep (fun _ _ => 0) tr) c' ∧
      c'.phase = .converged 0 ∧ Quiescent c'.engine := by
  obtain ⟨tr, c', last, converged, -, superstep⟩ := exists_converging pingPong (fun _ _ => 0)
    (c := { engine := pair { workerCount := 2, enableRdmaSim := false } }) rfl (by decide)
    (fun i _ => load_nodes Nat.two_pos _ i) (by decide +kernel)
  have none : LeavesNone { workerCount := 2, enableRdmaSim := false } pairVertices []
      (pair { workerCount := 2, enableRdmaSim := false }) (fun _ _ => 0) tr := by
    refine ⟨fun i m hsent => ?_, nofun, nofun, nofun⟩
    obtain ⟨boxes, hmem, -⟩ := id hsent
    have hi : i < 2 := label_inRange superstep hmem
    have hall : ∀ i < 2, ∀ m ∈ (((pair { workerCount := 2, enableRdmaSim := false }).workers
        i).computed pingPong 0 fun _ => 0).collectedMessages, m.dst % 2 ≠ i := by decide +kernel
    exact hall i hi m ((sent_iff superstep hi).mp hsent)
  exact ⟨tr, c', last, converged, ((sound_convergence (.nil _) last converged).mpr none).1⟩

/-- On one worker the loop is left with both messages in the inbox of the bus. -/
theorem converged_with_messages :
    ∃ tr c', Step pingPong { engine := pair { workerCount := 1 } }
        (.superstep (fun _ _ => 0) tr) c' ∧
      c'.phase = .converged 0 ∧
      (c'.engine.workers 0).bus.inbox = [⟨1, 0, 0, .heartbeat⟩, ⟨0, 1, 0, .heartbeat⟩] ∧
      ¬ Quiescent c'.engine := by
  obtain ⟨tr, c', last, converged, hengine, -⟩ := exists_converging pingPong (fun _ _ => 0)
    (c := { engine := pair { workerCount := 1 } }) rfl (by decide)
    (fun i _ => load_nodes Nat.two_pos _ i) (by decide +kernel)
  have hinbox : (c'.engine.workers 0).bus.inbox =
      [⟨1, 0, 0, .heartbeat⟩, ⟨0, 1, 0, .heartbeat⟩] := by
    rw [hengine]
    decide +kernel
  refine ⟨tr, c', last, converged, hinbox, fun quiescent => ?_⟩
  have hcount : 0 < c'.engine.config.workerCount := by
    rw [hengine]
    decide
  have hempty := quiescent.inbox 0 hcount
  rw [hinbox] at hempty
  cases hempty

end Coordinator

end Pregel
