import Pregel.Lib.Assoc
import Pregel.Lib.Lts
import Pregel.MessageBus
import Pregel.Scheduler

/-!
One worker (`worker_node.hpp`, `worker_node.cpp`) and its superstep.

`WorkerNode.runSuperstep` is the superstep with its tasks run one after the other
in the order of submission. The source hands them to the threads of a scheduler
it shares with the other workers: `WorkerNode.Step` has one transition for the
part before the submission, one for the locked take-and-erase of a task, one for
its call of `compute`, and one for the part after `wait_all`. Tasks start and end
in any order, any number at a time. That `wait_all` joins is the guard of the
last transition; `Pregel.Scheduler` says when it does, and `SharedScheduler.execution_of_threads`
when the threads of all workers run as the steps here.

* `settle_take`, `settle_compute`: what the tasks still to run will make of the worker
  is the same before and after every step of a task.
* `run_eq_runSuperstep`: every complete run ends where `runSuperstep` ends.
* `calls_of_run`: in every complete run, `compute` is called once for each task,
  with the inbox that the dispatch left for it.
* `exists_run`: every worker has a complete run.
-/

namespace Pregel

open Lts

/-- `WorkerNode`. The order of the entries of `vertices` is the order in which
the source's map is iterated. The partition map and the scheduler are shared and
kept outside. -/
structure WorkerNode (σ μ : Type) where
  id : WorkerId
  config : EngineConfig
  bus : MessageBus μ
  vertices : AList fun _ : VertexId => Vertex σ μ := ∅
  vertexInbox : VertexId → Option (List μ) := fun _ => none
  stats : WorkerStats := {}

namespace WorkerNode

variable {σ μ : Type}

/-- `WorkerNode::WorkerNode`. -/
def new (id : WorkerId) (config : EngineConfig) (bus : MessageBus μ) : WorkerNode σ μ where
  id := id
  config := config
  bus := bus

/-- `WorkerNode::add_vertex`. The new vertex comes first in the loops over the map; the engines in
which it does not are `GraphEngine.Reordered`. -/
def addVertex (n : WorkerNode σ μ) (v : Vertex σ μ) : WorkerNode σ μ :=
  { n with vertices := n.vertices.insert v.id v }

/-- One round of the loop of `absorb_partition`; the partition map is shared. -/
def absorbVertex (s : PartitionMap × WorkerNode σ μ) (v : Vertex σ μ) :
    PartitionMap × WorkerNode σ μ :=
  (s.1.migrate v.id s.2.id,
    { s.2 with
      vertices := s.2.vertices.insert v.id (v.setOwner s.2.id)
      stats := { s.2.stats with migrationsPerformed := s.2.stats.migrationsPerformed + 1 } })

/-- `WorkerNode::absorb_partition`. -/
def absorbPartition (pmap : PartitionMap) (n : WorkerNode σ μ) (migrated : List (Vertex σ μ)) :
    PartitionMap × WorkerNode σ μ :=
  migrated.foldl absorbVertex (pmap, n)

/-- `WorkerNode::vertex_count`. -/
def vertexCount (n : WorkerNode σ μ) : Nat := n.vertices.entries.length

/-! ### Before the tasks -/

section Dispatch

variable [Addressed μ]

/-- One round of the loop of `dispatch_messages`. -/
def dispatchMessage (inbox : VertexId → Option (List μ)) (msg : μ) : VertexId → Option (List μ) :=
  Function.update inbox (dst msg) (some ((inbox (dst msg)).getD [] ++ [msg]))

/-- `WorkerNode::dispatch_messages`. -/
def dispatchMessages (n : WorkerNode σ μ) (msgs : List μ) : WorkerNode σ μ :=
  { n with
    vertexInbox := msgs.foldl dispatchMessage n.vertexInbox
    stats := { n.stats with messagesReceived := n.stats.messagesReceived + msgs.length } }

/-- The drain and the dispatch at the start of `run_superstep`, with the steps
the network threads have taken by then. -/
def receive (timing : WorkerId → Nat) (n : WorkerNode σ μ) : WorkerNode σ μ :=
  let (inbox, bus) := (n.bus.network timing).drainInbox
  { n with bus := bus }.dispatchMessages inbox

end Dispatch

/-- The condition under which `run_superstep` skips a vertex. -/
def skips (n : WorkerNode σ μ) (vid : VertexId) (v : Vertex σ μ) : Bool :=
  v.halted && (n.vertexInbox vid).isNone

/-- The wake-ups of the loop of `run_superstep`. -/
def wake (n : WorkerNode σ μ) : WorkerNode σ μ :=
  { n with vertices := n.vertices.mapVals fun vid v =>
      if v.halted && (n.vertexInbox vid).isSome then v.wakeUp else v }

/-- The tasks that `run_superstep` submits, in order. -/
def tasks (n : WorkerNode σ μ) : List Scheduler.Task :=
  n.vertices.entries.filterMap fun ⟨vid, v⟩ =>
    if n.skips vid v then none
    else some
      { taskId := vid, preferredNumaNode := vid % n.config.numaNodes, expectedDuration := 50 }

def taskIds (n : WorkerNode σ μ) : List VertexId := n.tasks.map Scheduler.Task.taskId

/-! ### One task -/

/-- What a task takes: the messages dispatched to its vertex. -/
def inboxOf (n : WorkerNode σ μ) (vid : VertexId) : List μ := (n.vertexInbox vid).getD []

/-- The locked section of a task: take the inbox and erase the entry. -/
def eraseInbox (n : WorkerNode σ μ) (vid : VertexId) : WorkerNode σ μ :=
  { n with vertexInbox := Function.update n.vertexInbox vid none }

/-- The rest of a task: call `compute` on the vertex and count it. -/
def runCompute (compute : Compute σ μ) (step : Superstep) (n : WorkerNode σ μ) (vid : VertexId)
    (inbox : List μ) : WorkerNode σ μ :=
  { n with
    vertices := n.vertices.mapVals fun k v => if k = vid then compute v inbox step else v
    stats := { n.stats with verticesProcessed := n.stats.verticesProcessed + 1 } }

/-- A whole task. -/
def runTask (compute : Compute σ μ) (step : Superstep) (n : WorkerNode σ μ) (vid : VertexId) :
    WorkerNode σ μ :=
  (n.eraseInbox vid).runCompute compute step vid (n.inboxOf vid)

/-! ### After the tasks -/

/-- The outboxes of the vertices, in the order in which they are collected. -/
def outboxes (n : WorkerNode σ μ) : List (VertexId × List μ) :=
  n.vertices.entries.map fun ⟨vid, v⟩ => (vid, v.outbox)

section Route

variable [Addressed μ] (pmap : PartitionMap)

/-- One round of the loop of `collect_and_route_outbox`, as far as the bus and
the counter go. -/
def routeOutbox (s : WorkerStats × MessageBus μ) (outbox : List μ) : WorkerStats × MessageBus μ :=
  if outbox.isEmpty then s
  else ({ s.1 with messagesSent := s.1.messagesSent + outbox.length },
    s.2.enqueueBatch pmap outbox)

/-- `WorkerNode::collect_and_route_outbox`. -/
def collectAndRouteOutbox (n : WorkerNode σ μ) : WorkerNode σ μ :=
  let (stats, bus) := (n.outboxes.map Prod.snd).foldl (routeOutbox pmap) (n.stats, n.bus)
  { n with
    bus := bus
    stats := stats
    vertices := n.vertices.mapVals fun _ v => if v.outbox.isEmpty then v else v.clearOutbox }

/-- The part of `run_superstep` after `wait_all`, without the barrier. -/
def finish (n : WorkerNode σ μ) : WorkerNode σ μ :=
  let n := n.collectAndRouteOutbox pmap
  { n with
    bus := n.bus.flush
    stats := { n.stats with superstepsCompleted := n.stats.superstepsCompleted + 1 } }

/-- The number `run_superstep` returns. -/
def active (n : WorkerNode σ μ) : Nat := n.vertices.entries.countP fun e => !e.2.halted

/-- `WorkerNode::run_superstep`, with the tasks run in the order of submission. -/
def runSuperstep (compute : Compute σ μ) (step : Superstep) (timing : WorkerId → Nat)
    (n : WorkerNode σ μ) : WorkerNode σ μ :=
  let n := n.receive timing
  (n.taskIds.foldl (runTask compute step) n.wake).finish pmap

end Route

/-! ### The superstep as a transition system -/

/-- How far the task of a vertex is. -/
inductive TaskState (μ : Type) where
  | none
  | queued
  | running (inbox : List μ)

/-- Where a worker is in `run_superstep`. -/
inductive Phase (μ : Type) where
  | ready
  | computing (ts : VertexId → TaskState μ)
  | flushed

inductive Event (μ : Type) where
  | start
  | take (vid : VertexId)
  | compute (vid : VertexId) (inbox : List μ)
  | finish (outboxes : List (VertexId × List μ))

/-- Exactly these tasks wait in the scheduler. -/
def queuedOn (vids : List VertexId) (vid : VertexId) : TaskState μ :=
  if vid ∈ vids then .queued else .none

/-- The state of every task right after the submission. -/
def submitted (n : WorkerNode σ μ) : VertexId → TaskState μ := queuedOn n.taskIds

section Step

variable [Addressed μ] (pmap : PartitionMap) (compute : Compute σ μ) (step : Superstep)
  (timing : WorkerId → Nat)

/-- The steps of one worker in one superstep. The remainder by `numa_nodes` traps
if there is no node. -/
inductive Step : WorkerNode σ μ × Phase μ → Event μ → WorkerNode σ μ × Phase μ → Prop where
  | start {n : WorkerNode σ μ} (nodes : 0 < n.config.numaNodes) :
      Step (n, .ready) .start ((n.receive timing).wake, .computing (n.receive timing).submitted)
  | take {n : WorkerNode σ μ} {ts : VertexId → TaskState μ} {vid : VertexId}
      (queued : ts vid = .queued) :
      Step (n, .computing ts) (.take vid)
        (n.eraseInbox vid, .computing (Function.update ts vid (.running (n.inboxOf vid))))
  | compute {n : WorkerNode σ μ} {ts : VertexId → TaskState μ} {vid : VertexId} {inbox : List μ}
      (running : ts vid = .running inbox) :
      Step (n, .computing ts) (.compute vid inbox)
        (n.runCompute compute step vid inbox, .computing (Function.update ts vid .none))
  | finish {n : WorkerNode σ μ} {ts : VertexId → TaskState μ} (joined : ∀ vid, ts vid = .none) :
      Step (n, .computing ts) (.finish n.outboxes) (n.finish pmap, .flushed)

end Step

/-! ### The tasks of a worker -/

theorem taskIds_eq (n : WorkerNode σ μ) :
    n.taskIds = (n.vertices.entries.filter fun ⟨vid, v⟩ => !n.skips vid v).map Sigma.fst := by
  unfold taskIds tasks
  induction n.vertices.entries with
  | nil => rfl
  | cons e es ih =>
      obtain ⟨vid, v⟩ := e
      cases hskip : n.skips vid v with
      | true => simpa [hskip] using ih
      | false => simpa [hskip] using ih

theorem mem_taskIds {n : WorkerNode σ μ} {vid : VertexId} :
    vid ∈ n.taskIds ↔ ∃ v, n.vertices.lookup vid = some v ∧ n.skips vid v = false := by
  rw [taskIds_eq]
  constructor
  · intro h
    obtain ⟨⟨k, v⟩, hmem, rfl⟩ := List.mem_map.mp h
    obtain ⟨hentry, hskip⟩ := List.mem_filter.mp hmem
    exact ⟨v, AList.lookup_eq_some_iff.mpr hentry, by simpa using hskip⟩
  · rintro ⟨v, hv, hskip⟩
    refine List.mem_map.mpr ⟨⟨vid, v⟩, List.mem_filter.mpr ⟨?_, by simpa using hskip⟩, rfl⟩
    exact AList.lookup_eq_some_iff.mp hv

theorem mem_taskIds_of_lookup {n : WorkerNode σ μ} {vid : VertexId} {v : Vertex σ μ}
    (hv : n.vertices.lookup vid = some v) : vid ∈ n.taskIds ↔ n.skips vid v = false := by
  rw [mem_taskIds, hv]
  simp

theorem taskIds_sublist (n : WorkerNode σ μ) : n.taskIds.Sublist n.vertices.keys := by
  rw [taskIds_eq]
  exact List.filter_sublist.map _

theorem nodup_taskIds (n : WorkerNode σ μ) : n.taskIds.Nodup :=
  n.taskIds_sublist.nodup n.vertices.keys_nodup

/-! ### What is left to do -/

/-- The call of `compute` a task still has to make. -/
def call (n : WorkerNode σ μ) (ts : VertexId → TaskState μ) (vid : VertexId) : Option (List μ) :=
  match ts vid with
  | .none => Option.none
  | .queued => some (n.inboxOf vid)
  | .running inbox => some inbox

/-- All calls still to be made. -/
def outstanding (n : WorkerNode σ μ) (ts : VertexId → TaskState μ) : List (VertexId × List μ) :=
  n.vertices.keys.filterMap fun vid => (n.call ts vid).map (Prod.mk vid)

/-- The worker as its tasks will leave it. -/
def settle (compute : Compute σ μ) (step : Superstep) (n : WorkerNode σ μ)
    (ts : VertexId → TaskState μ) : WorkerNode σ μ :=
  { n with
    vertices := n.vertices.mapVals fun vid v =>
      match n.call ts vid with
      | some inbox => compute v inbox step
      | none => v
    vertexInbox := fun vid =>
      match ts vid with
      | .queued => none
      | _ => n.vertexInbox vid
    stats := { n.stats with
      verticesProcessed := n.stats.verticesProcessed + (n.outstanding ts).length } }

/-- Only vertices of this worker have a task. -/
def Owned (n : WorkerNode σ μ) (ts : VertexId → TaskState μ) : Prop :=
  ∀ vid, ts vid ≠ .none → vid ∈ n.vertices

section Tasks

variable {n : WorkerNode σ μ} {ts : VertexId → TaskState μ} {vid : VertexId} {inbox : List μ}
  {compute : Compute σ μ} {step : Superstep}

theorem call_take (queued : ts vid = .queued) :
    (n.eraseInbox vid).call (Function.update ts vid (.running (n.inboxOf vid))) = n.call ts := by
  funext k
  rcases eq_or_ne k vid with rfl | hk
  · simp [call, queued]
  · simp only [call, Function.update_of_ne hk, inboxOf, eraseInbox]

theorem call_compute : (n.runCompute compute step vid inbox).call (Function.update ts vid .none) =
    Function.update (n.call ts) vid none := by
  funext k
  rcases eq_or_ne k vid with rfl | hk
  · simp [call]
  · simp only [call, Function.update_of_ne hk, inboxOf, runCompute]

theorem outstanding_take (queued : ts vid = .queued) :
    (n.eraseInbox vid).outstanding (Function.update ts vid (.running (n.inboxOf vid))) =
      n.outstanding ts := by
  unfold outstanding
  rw [call_take queued]
  rfl

variable (compute step) in
/-- A call that is made is no longer outstanding. -/
theorem outstanding_compute (owned : Owned n ts) (running : ts vid = .running inbox) :
    n.outstanding ts |>.Perm <| (vid, inbox) ::
      (n.runCompute compute step vid inbox).outstanding (Function.update ts vid .none) := by
  have hmem : vid ∈ n.vertices.keys := owned vid (by simp [running])
  obtain ⟨before, after, hsplit⟩ := List.append_of_mem hmem
  have hnodup := n.vertices.keys_nodup
  rw [hsplit, List.nodup_append, List.nodup_cons] at hnodup
  obtain ⟨-, ⟨hafter, -⟩, hbefore⟩ := hnodup
  have hsame : ∀ ks : List VertexId, vid ∉ ks →
      ks.filterMap (fun k => (Function.update (n.call ts) vid none k).map (Prod.mk k)) =
        ks.filterMap fun k => (n.call ts k).map (Prod.mk k) := by
    intro ks hks
    apply List.filterMap_congr
    intro k hk
    rw [Function.update_of_ne (ne_of_mem_of_not_mem hk hks)]
  have hkeys : (n.runCompute compute step vid inbox).vertices.keys = before ++ vid :: after := by
    simp [runCompute, hsplit]
  have hcall : n.call ts vid = some inbox := by simp [call, running]
  unfold outstanding
  rw [call_compute, hkeys, hsplit, List.filterMap_append, List.filterMap_append,
    hsame before fun h => hbefore _ h _ List.mem_cons_self rfl]
  simp only [List.filterMap_cons, hcall, Option.map_some, Function.update_self, Option.map_none]
  rw [hsame after hafter]
  exact List.perm_middle

theorem settle_take (queued : ts vid = .queued) :
    (n.eraseInbox vid).settle compute step (Function.update ts vid (.running (n.inboxOf vid))) =
      n.settle compute step ts := by
  unfold settle
  rw [call_take queued, outstanding_take queued]
  congr 1
  funext k
  rcases eq_or_ne k vid with rfl | hk
  · simp [queued, eraseInbox]
  · simp [Function.update_of_ne hk, eraseInbox]

theorem settle_compute (owned : Owned n ts) (running : ts vid = .running inbox) :
    (n.runCompute compute step vid inbox).settle compute step (Function.update ts vid .none) =
      n.settle compute step ts := by
  have hlength := (outstanding_compute compute step owned running).length_eq
  unfold settle
  rw [call_compute, hlength]
  congr 1
  · simp only [runCompute]
    rw [AList.mapVals_mapVals]
    congr 1
    funext k v
    rcases eq_or_ne k vid with rfl | hk
    · simp [call, running]
    · simp [hk]
  · funext k
    rcases eq_or_ne k vid with rfl | hk
    · simp [running, runCompute]
    · simp [Function.update_of_ne hk, runCompute]
  · simp [runCompute, Nat.add_assoc, Nat.add_comm 1]

theorem settle_none : n.settle compute step (fun _ => .none) = n := by
  have hcall : n.call (fun _ => .none) = fun _ => none := rfl
  have hout : n.outstanding (fun _ => .none) = [] := by simp [outstanding, hcall]
  unfold settle
  rw [hcall, hout, AList.mapVals_eq_self fun _ _ => rfl]
  rfl

end Tasks

/-! ### Steps and runs -/

section Runs

variable [Addressed μ] {pmap : PartitionMap} {compute : Compute σ μ} {step : Superstep}
  {timing : WorkerId → Nat}

/-- A worker somewhere in a superstep, with every task on a vertex of its own. -/
def Sound (s : WorkerNode σ μ × Phase μ) : Prop :=
  match s.2 with
  | .computing ts => Owned s.1 ts
  | _ => True

/-- The worker with all its tasks done, as `wait_all` will find it. -/
def computed (compute : Compute σ μ) (step : Superstep) (timing : WorkerId → Nat)
    (n : WorkerNode σ μ) : WorkerNode σ μ :=
  (n.receive timing).wake.settle compute step (n.receive timing).submitted

/-- The worker at the end of the superstep it is in. -/
def ending (pmap : PartitionMap) (compute : Compute σ μ) (step : Superstep)
    (timing : WorkerId → Nat) (s : WorkerNode σ μ × Phase μ) : WorkerNode σ μ :=
  match s.2 with
  | .ready => (s.1.computed compute step timing).finish pmap
  | .computing ts => (s.1.settle compute step ts).finish pmap
  | .flushed => s.1

/-- The calls of `compute` before the end of the superstep. -/
def remaining (timing : WorkerId → Nat) (s : WorkerNode σ μ × Phase μ) :
    List (VertexId × List μ) :=
  match s.2 with
  | .ready => (s.1.receive timing).wake.outstanding (s.1.receive timing).submitted
  | .computing ts => s.1.outstanding ts
  | .flushed => []

/-- The outboxes still to be collected in this superstep. -/
def uncollected (compute : Compute σ μ) (step : Superstep) (timing : WorkerId → Nat)
    (s : WorkerNode σ μ × Phase μ) : List (List (VertexId × List μ)) :=
  match s.2 with
  | .ready => [(s.1.computed compute step timing).outboxes]
  | .computing ts => [(s.1.settle compute step ts).outboxes]
  | .flushed => []

/-- The calls of `compute` a trace makes. -/
def calls (tr : List (Event μ)) : List (VertexId × List μ) :=
  tr.filterMap fun
    | .compute vid inbox => some (vid, inbox)
    | _ => none

/-- The outboxes a trace collects. -/
def collected (tr : List (Event μ)) : List (List (VertexId × List μ)) :=
  tr.filterMap fun
    | .finish outboxes => some outboxes
    | _ => none

omit [Addressed μ] in
theorem owned_submitted (n : WorkerNode σ μ) : Owned n.wake n.submitted := by
  intro vid h
  by_cases hmem : vid ∈ n.taskIds
  · exact AList.mem_mapVals.mpr (n.taskIds_sublist.subset hmem)
  · simp [submitted, queuedOn, hmem] at h

theorem sound_step {s t : WorkerNode σ μ × Phase μ} {l : Event μ} (sound : Sound s)
    (hstep : Step pmap compute step timing s l t) : Sound t := by
  cases hstep with
  | start => exact owned_submitted _
  | @take n ts vid queued =>
      intro k hk
      rcases eq_or_ne k vid with rfl | hne
      · exact sound k (by simp [queued])
      · exact sound k (by simpa [Function.update_of_ne hne] using hk)
  | @compute n ts vid inbox running =>
      intro k hk
      rcases eq_or_ne k vid with rfl | hne
      · simp at hk
      · exact AList.mem_mapVals.mpr (sound k (by simpa [Function.update_of_ne hne] using hk))
  | finish => trivial

/-- **One step, of whatever task, leaves the end of the superstep as it is.** -/
theorem ending_step {s t : WorkerNode σ μ × Phase μ} {l : Event μ} (sound : Sound s)
    (hstep : Step pmap compute step timing s l t) :
    ending pmap compute step timing t = ending pmap compute step timing s := by
  cases hstep with
  | start => rfl
  | take queued => exact congrArg (finish pmap) (settle_take queued)
  | compute running => exact congrArg (finish pmap) (settle_compute sound running)
  | finish joined =>
      obtain rfl := funext joined
      exact congrArg (finish pmap) settle_none.symm

theorem remaining_step {s t : WorkerNode σ μ × Phase μ} {l : Event μ} (sound : Sound s)
    (hstep : Step pmap compute step timing s l t) :
    (remaining timing s).Perm (calls [l] ++ remaining timing t) := by
  cases hstep with
  | start => exact .refl _
  | take queued => exact .of_eq (outstanding_take queued).symm
  | compute running => exact outstanding_compute compute step sound running
  | finish joined =>
      obtain rfl := funext joined
      simp [remaining, calls, outstanding, call]

theorem uncollected_step {s t : WorkerNode σ μ × Phase μ} {l : Event μ} (sound : Sound s)
    (hstep : Step pmap compute step timing s l t) :
    uncollected compute step timing s = collected [l] ++ uncollected compute step timing t := by
  cases hstep with
  | start => rfl
  | take queued => simp [uncollected, collected, settle_take queued]
  | compute running => simp [uncollected, collected, settle_compute sound running]
  | finish joined =>
      obtain rfl := funext joined
      simp [uncollected, collected, settle_none]

theorem run_ending {s t : WorkerNode σ μ × Phase μ} {tr : List (Event μ)} (sound : Sound s)
    (run : Run (Step pmap compute step timing) s tr t) :
    ending pmap compute step timing t = ending pmap compute step timing s := by
  induction run with
  | nil => rfl
  | cons hstep _ ih => rw [ih (sound_step sound hstep), ending_step sound hstep]

theorem run_remaining {s t : WorkerNode σ μ × Phase μ} {tr : List (Event μ)} (sound : Sound s)
    (run : Run (Step pmap compute step timing) s tr t) :
    (remaining timing s).Perm (calls tr ++ remaining timing t) := by
  induction run with
  | nil => exact .refl _
  | @cons s t u l tr hstep _ ih =>
      have hsplit : calls (l :: tr) = calls [l] ++ calls tr := by
        rw [← List.singleton_append, calls, List.filterMap_append]
        rfl
      rw [hsplit, List.append_assoc]
      exact (remaining_step sound hstep).trans ((ih (sound_step sound hstep)).append_left _)

theorem run_uncollected {s t : WorkerNode σ μ × Phase μ} {tr : List (Event μ)} (sound : Sound s)
    (run : Run (Step pmap compute step timing) s tr t) :
    uncollected compute step timing s = collected tr ++ uncollected compute step timing t := by
  induction run with
  | nil => rfl
  | @cons s t u l tr hstep _ ih =>
      have hsplit : collected (l :: tr) = collected [l] ++ collected tr := by
        rw [← List.singleton_append, collected, List.filterMap_append]
        rfl
      rw [hsplit, List.append_assoc, ← ih (sound_step sound hstep)]
      exact uncollected_step sound hstep

/-! ### The sequential run -/

omit [Addressed μ] in
theorem queuedOn_cons {vid : VertexId} {vids : List VertexId} (hnot : vid ∉ vids)
    (x : TaskState μ) :
    Function.update (Function.update (queuedOn (vid :: vids)) vid x) vid .none = queuedOn vids := by
  funext k
  rcases eq_or_ne k vid with rfl | hne
  · simp [queuedOn, hnot]
  · simp [queuedOn, hne]

omit [Addressed μ] in
/-- Queued tasks make of the worker what they make of it one after the other. -/
theorem settle_queuedOn {vids : List VertexId} (hnodup : vids.Nodup) {n : WorkerNode σ μ}
    (hmem : ∀ vid ∈ vids, vid ∈ n.vertices) :
    n.settle compute step (queuedOn vids) = vids.foldl (runTask compute step) n := by
  induction vids generalizing n with
  | nil => exact settle_none
  | cons vid vids ih =>
      obtain ⟨hnot, hnodup⟩ := List.nodup_cons.mp hnodup
      have hqueued : queuedOn (vid :: vids) vid = (.queued : TaskState μ) := by simp [queuedOn]
      have howned : Owned (n.eraseInbox vid)
          (Function.update (queuedOn (vid :: vids)) vid (.running (n.inboxOf vid))) := by
        intro k hk
        rcases eq_or_ne k vid with rfl | hne
        · exact hmem k List.mem_cons_self
        · apply hmem k
          by_contra hout
          simp [Function.update_of_ne hne, queuedOn, hout] at hk
      rw [← settle_take hqueued, ← settle_compute howned (Function.update_self ..),
        queuedOn_cons hnot, List.foldl_cons]
      exact ih hnodup fun k hk =>
        AList.mem_mapVals.mpr (hmem k (List.mem_cons_of_mem _ hk))

theorem runSuperstep_eq (n : WorkerNode σ μ) :
    n.runSuperstep pmap compute step timing = (n.computed compute step timing).finish pmap := by
  have hmem : ∀ vid ∈ (n.receive timing).taskIds, vid ∈ (n.receive timing).wake.vertices :=
    fun vid h => AList.mem_mapVals.mpr ((n.receive timing).taskIds_sublist.subset h)
  unfold runSuperstep computed submitted
  rw [settle_queuedOn (n.receive timing).nodup_taskIds hmem]

variable (pmap compute step timing) in
/-- Queued tasks can run one after the other. -/
theorem run_tasks (vids : List VertexId) (hnodup : vids.Nodup) (n : WorkerNode σ μ) :
    ∃ tr, Run (Step pmap compute step timing) (n, .computing (queuedOn vids)) tr
      (vids.foldl (runTask compute step) n, .computing (queuedOn [])) := by
  induction vids generalizing n with
  | nil => exact ⟨[], .nil _⟩
  | cons vid vids ih =>
      obtain ⟨hnot, hnodup⟩ := List.nodup_cons.mp hnodup
      obtain ⟨tr, rest⟩ := ih hnodup (n.runTask compute step vid)
      refine ⟨.take vid :: .compute vid (n.inboxOf vid) :: tr, ?_⟩
      refine .cons (.take (by simp [queuedOn])) (.cons (.compute (by simp)) ?_)
      rw [queuedOn_cons hnot]
      exact rest

omit [Addressed μ] in
theorem call_submitted (n : WorkerNode σ μ) (vid : VertexId) :
    n.wake.call n.submitted vid = if vid ∈ n.taskIds then some (n.inboxOf vid) else none := by
  by_cases hmem : vid ∈ n.taskIds
  · simp [call, submitted, queuedOn, hmem, inboxOf, wake]
  · simp [call, submitted, queuedOn, hmem]

omit [Addressed μ] in
theorem outstanding_submitted (n : WorkerNode σ μ) :
    (n.wake.outstanding n.submitted).Perm (n.taskIds.map fun vid => (vid, n.inboxOf vid)) := by
  have hkeys : (n.vertices.keys.filter (· ∈ n.taskIds)).Perm n.taskIds := by
    apply (List.perm_ext_iff_of_nodup (n.vertices.keys_nodup.filter _) n.nodup_taskIds).mpr
    intro vid
    simpa using fun h => n.taskIds_sublist.subset h
  have hcalls : n.wake.outstanding n.submitted =
      (n.vertices.keys.filter (· ∈ n.taskIds)).map fun vid => (vid, n.inboxOf vid) := by
    unfold outstanding
    rw [show n.wake.vertices.keys = n.vertices.keys from AList.keys_mapVals _ _,
      ← List.filterMap_eq_map, List.filterMap_filter]
    apply List.filterMap_congr
    intro vid _
    rw [call_submitted]
    by_cases hmem : vid ∈ n.taskIds
    · simp [hmem]
    · simp [hmem]
  rw [hcalls]
  exact hkeys.map _

/-- **Every complete run of a superstep ends where `runSuperstep` ends.** -/
theorem run_eq_runSuperstep {n n' : WorkerNode σ μ} {tr : List (Event μ)}
    (run : Run (Step pmap compute step timing) (n, .ready) tr (n', .flushed)) :
    n' = n.runSuperstep pmap compute step timing := by
  rw [runSuperstep_eq]
  exact run_ending (s := (n, .ready)) trivial run

/-- **Every complete run calls `compute` once for each task.** -/
theorem calls_of_run {n n' : WorkerNode σ μ} {tr : List (Event μ)}
    (run : Run (Step pmap compute step timing) (n, .ready) tr (n', .flushed)) :
    (calls tr).Perm ((n.receive timing).taskIds.map fun vid =>
      (vid, (n.receive timing).inboxOf vid)) := by
  have hperm := run_remaining (s := (n, .ready)) trivial run
  simp only [remaining, List.append_nil] at hperm
  exact hperm.symm.trans (outstanding_submitted _)

theorem collected_of_run {n n' : WorkerNode σ μ} {tr : List (Event μ)}
    (run : Run (Step pmap compute step timing) (n, .ready) tr (n', .flushed)) :
    collected tr = [(n.computed compute step timing).outboxes] := by
  simpa [uncollected] using (run_uncollected (s := (n, .ready)) trivial run).symm

/-- **Every worker has a complete run.** -/
theorem exists_run (pmap : PartitionMap) (compute : Compute σ μ) (step : Superstep)
    (timing : WorkerId → Nat) {n : WorkerNode σ μ} (nodes : 0 < n.config.numaNodes) :
    ∃ tr, Run (Step pmap compute step timing) (n, .ready) tr
      (n.runSuperstep pmap compute step timing, .flushed) := by
  obtain ⟨tr, run⟩ := run_tasks pmap compute step timing (n.receive timing).taskIds
    (n.receive timing).nodup_taskIds (n.receive timing).wake
  exact ⟨.start :: tr ++ [.finish _], .append (.cons (.start nodes) run) (.one (.finish fun _ => rfl))⟩

end Runs

/-! ### A superstep, stage by stage -/

/-- Messages `ms` join an entry of the inbox map, which they create if need be. -/
def extend (entry : Option (List μ)) (ms : List μ) : Option (List μ) :=
  if ms.isEmpty then entry else some (entry.getD [] ++ ms)

@[simp] theorem extend_nil (entry : Option (List μ)) : extend entry [] = entry := rfl

theorem getD_extend (entry : Option (List μ)) (ms : List μ) :
    (extend entry ms).getD [] = entry.getD [] ++ ms := by
  cases ms with
  | nil => simp
  | cons m ms => simp [extend]

theorem isNone_extend {entry : Option (List μ)} {ms : List μ} :
    extend entry ms = none ↔ entry = none ∧ ms = [] := by
  cases ms with
  | nil => simp
  | cons m ms => simp [extend]

/-- What one superstep makes of a vertex before its outbox is collected. -/
def advance (compute : Compute σ μ) (step : Superstep) (entry : Option (List μ))
    (v : Vertex σ μ) : Vertex σ μ :=
  if v.halted && entry.isNone then v else compute v.wakeUp (entry.getD []) step

theorem advance_of_active {compute : Compute σ μ} {step : Superstep} {ms : List μ}
    {v : Vertex σ μ} (h : v.halted = false ∨ ms ≠ []) :
    advance compute step (extend none ms) v = compute v.wakeUp ms step := by
  have hentry : (v.halted && (extend none ms).isNone) = false := by
    rcases h with h | h
    · simp [h]
    · have hsome : (extend none ms).isNone = false := by
        rw [← Bool.not_eq_true, Option.isNone_iff_eq_none, isNone_extend]
        exact fun hnone => h hnone.2
      simp only [hsome, Bool.and_false]
  unfold advance
  rw [hentry, getD_extend]
  rfl

theorem advance_of_halted {compute : Compute σ μ} {step : Superstep} {v : Vertex σ μ}
    (h : v.halted = true) : advance compute step none v = v := by
  simp [advance, h]

section Stages

variable [Addressed μ] {pmap : PartitionMap} {compute : Compute σ μ} {step : Superstep}
  {timing : WorkerId → Nat}

omit σ in
theorem foldl_dispatchMessage (inbox : VertexId → Option (List μ)) (msgs : List μ)
    (vid : VertexId) : msgs.foldl dispatchMessage inbox vid =
      extend (inbox vid) (msgs.filter fun m => dst m = vid) := by
  induction msgs generalizing inbox with
  | nil => rfl
  | cons m msgs ih =>
      rw [List.foldl_cons, ih]
      rcases eq_or_ne (dst m) vid with rfl | hne
      · cases hms : msgs.filter fun x => dst x = dst m with
        | nil => simp [dispatchMessage, extend, hms]
        | cons x xs => simp [dispatchMessage, extend, hms]
      · simp [dispatchMessage, hne, Function.update_of_ne hne.symm]

/-- Every drained message joins the inbox entry of its destination, in order. -/
theorem receive_vertexInbox (n : WorkerNode σ μ) (vid : VertexId) :
    (n.receive timing).vertexInbox vid = extend (n.vertexInbox vid)
      ((n.bus.network timing).drainInbox.1.filter fun m => dst m = vid) :=
  foldl_dispatchMessage ..

theorem mem_receive_inboxOf {n : WorkerNode σ μ} {vid : VertexId} {m : μ} :
    m ∈ (n.receive timing).inboxOf vid ↔
      m ∈ n.inboxOf vid ∨ (m ∈ (n.bus.network timing).drainInbox.1 ∧ dst m = vid) := by
  rw [inboxOf, receive_vertexInbox, getD_extend, List.mem_append, List.mem_filter]
  simp [inboxOf]

@[simp] theorem receive_vertices (n : WorkerNode σ μ) : (n.receive timing).vertices = n.vertices :=
  rfl

@[simp] theorem receive_bus (n : WorkerNode σ μ) :
    (n.receive timing).bus = (n.bus.network timing).drainInbox.2 := rfl

/-- The tasks advance every vertex by the entry that the dispatch left for it. -/
theorem computed_vertices (n : WorkerNode σ μ) :
    (n.computed compute step timing).vertices = n.vertices.mapVals fun vid v =>
      advance compute step ((n.receive timing).vertexInbox vid) v := by
  unfold computed settle
  simp only [call_submitted]
  rw [wake, AList.mapVals_mapVals]
  apply AList.mapVals_congr
  intro e he
  obtain ⟨vid, v⟩ := e
  have hmem := mem_taskIds_of_lookup (AList.lookup_eq_some_iff.mpr he)
  cases hhalted : v.halted with
  | false =>
      have htask : vid ∈ (n.receive timing).taskIds := hmem.mpr (by simp [skips, hhalted])
      simp [htask, hhalted, advance, inboxOf, Vertex.wakeUp_of_not_halted hhalted]
  | true =>
      cases hentry : (n.receive timing).vertexInbox vid with
      | none =>
          have htask : vid ∉ (n.receive timing).taskIds := by simp [hmem, skips, hhalted, hentry]
          simp [htask, hhalted, advance]
      | some inbox =>
          have htask : vid ∈ (n.receive timing).taskIds := hmem.mpr (by simp [skips, hentry])
          simp [htask, hhalted, hentry, advance, inboxOf]

/-- The tasks consume every entry of the worker's own vertices and no other. -/
theorem computed_vertexInbox (n : WorkerNode σ μ) (vid : VertexId) :
    (n.computed compute step timing).vertexInbox vid =
      if vid ∈ n.vertices then none else (n.receive timing).vertexInbox vid := by
  have hvalue : (n.computed compute step timing).vertexInbox vid =
      if vid ∈ (n.receive timing).taskIds then none else (n.receive timing).vertexInbox vid := by
    by_cases hmem : vid ∈ (n.receive timing).taskIds
    · simp [computed, settle, submitted, queuedOn, hmem]
    · simp [computed, settle, submitted, queuedOn, hmem, wake]
  rw [hvalue]
  by_cases hmem : vid ∈ n.vertices
  · rw [if_pos hmem]
    split
    · rfl
    · rename_i hnot
      obtain ⟨v, hv⟩ := AList.exists_lookup_of_mem hmem
      rw [mem_taskIds_of_lookup (n := n.receive timing) hv] at hnot
      simp only [skips, Bool.and_eq_false_iff, not_or] at hnot
      simpa using hnot.2
  · have hnot : vid ∉ (n.receive timing).taskIds := fun h =>
      hmem ((n.receive timing).taskIds_sublist.subset h)
    rw [if_neg hnot, if_neg hmem]

@[simp] theorem computed_bus (n : WorkerNode σ μ) :
    (n.computed compute step timing).bus = (n.bus.network timing).drainInbox.2 := rfl

/-- The messages collected from a worker's vertices, in order. -/
def collectedMessages (n : WorkerNode σ μ) : List μ := n.outboxes.flatMap Prod.snd

theorem foldl_routeOutbox (boxes : List (List μ)) (s : WorkerStats × MessageBus μ) :
    boxes.foldl (routeOutbox pmap) s =
      ({ s.1 with messagesSent := s.1.messagesSent + boxes.flatten.length },
        s.2.enqueueBatch pmap boxes.flatten) := by
  induction boxes generalizing s with
  | nil => rfl
  | cons box boxes ih =>
      rw [List.foldl_cons, ih]
      cases box with
      | nil => simp [routeOutbox]
      | cons m box =>
          simp [routeOutbox, MessageBus.enqueueBatch, List.foldl_append, Nat.add_assoc,
            Nat.add_comm 1]

theorem finish_eq (n : WorkerNode σ μ) :
    n.finish pmap =
      { n with
        bus := (n.bus.enqueueBatch pmap n.collectedMessages).flush
        vertices := n.vertices.mapVals fun _ v => v.clearOutbox
        stats := { n.stats with
          messagesSent := n.stats.messagesSent + n.collectedMessages.length
          superstepsCompleted := n.stats.superstepsCompleted + 1 } } := by
  have hclear : (n.vertices.mapVals fun _ v => if v.outbox.isEmpty then v else v.clearOutbox) =
      n.vertices.mapVals fun _ v => v.clearOutbox := by
    apply AList.mapVals_congr
    intro e _
    split
    · rename_i hempty
      exact (Vertex.clearOutbox_of_nil (List.isEmpty_iff.mp hempty)).symm
    · rfl
  simp only [finish, collectAndRouteOutbox, foldl_routeOutbox, hclear, collectedMessages,
    List.flatMap_def]

/-- No step adds a vertex to a worker or takes one away. -/
theorem mem_vertices_step {s t : WorkerNode σ μ × Phase μ} {l : Event μ}
    (hstep : Step pmap compute step timing s l t) {vid : VertexId} :
    vid ∈ t.1.vertices ↔ vid ∈ s.1.vertices := by
  cases hstep with
  | start => simp [wake]
  | take => rfl
  | compute => simp [runCompute]
  | finish => simp [finish_eq]

@[simp] theorem runSuperstep_config (n : WorkerNode σ μ) :
    (n.runSuperstep pmap compute step timing).config = n.config := by
  rw [runSuperstep_eq, finish_eq]
  rfl

end Stages

end WorkerNode

end Pregel
