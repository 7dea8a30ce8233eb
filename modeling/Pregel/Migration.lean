import Pregel.Conservation
import Pregel.Delivery

/-!
Moving vertices from one worker to another between two supersteps.

The caller takes vertices out of the map of worker `a` and passes them to
`absorb_partition` of worker `b`, which puts them in its own map and changes their
owner in the partition map. Messages that are already enqueued stay where they are. To
follow one of them, it is marked (`Traced`); programs do not see the mark and send
unmarked messages (`Traced.lift`).

* `absorbPartition_frame`, `mem_absorbPartition`: what `absorb_partition` does and what it
  leaves alone.
* `follows_idle`, `follows_run`: while a vertex does not compute, what its worker has
  for it stays there.
* `follows_compute`: when it computes, it gets what is not waiting.
* `migration_keeps_message`: a message for a moved vertex is in the inbox with which the
  vertex next computes exactly when it was in the stores of its new worker all along and
  has arrived by then.
-/

namespace Pregel

open Lts
open WorkerNode (Phase Event)

namespace WorkerNode

variable {σ μ : Type}

/-! ### Absorbing a partition -/

/-- Absorbing touches the vertices and the counters, not the bus and not the inbox map. -/
theorem absorbPartition_frame (pmap : PartitionMap) (n : WorkerNode σ μ) (vs : List (Vertex σ μ)) :
    (absorbPartition pmap n vs).2.id = n.id ∧ (absorbPartition pmap n vs).2.config = n.config ∧
      (absorbPartition pmap n vs).2.bus = n.bus ∧
      (absorbPartition pmap n vs).2.vertexInbox = n.vertexInbox := by
  unfold absorbPartition
  induction vs generalizing pmap n with
  | nil => exact ⟨rfl, rfl, rfl, rfl⟩
  | cons v vs ih => exact ih (absorbVertex (pmap, n) v).1 (absorbVertex (pmap, n) v).2

theorem mem_absorbPartition (pmap : PartitionMap) (n : WorkerNode σ μ) (vs : List (Vertex σ μ))
    (vid : VertexId) : vid ∈ (absorbPartition pmap n vs).2.vertices ↔
      vid ∈ n.vertices ∨ vid ∈ vs.map Vertex.id := by
  unfold absorbPartition
  induction vs generalizing pmap n with
  | nil => simp
  | cons v vs ih =>
      apply (ih (absorbVertex (pmap, n) v).1 (absorbVertex (pmap, n) v).2).trans
      rw [absorbVertex, AList.mem_insert, List.map_cons, List.mem_cons, or_assoc, or_left_comm]

/-- What holds of the old vertices and of the absorbed ones holds of all. -/
theorem forall_absorbPartition {P : Vertex σ μ → Prop} (pmap : PartitionMap) (n : WorkerNode σ μ)
    {vs : List (Vertex σ μ)} (old : ∀ vid v, n.vertices.lookup vid = some v → P v)
    (new : ∀ v ∈ vs, P (v.setOwner n.id)) (vid : VertexId) (v : Vertex σ μ)
    (hv : (absorbPartition pmap n vs).2.vertices.lookup vid = some v) : P v := by
  unfold absorbPartition at hv
  induction vs generalizing pmap n with
  | nil => exact old vid v hv
  | cons w vs ih =>
      refine ih (absorbVertex (pmap, n) w).1 (absorbVertex (pmap, n) w).2 ?_
        (fun x hx => new x (List.mem_cons_of_mem _ hx)) hv
      intro k x hx
      rcases eq_or_ne k w.id with rfl | hne
      · simp only [absorbVertex, AList.lookup_insert, Option.some.injEq] at hx
        exact hx ▸ new w List.mem_cons_self
      · simp only [absorbVertex, AList.lookup_insert_ne hne] at hx
        exact old k x hx

end WorkerNode

/-! ### Marks -/

def Vertex.mapOutbox {σ μ ν : Type} (f : μ → ν) (v : Vertex σ μ) : Vertex σ ν where
  id := v.id
  type := v.type
  owner := v.owner
  halted := v.halted
  edges := v.edges
  outbox := v.outbox.map f
  state := v.state

namespace Traced

variable {σ μ : Type}

/-- A program run on marked messages: it does not see the marks, and what it sends is
not marked. -/
def lift (compute : Compute σ μ) : Compute σ (Traced μ) := fun v ms step =>
  (compute (v.mapOutbox msg) (ms.map msg) step).mapOutbox fun m => ⟨m, false⟩

/-- A marked message for vertex `vid`. -/
def marked [Addressed μ] (vid : VertexId) (m : Traced μ) : Bool := m.traced && (dst m = vid : Bool)

/-- No vertex of the worker has a marked message in its own outbox. -/
def Unsent (n : WorkerNode σ (Traced μ)) : Prop :=
  ∀ vid v, n.vertices.lookup vid = some v → ∀ m ∈ v.outbox, m.traced = false

variable [Addressed μ] {compute : Compute σ μ} {step : Superstep} {timing : WorkerId → Nat}
  {n : WorkerNode σ (Traced μ)}

/-- What a worker collects in a superstep is not marked. -/
theorem collected_unmarked (h : Unsent n) (vid : VertexId) :
    ∀ m ∈ (n.computed (lift compute) step timing).collectedMessages, marked vid m = false := by
  intro m hm
  rw [WorkerNode.collectedMessages_eq, WorkerNode.computed_vertices, AList.entries_mapVals,
    List.flatMap_map] at hm
  obtain ⟨⟨k, v⟩, hentry, hm⟩ := List.mem_flatMap.mp hm
  have hmark : m.traced = false := by
    simp only [Sigma.map, WorkerNode.advance, id_eq] at hm
    split at hm
    · exact h k v (AList.lookup_eq_some_iff.mpr hentry) m hm
    · obtain ⟨x, -, rfl⟩ := List.mem_map.mp hm
      rfl
  simp [marked, hmark]

theorem unsent_runSuperstep {pmap : PartitionMap} {compute : Compute σ (Traced μ)} :
    Unsent (n.runSuperstep pmap compute step timing) := by
  intro vid v hv m hm
  rw [WorkerNode.runSuperstep_vertices, AList.lookup_mapVals, Option.map_eq_some_iff] at hv
  obtain ⟨x, -, rfl⟩ := hv
  cases hm

end Traced

/-! ### Moving vertices -/

namespace GraphEngine

variable {σ μ : Type}

/-- The vertices `vs` are taken out of the map of worker `a` and passed to
`absorb_partition` of worker `b`. -/
def movePartition (e : GraphEngine σ μ) (a b : WorkerId) (vs : List (Vertex σ μ)) :
    GraphEngine σ μ :=
  let rest := vs.foldl (fun m v => m.erase v.id) (e.workers a).vertices
  let workers := Function.update e.workers a { e.workers a with vertices := rest }
  let (pmap, n) := WorkerNode.absorbPartition e.pmap (workers b) vs
  { e with pmap := pmap, workers := Function.update workers b n }

/-- Every worker has a bus of its own, as `setup_infrastructure` gives it one. -/
structure Wired (e : GraphEngine σ μ) : Prop where
  localId : ∀ i < e.config.workerCount, (e.workers i).bus.localId = i
  workerCount : ∀ i < e.config.workerCount, (e.workers i).bus.workerCount = e.config.workerCount
  connected : ∀ i < e.config.workerCount, (e.workers i).bus.Connected

theorem load_wired (config : EngineConfig) (vertices : List (Vertex σ μ)) :
    Wired (load config vertices) := by
  constructor <;> intro i _ <;> rw [load_worker]
  · rfl
  · rw [load_config]
    rfl
  · exact MessageBus.connected_new _ _ _

theorem wired_superstepRun [Addressed μ] {compute : Compute σ μ} {step : Superstep}
    {timing : WorkerId → WorkerId → Nat} {e e' : GraphEngine σ μ}
    {tr : List (WorkerId × Event μ)} (h : Wired e)
    (run : SuperstepRun compute step timing e tr e') : Wired e' := by
  have hconfig : e'.config = e.config := by rw [superstepRun_eq run, superstep]
  have hworker : ∀ i < e'.config.workerCount,
      e'.workers i = (e.workers i).runSuperstep e.pmap compute step (timing i) :=
    fun i hi => WorkerNode.run_eq_runSuperstep (worker_run run (hconfig ▸ hi))
  constructor <;> intro i hi <;> rw [hworker i hi]
  · rw [WorkerNode.runSuperstep_localId, h.localId i (hconfig ▸ hi)]
  · rw [WorkerNode.runSuperstep_workerCount, h.workerCount i (hconfig ▸ hi), hconfig]
  · exact WorkerNode.connected_runSuperstep (h.connected i (hconfig ▸ hi))

section Move

variable {e : GraphEngine σ μ} {a b : WorkerId} {vs : List (Vertex σ μ)}

/-- A change in one worker that leaves its bus in place. -/
theorem wired_update (h : Wired e) (i : WorkerId) {n : WorkerNode σ μ}
    (hid : n.bus.localId = (e.workers i).bus.localId)
    (hcount : n.bus.workerCount = (e.workers i).bus.workerCount)
    (hconn : (e.workers i).bus.Connected → n.bus.Connected) :
    Wired { e with workers := Function.update e.workers i n } := by
  have hcases : ∀ (P : WorkerId → WorkerNode σ μ → Prop),
      (∀ j < e.config.workerCount, P j (e.workers j)) → (P i (e.workers i) → P i n) →
      ∀ j < e.config.workerCount, P j (Function.update e.workers i n j) := by
    intro P hold hnew j hj
    rcases eq_or_ne j i with rfl | hne
    · simpa using hnew (hold j hj)
    · simpa [hne] using hold j hj
  constructor
  · exact hcases (fun j n => n.bus.localId = j) h.localId hid.trans
  · exact hcases (fun _ n => n.bus.workerCount = e.config.workerCount) h.workerCount hcount.trans
  · exact hcases (fun _ n => n.bus.Connected) h.connected hconn

theorem wired_movePartition (h : Wired e) : Wired (e.movePartition a b vs) := by
  have htaken : Wired { e with workers := Function.update e.workers a { e.workers a with
      vertices := vs.foldl (fun m v => m.erase v.id) (e.workers a).vertices } } :=
    wired_update h a rfl rfl id
  obtain ⟨-, -, hbus, -⟩ := WorkerNode.absorbPartition_frame e.pmap
    (Function.update e.workers a { e.workers a with
      vertices := vs.foldl (fun m v => m.erase v.id) (e.workers a).vertices } b) vs
  have habsorbed := wired_update htaken b (congrArg MessageBus.localId hbus)
    (congrArg MessageBus.workerCount hbus) fun hconn => hbus ▸ hconn
  exact ⟨habsorbed.localId, habsorbed.workerCount, habsorbed.connected⟩

theorem movePartition_worker (hne : a ≠ b) : (e.movePartition a b vs).workers b =
    (WorkerNode.absorbPartition e.pmap (e.workers b) vs).2 := by
  simp [movePartition, Function.update_of_ne hne.symm]

end Move

/-! ### Following a message -/

section Follow

variable [Addressed μ] {compute : Compute σ μ} {step : Superstep}
  {timing : WorkerId → WorkerId → Nat} {e e' : GraphEngine σ (Traced μ)}
  {tr : List (WorkerId × Event (Traced μ))} {b : WorkerId} {vid : VertexId} {k : Nat}

/-- Worker `b` has vertex `vid` and, somewhere, `k` marked messages for it. -/
structure Follows (b : WorkerId) (vid : VertexId) (k : Nat) (e : GraphEngine σ (Traced μ)) :
    Prop where
  inRange : b < e.config.workerCount
  wired : Wired e
  vertex : vid ∈ (e.workers b).vertices
  unsent : Traced.Unsent (e.workers b)
  pending : (e.workers b).pending (Traced.marked vid) vid = k

omit σ in
theorem dst_of_marked {vid : VertexId} (m : Traced μ) (h : Traced.marked vid m = true) :
    dst m = vid := by
  simp only [Traced.marked, Bool.and_eq_true, decide_eq_true_eq] at h
  exact h.2

/-- **While the vertex does not compute**, the worker keeps its messages. -/
theorem follows_idle (h : Follows b vid k e)
    (run : SuperstepRun (Traced.lift compute) step timing e tr e')
    (hidle : ∀ ms, (b, Event.compute vid ms) ∉ tr) : Follows b vid k e' := by
  have hworker := WorkerNode.run_eq_runSuperstep (worker_run run h.inRange)
  have hconfig : e'.config = e.config := by rw [superstepRun_eq run, superstep]
  have hlocal : (e.workers b).bus.localId < (e.workers b).bus.workerCount := by
    rw [h.wired.localId b h.inRange, h.wired.workerCount b h.inRange]
    exact h.inRange
  have htask : vid ∉ ((e.workers b).receive (timing b)).taskIds := fun htask =>
    hidle _ ((mem_compute_iff run h.inRange).mpr ⟨htask, rfl⟩)
  refine ⟨hconfig ▸ h.inRange, wired_superstepRun h.wired run, ?_, ?_, ?_⟩
  · rw [hworker, WorkerNode.mem_runSuperstep]
    exact h.vertex
  · rw [hworker]
    exact Traced.unsent_runSuperstep
  · rw [hworker, WorkerNode.pending_idle dst_of_marked (h.wired.connected b h.inRange) hlocal
      h.vertex (Traced.collected_unmarked h.unsent vid) htask, h.pending]

/-- **When the vertex computes**, its inbox has the messages that are not waiting. -/
theorem follows_compute (h : Follows b vid k e)
    (run : SuperstepRun (Traced.lift compute) step timing e tr e') {ms : List (Traced μ)}
    (hcall : (b, Event.compute vid ms) ∈ tr) :
    ms.countP (Traced.marked vid) +
      ((e.workers b).bus.network (timing b)).waiting (Traced.marked vid) = k := by
  obtain ⟨-, rfl⟩ := (mem_compute_iff run h.inRange).mp hcall
  rw [WorkerNode.pending_receive (timing b) (e.workers b) dst_of_marked, h.pending]

theorem follows_run {s s' : Superstep × GraphEngine σ (Traced μ)}
    {trs : List (List (WorkerId × Event (Traced μ)))}
    (run : Run (NextSuperstep (Traced.lift compute)) s trs s')
    (hidle : ∀ tr ∈ trs, ∀ ms, (b, Event.compute vid ms) ∉ tr) (h : Follows b vid k s.2) :
    Follows b vid k s'.2 := by
  refine run.invariant_of_labels (fun s => Follows b vid k s.2) ?_ hidle h
  rintro s tr t hidle h ⟨-, timing, run⟩
  exact follows_idle h run hidle

/-- **A migrated vertex gets a message exactly when its new worker already has it.** Let
vertices be moved from worker `a` to worker `b` at a superstep boundary, `v` among them,
and let one message for `v` be marked, anywhere in the engine. Whenever `v` next computes
on `b`, the message is in its inbox exactly once if and only if it was with `b` at the
time of the move, in its inbox map or in its bus, where the bus can still hand it over,
and is not waiting there any more. If it was in the inbox map or in the inbox of the bus
of `b`, then `v` computes with it in the next superstep. -/
theorem migration_keeps_message {a : WorkerId} (hne : a ≠ b) (ha : a < e.config.workerCount)
    (hb : b < e.config.workerCount) (wired : Wired e) {vs : List (Vertex σ (Traced μ))}
    (taken : ∀ v ∈ vs, (e.workers a).vertices.lookup v.id = some v)
    (unsent : ∀ i < e.config.workerCount, Traced.Unsent (e.workers i))
    {v : Vertex σ (Traced μ)} (hv : v ∈ vs)
    (one : ∑ i ∈ Finset.range e.config.workerCount,
      (e.workers i).stored (Traced.marked v.id) v.id = 1) (compute : Compute σ μ) :
    (∀ k trs k' e₁ timing tr e₂ ms,
      Run (NextSuperstep (Traced.lift compute)) (k, e.movePartition a b vs) trs (k', e₁) →
      (∀ tr ∈ trs, ∀ ms, (b, Event.compute v.id ms) ∉ tr) →
      SuperstepRun (Traced.lift compute) k' timing e₁ tr e₂ →
      (b, Event.compute v.id ms) ∈ tr →
      (ms.countP (Traced.marked v.id) = 1 ↔
        (e.workers b).pending (Traced.marked v.id) v.id = 1 ∧
          ((e₁.workers b).bus.network (timing b)).waiting (Traced.marked v.id) = 0)) ∧
    (((e.workers b).inboxOf v.id).countP (Traced.marked v.id) +
        (e.workers b).bus.inbox.countP (Traced.marked v.id) = 1 →
      ∀ k timing tr e₁,
        SuperstepRun (Traced.lift compute) k timing (e.movePartition a b vs) tr e₁ →
        ∃ ms, (b, Event.compute v.id ms) ∈ tr ∧ ms.countP (Traced.marked v.id) = 1) := by
  have hworker : (e.movePartition a b vs).workers b =
      (WorkerNode.absorbPartition e.pmap (e.workers b) vs).2 := movePartition_worker hne
  obtain ⟨-, -, hbus, hinbox⟩ := WorkerNode.absorbPartition_frame e.pmap (e.workers b) vs
  have hpending : ((e.movePartition a b vs).workers b).pending (Traced.marked v.id) v.id =
      (e.workers b).pending (Traced.marked v.id) v.id := by
    rw [hworker, WorkerNode.pending, WorkerNode.inboxOf, hbus, hinbox]
    rfl
  have hfollows : Follows b v.id ((e.workers b).pending (Traced.marked v.id) v.id)
      (e.movePartition a b vs) := by
    refine ⟨hb, wired_movePartition wired, ?_, ?_, hpending⟩
    · rw [hworker, WorkerNode.mem_absorbPartition]
      exact Or.inr (List.mem_map.mpr ⟨v, hv, rfl⟩)
    · rw [hworker]
      apply WorkerNode.forall_absorbPartition e.pmap (e.workers b) (unsent b hb)
      intro x hx
      exact unsent a ha x.id x (taken x hx)
  have hle : (e.workers b).pending (Traced.marked v.id) v.id ≤ 1 := by
    have hstored := WorkerNode.pending_le_stored (Traced.marked v.id) v.id (e.workers b)
    rw [← Finset.add_sum_erase _ _ (Finset.mem_range.mpr hb)] at one
    omega
  constructor
  · intro k trs k' e₁ timing tr e₂ ms run hidle next hcall
    have hlater : Follows b v.id ((e.workers b).pending (Traced.marked v.id) v.id) e₁ :=
      follows_run run hidle hfollows
    have hcount := follows_compute hlater next hcall
    constructor
    · intro hone
      constructor <;> omega
    · rintro ⟨hpending, hwaiting⟩
      omega
  · intro harrived k timing tr e₁ next
    have harrives := WorkerNode.arrived_le (p := Traced.marked v.id) (timing b)
      ((e.movePartition a b vs).workers b) dst_of_marked
    rw [hworker, WorkerNode.inboxOf, hbus, hinbox, ← WorkerNode.inboxOf, harrived] at harrives
    rw [← hworker] at harrives
    have hnonempty : (((e.movePartition a b vs).workers b).receive (timing b)).inboxOf v.id ≠ [] := by
      intro hnil
      rw [hnil] at harrives
      cases harrives
    have htask := WorkerNode.mem_taskIds_of_inboxOf
      (n := ((e.movePartition a b vs).workers b).receive (timing b)) hfollows.vertex hnonempty
    have hcall := (mem_compute_iff next hb).mpr ⟨htask, rfl⟩
    have hcount := follows_compute hfollows next hcall
    exact ⟨_, hcall, by omega⟩

end Follow

/-! ### One vertex and one message -/

def lone : Vertex Nat (Traced Message) := ⟨0, .order, 0, false, [], [], 0⟩

/-- Vertex 0 on worker 0 of two. -/
def oneVertex : GraphEngine Nat (Traced Message) := load { workerCount := 2 } [lone]

/-- Vertex 0 has sent itself a message. -/
def stranded : GraphEngine Nat (Traced Message) :=
  { oneVertex with workers := Function.update oneVertex.workers 0 { oneVertex.workers 0 with
      bus := { (oneVertex.workers 0).bus with inbox := [⟨⟨0, 0, 0, .heartbeat⟩, true⟩] } } }

/-- A vertex of worker 1 has sent vertex 0 a message, which came back to worker 1. -/
def returned : GraphEngine Nat (Traced Message) :=
  { oneVertex with workers := Function.update oneVertex.workers 1 { oneVertex.workers 1 with
      vertexInbox := fun vid =>
        if vid = 0 then some [⟨⟨1, 0, 0, .heartbeat⟩, true⟩] else none } }

theorem wired_stranded : Wired stranded := wired_update (load_wired _ _) 0 rfl rfl id

theorem wired_returned : Wired returned := wired_update (load_wired _ _) 1 rfl rfl id

theorem unsent_returned (i : WorkerId) : Traced.Unsent (returned.workers i) := by
  intro vid v hv m hm
  have hvertices : (returned.workers i).vertices = (oneVertex.workers i).vertices := by
    rcases eq_or_ne i 1 with rfl | hne
    · rfl
    · simp [returned, hne]
  rw [hvertices, oneVertex, load_lookup] at hv
  split at hv
  · rcases lastWith_mem hv with hnone | hmem
    · cases hnone
    · rw [List.mem_singleton.mp hmem] at hm
      cases hm
  · cases hv

/-- Vertex 0 moves from worker 0 to worker 1 and computes there with the message that
worker 1 had for it. -/
theorem migration_keeps_message_returned : ∃ tr e ms,
    SuperstepRun (Traced.lift pingPong) 1 (fun _ _ => 4) (returned.movePartition 0 1 [lone]) tr e ∧
      (1, Event.compute 0 ms) ∈ tr ∧ ms.countP (Traced.marked 0) = 1 ∧
      (returned.workers 1).pending (Traced.marked 0) 0 = 1 := by
  have taken : ∀ v ∈ [lone], (returned.workers 0).vertices.lookup v.id = some v := by
    decide +kernel
  obtain ⟨hiff, harrives⟩ := migration_keeps_message (b := 1) (by decide) (by decide) (by decide)
    wired_returned taken (fun i _ => unsent_returned i) List.mem_cons_self (by decide +kernel)
    pingPong
  obtain ⟨tr, next⟩ := exists_superstepRun (Traced.lift pingPong) 1 (fun _ _ => 4)
    (e := returned.movePartition 0 1 [lone]) (by decide +kernel)
  obtain ⟨ms, hcall, hone⟩ := harrives (by decide +kernel) _ _ _ _ next
  exact ⟨tr, _, ms, next, hcall, hone,
    ((hiff 1 [] 1 _ _ tr _ ms (.nil _) (by simp) next hcall).mp hone).1⟩

/-- Vertex 0 moves from worker 0 to worker 1 and computes there without the message that
it has sent itself. -/
theorem message_left_behind : ∃ tr e,
    SuperstepRun (Traced.lift pingPong) 1 (fun _ _ => 4) (stranded.movePartition 0 1 [lone]) tr e ∧
      (1, Event.compute 0 []) ∈ tr ∧ Wired stranded ∧
      ∑ i ∈ Finset.range 2, (stranded.workers i).stored (Traced.marked 0) 0 = 1 ∧
      ([] : List (Traced Message)).countP (Traced.marked 0) ≠ 1 := by
  obtain ⟨tr, next⟩ := exists_superstepRun (Traced.lift pingPong) 1 (fun _ _ => 4)
    (e := stranded.movePartition 0 1 [lone]) (by decide +kernel)
  refine ⟨tr, _, next, ?_, wired_stranded, by decide +kernel, by decide⟩
  exact (mem_compute_iff next (by decide)).mpr ⟨by decide +kernel, by decide +kernel⟩

end GraphEngine

end Pregel
