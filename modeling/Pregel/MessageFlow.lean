import Pregel.Delivery
import Pregel.GraphEngine

/-!
Which messages reach which vertices.

A program is checked call by call: if `compute` sends only messages of a certain kind as
long as it gets only such messages, then there are no others, in any store of the engine
and at any moment. The calls may be restricted to those with an acceptable result, and what
is acceptable of a message or a vertex may grow from one superstep to the next.

* `CheckedStep`, `CheckedSuperstep`, `CheckedExecution`: the steps, supersteps and
  executions in which every call of `compute` has an acceptable result.
* `StagedRule`, `FlowRule`: what is to be shown of a program, with and without a dependence
  on the superstep.
* `staged_step`, `flows_step`, `eventFlows_step`: a step of a worker.
* `staged_during`, `flows_during`, `CheckedExecution.staged`, `CheckedExecution.flows`:
  somewhere in a superstep, and after any number of supersteps.
-/

namespace Pregel

open Lts
open WorkerNode (Phase Event)

/-! ### Buses -/

namespace MessageBus

variable {μ : Type} {P : μ → Prop} {bus : MessageBus μ}

theorem Within.mono {P' : μ → Prop} (h : Within P bus) (weaken : ∀ m, P m → P' m) :
    Within P' bus where
  outboxes w m hm := weaken m (h.outboxes w m hm)
  inbox m hm := weaken m (h.inbox m hm)
  queuePairs m hm := weaken m (h.queuePairs m hm)

theorem within_flush (h : Within P bus) : Within P bus.flush := by
  have hrun : Interrupted (fun (_ : Unit) b => b) bus.flushSections bus bus.flush := by
    rw [← foldl_flushSections]
    exact .undisturbed _ _
  exact hrun.invariant (Within P) (fun _ _ hb => hb) (within_flushSections h) h

theorem within_drainInbox (h : Within P bus) :
    (∀ m ∈ bus.drainInbox.1, P m) ∧ Within P bus.drainInbox.2 := by
  have hrun : Interrupted (fun (_ : Unit) s => s) bus.drainSections ([], bus) bus.drainInbox := by
    rw [← foldl_drainSections]
    exact .undisturbed _ _
  exact hrun.invariant (fun s => (∀ m ∈ s.1, P m) ∧ Within P s.2) (fun _ _ hs => hs)
    within_drainSections ⟨fun _ hm => absurd hm List.not_mem_nil, h⟩

end MessageBus

/-! ### Checked runs -/

namespace GraphEngine

variable {σ μ : Type} [Addressed μ] (ok : Vertex σ μ → Prop)

/-- The steps of worker `i` in which `compute`, if it is called, leaves a vertex that
is `ok`. -/
def CheckedStep (e : GraphEngine σ μ) (compute : Compute σ μ) (step : Superstep)
    (timing : WorkerId → WorkerId → Nat) (i : WorkerId) (s : WorkerNode σ μ × Phase μ)
    (l : Event μ) (t : WorkerNode σ μ × Phase μ) : Prop :=
  e.WorkerStep compute step timing i s l t ∧
    ∀ vid inbox v, l = .compute vid inbox → t.1.vertices.lookup vid = some v → ok v

/-- A superstep of such steps. -/
def CheckedSuperstep (compute : Compute σ μ) (step : Superstep)
    (timing : WorkerId → WorkerId → Nat) (e : GraphEngine σ μ) (tr : List (WorkerId × Event μ))
    (e' : GraphEngine σ μ) : Prop :=
  ∃ ws, Run (Interleave (e.CheckedStep ok compute step timing))
      (fun i => (e.workers i, .ready)) tr ws ∧
    (∀ i < e.config.workerCount, (ws i).2 = .flushed) ∧
    e' = { e with workers := fun i => (ws i).1 }

/-- The next superstep of such steps. -/
def NextChecked (compute : Compute σ μ) (s : Superstep × GraphEngine σ μ)
    (tr : List (WorkerId × Event μ)) (t : Superstep × GraphEngine σ μ) : Prop :=
  t.1 = s.1 + 1 ∧ ∃ timing, CheckedSuperstep ok compute s.1 timing s.2 tr t.2

/-- Supersteps `0 .. k - 1` of such steps. -/
def CheckedExecution (compute : Compute σ μ) (e : GraphEngine σ μ)
    (trs : List (List (WorkerId × Event μ))) (k : Nat) (e' : GraphEngine σ μ) : Prop :=
  Run (NextChecked ok compute) (0, e) trs (k, e')

variable {ok} {compute : Compute σ μ} {step : Superstep} {timing : WorkerId → WorkerId → Nat}
  {e e' : GraphEngine σ μ}

/-- A checked execution is an execution. -/
theorem CheckedExecution.execution {trs : List (List (WorkerId × Event μ))} {k : Nat}
    (exec : CheckedExecution ok compute e trs k e') : Execution compute e trs k e' := by
  refine Run.mono ?_ exec
  rintro s tr t ⟨hnext, timing, ws, run, hrest⟩
  refine ⟨hnext, timing, ws, run.mono ?_, hrest⟩
  rintro s l t ⟨x, hstep, ht⟩
  exact ⟨x, hstep.1, ht⟩

/-- Without a check every step is checked. -/
theorem checkedStep_true {i : WorkerId} {s t : WorkerNode σ μ × Phase μ} {l : Event μ}
    (hstep : e.WorkerStep compute step timing i s l t) :
    e.CheckedStep (fun _ => True) compute step timing i s l t :=
  ⟨hstep, fun _ _ _ _ _ => trivial⟩

theorem checkedRun_true {tr : List (WorkerId × Event μ)}
    {ws ws' : WorkerId → WorkerNode σ μ × Phase μ}
    (run : Run (Interleave (e.WorkerStep compute step timing)) ws tr ws') :
    Run (Interleave (e.CheckedStep (fun _ => True) compute step timing)) ws tr ws' := by
  apply run.mono
  rintro s l t ⟨x, hstep, ht⟩
  exact ⟨x, checkedStep_true hstep, ht⟩

theorem Execution.checked {trs : List (List (WorkerId × Event μ))} {k : Nat}
    (exec : Execution compute e trs k e') :
    CheckedExecution (fun _ => True) compute e trs k e' := by
  refine Run.mono ?_ exec
  rintro s tr t ⟨hnext, timing, ws, run, hrest⟩
  exact ⟨hnext, timing, ws, checkedRun_true run, hrest⟩

theorem CheckedStep.of_step {i : WorkerId} {s t : WorkerNode σ μ × Phase μ} {l : Event μ}
    (hi : i < e.config.workerCount)
    (hstep : WorkerNode.Step e.pmap compute step (timing i) s l t)
    (check : ∀ vid inbox v, l = .compute vid inbox → t.1.vertices.lookup vid = some v → ok v) :
    e.CheckedStep ok compute step timing i s l t :=
  ⟨⟨hi, hstep⟩, check⟩

/-- A run of the only worker is a superstep of the engine. -/
theorem checkedSuperstep_single {tr : List (Event μ)} {n : WorkerNode σ μ}
    (one : e.config.workerCount = 1)
    (run : Run (e.CheckedStep ok compute step timing 0) (e.workers 0, .ready) tr (n, .flushed)) :
    CheckedSuperstep ok compute step timing e (tr.map (Prod.mk 0))
      { e with workers := Function.update e.workers 0 n } := by
  refine ⟨_, Interleave.lift (fun i => (e.workers i, Phase.ready)) run, ?_,
    by rw [workers_update_ready]⟩
  intro i hi
  obtain rfl : i = 0 := by omega
  simp

end GraphEngine

/-! ### The rule -/

section Flow

variable {σ μ : Type} [Addressed μ]

/-- What a program has to meet so that every message satisfies `P k`, and every vertex with
its identifier `Q k`, when superstep `k` begins. -/
structure StagedRule (compute : Compute σ μ) (ok : Vertex σ μ → Prop) (P : Nat → μ → Prop)
    (Q : Nat → VertexId → Vertex σ μ → Prop) : Prop where
  keepsMessages : ∀ k m, P k m → P (k + 1) m
  keepsVertices : ∀ k vid v, Q k vid v → Q (k + 1) vid v
  sends : ∀ k vid v, Q k vid v → ∀ m ∈ v.outbox, P k m
  wakes : ∀ k vid v, Q k vid v → Q k vid v.wakeUp
  collected : ∀ k vid v, Q k vid v → Q k vid v.clearOutbox
  computes : ∀ k vid v inbox, Q k vid v → (∀ m ∈ inbox, P k m ∧ dst m = vid) →
    ok (compute v inbox k) → Q (k + 1) vid (compute v inbox k)

/-- 1 if the messages of this superstep have been sent. -/
def sentIn : Phase μ → Nat
  | .flushed => 1
  | _ => 0

/-- Vertex `vid` has not been computed yet, if it will be. -/
def Pending : Phase μ → VertexId → Prop
  | .ready, _ => True
  | .computing ts, vid => ts vid ≠ .none
  | .flushed, _ => False

/-- A worker, somewhere in superstep `k`, with such messages and vertices. -/
structure StagedFlows (P : Nat → μ → Prop) (Q : Nat → VertexId → Vertex σ μ → Prop) (k : Nat)
    (s : WorkerNode σ μ × Phase μ) : Prop where
  bus : s.1.bus.Within (P (k + sentIn s.2))
  inboxes : ∀ vid, ∀ m ∈ s.1.inboxOf vid, P (k + sentIn s.2) m ∧ dst m = vid
  vertices : ∀ vid v, s.1.vertices.lookup vid = some v → Q (k + 1) vid v
  pending : ∀ vid v, s.1.vertices.lookup vid = some v → Pending s.2 vid → Q k vid v
  running : ∀ ts vid inbox, s.2 = .computing ts → ts vid = .running inbox →
    ∀ m ∈ inbox, P k m ∧ dst m = vid

/-- What a program has to meet so that every message satisfies `P`, and every vertex with
its identifier `Q`. -/
structure FlowRule (compute : Compute σ μ) (ok : Vertex σ μ → Prop) (P : μ → Prop)
    (Q : VertexId → Vertex σ μ → Prop) : Prop where
  sends : ∀ vid v, Q vid v → ∀ m ∈ v.outbox, P m
  wakes : ∀ vid v, Q vid v → Q vid v.wakeUp
  collected : ∀ vid v, Q vid v → Q vid v.clearOutbox
  computes : ∀ vid v inbox step, Q vid v → (∀ m ∈ inbox, P m ∧ dst m = vid) →
    ok (compute v inbox step) → Q vid (compute v inbox step)

/-- A worker, somewhere in a superstep, with such messages and vertices. -/
structure Flows (P : μ → Prop) (Q : VertexId → Vertex σ μ → Prop)
    (s : WorkerNode σ μ × Phase μ) : Prop where
  bus : s.1.bus.Within P
  inboxes : ∀ vid, ∀ m ∈ s.1.inboxOf vid, P m ∧ dst m = vid
  vertices : ∀ vid v, s.1.vertices.lookup vid = some v → Q vid v
  running : ∀ ts vid inbox, s.2 = .computing ts → ts vid = .running inbox →
    ∀ m ∈ inbox, P m ∧ dst m = vid

/-- An event that shows such messages and vertices. -/
def EventFlows (P : μ → Prop) (Q : VertexId → Vertex σ μ → Prop) : Event μ → Prop
  | .compute vid inbox => ∀ m ∈ inbox, P m ∧ dst m = vid
  | .finish boxes => ∀ b ∈ boxes, ∃ v, Q b.1 v ∧ v.outbox = b.2
  | _ => True

section Staged

variable {P : Nat → μ → Prop} {Q : Nat → VertexId → Vertex σ μ → Prop} {compute : Compute σ μ}
  {ok : Vertex σ μ → Prop} {pmap : PartitionMap} {k : Superstep}

/-- From one superstep to the next. -/
theorem StagedFlows.next (rule : StagedRule compute ok P Q) {n : WorkerNode σ μ} {ph : Phase μ}
    (h : StagedFlows P Q k (n, ph)) : StagedFlows P Q (k + 1) (n, .ready) := by
  have hlater : ∀ m, P (k + sentIn ph) m → P (k + 1) m := by
    intro m hm
    cases ph with
    | flushed => exact hm
    | _ => exact rule.keepsMessages k m hm
  refine ⟨h.bus.mono hlater, fun vid m hm => ?_, fun vid v hv => ?_, fun vid v hv _ => ?_,
    fun _ _ _ hphase => by cases hphase⟩
  · obtain ⟨hmessage, hdst⟩ := h.inboxes vid m hm
    exact ⟨hlater m hmessage, hdst⟩
  · exact rule.keepsVertices (k + 1) vid v (h.vertices vid v hv)
  · exact h.vertices vid v hv

/-- The start of a superstep delivers messages and wakes vertices up. -/
theorem StagedFlows.start (rule : StagedRule compute ok P Q) {n : WorkerNode σ μ}
    (h : StagedFlows P Q k (n, .ready)) (timing : WorkerId → Nat) :
    StagedFlows P Q k
      ((n.receive timing).wake, .computing (n.receive timing).submitted) := by
  obtain ⟨hdrained, hbus⟩ :=
    MessageBus.within_drainInbox (MessageBus.within_network h.bus timing)
  -- a vertex that is woken up satisfies what it did before
  have hwoken : ∀ j vid v, (n.receive timing).wake.vertices.lookup vid = some v →
      (∀ u, n.vertices.lookup vid = some u → Q j vid u) → Q j vid v := by
    intro j vid v hv hbefore
    simp only [WorkerNode.wake, AList.lookup_mapVals, WorkerNode.receive_vertices,
      Option.map_eq_some_iff] at hv
    obtain ⟨u, hu, rfl⟩ := hv
    split
    · exact rule.wakes j vid u (hbefore u hu)
    · exact hbefore u hu
  refine ⟨hbus, fun vid m hm => ?_, fun vid v hv => ?_, fun vid v hv _ => ?_,
    fun ts vid inbox hphase hrunning => ?_⟩
  · rcases WorkerNode.mem_receive_inboxOf.mp hm with hold | ⟨hnew, hdst⟩
    · exact h.inboxes vid m hold
    · exact ⟨hdrained m hnew, hdst⟩
  · exact hwoken (k + 1) vid v hv (h.vertices vid)
  · exact hwoken k vid v hv fun u hu => h.pending vid u hu trivial
  · cases hphase
    simp only [WorkerNode.submitted, WorkerNode.queuedOn] at hrunning
    split at hrunning <;> cases hrunning

theorem StagedFlows.take {n : WorkerNode σ μ} {ts : VertexId → WorkerNode.TaskState μ}
    {vid : VertexId} (h : StagedFlows P Q k (n, .computing ts)) (queued : ts vid = .queued) :
    StagedFlows P Q k
      (n.eraseInbox vid, .computing (Function.update ts vid (.running (n.inboxOf vid)))) := by
  refine ⟨h.bus, fun x m hm => ?_, h.vertices, fun x v hv hpending => ?_,
    fun ts' x inbox hphase hrunning => ?_⟩
  · rcases eq_or_ne x vid with rfl | hx
    · simp [WorkerNode.inboxOf, WorkerNode.eraseInbox] at hm
    · simp only [WorkerNode.inboxOf, WorkerNode.eraseInbox, Function.update_of_ne hx] at hm
      exact h.inboxes x m hm
  · apply h.pending x v hv
    rcases eq_or_ne x vid with rfl | hx
    · simp [Pending, queued]
    · simpa [Pending, hx] using hpending
  · cases hphase
    rcases eq_or_ne x vid with rfl | hx
    · simp only [Function.update_self, WorkerNode.TaskState.running.injEq] at hrunning
      exact hrunning ▸ h.inboxes x
    · rw [Function.update_of_ne hx] at hrunning
      exact h.running ts x inbox rfl hrunning

/-- A task moves one vertex, and its messages, one stage on. -/
theorem StagedFlows.computed (rule : StagedRule compute ok P Q) {n : WorkerNode σ μ}
    {ts : VertexId → WorkerNode.TaskState μ} {vid : VertexId} {inbox : List μ}
    (h : StagedFlows P Q k (n, .computing ts)) (running : ts vid = .running inbox)
    (checked : ∀ v, (n.runCompute compute k vid inbox).vertices.lookup vid = some v → ok v) :
    StagedFlows P Q k
      (n.runCompute compute k vid inbox, .computing (Function.update ts vid .none)) := by
  refine ⟨h.bus, h.inboxes, fun x v hv => ?_, fun x v hv hpending => ?_,
    fun ts' x inbox' hphase hrunning => ?_⟩
  · have hchecked := checked v
    simp only [WorkerNode.runCompute, AList.lookup_mapVals, Option.map_eq_some_iff] at hv hchecked
    obtain ⟨u, hu, rfl⟩ := hv
    split
    next hx =>
      subst hx
      rw [if_pos rfl] at hchecked
      exact rule.computes k x u inbox (h.pending x u hu (by simp [Pending, running]))
        (h.running ts x inbox rfl running) (hchecked ⟨u, hu, if_pos trivial⟩)
    · exact h.vertices x u hu
  · rcases eq_or_ne x vid with rfl | hx
    · simp [Pending] at hpending
    · simp only [WorkerNode.runCompute, AList.lookup_mapVals, Option.map_eq_some_iff,
        if_neg hx] at hv
      obtain ⟨u, hu, rfl⟩ := hv
      exact h.pending x u hu (by simpa [Pending, hx] using hpending)
  · cases hphase
    rcases eq_or_ne x vid with rfl | hx
    · simp at hrunning
    · rw [Function.update_of_ne hx] at hrunning
      exact h.running ts x inbox' rfl hrunning

theorem StagedFlows.finish (rule : StagedRule compute ok P Q) (pmap : PartitionMap)
    {n : WorkerNode σ μ} {ts : VertexId → WorkerNode.TaskState μ}
    (h : StagedFlows P Q k (n, .computing ts)) :
    StagedFlows P Q k (n.finish pmap, .flushed) := by
  have hmessages : ∀ m ∈ n.collectedMessages, P (k + 1) m := by
    intro m hm
    obtain ⟨b, hb, hm⟩ := List.mem_flatMap.mp hm
    obtain ⟨⟨vid, v⟩, hentry, rfl⟩ := List.mem_map.mp hb
    exact rule.sends (k + 1) vid v (h.vertices vid v (AList.lookup_eq_some_iff.mpr hentry)) m hm
  have hbus : n.bus.Within (P (k + 1)) := h.bus.mono (rule.keepsMessages k)
  rw [WorkerNode.finish_eq]
  refine ⟨MessageBus.within_flush (MessageBus.within_enqueueBatch hbus hmessages),
    fun vid m hm => ?_, fun vid v hv => ?_, fun _ _ _ hpending => hpending.elim,
    fun _ _ _ hphase => by cases hphase⟩
  · obtain ⟨hmessage, hdst⟩ := h.inboxes vid m hm
    exact ⟨rule.keepsMessages k m hmessage, hdst⟩
  · simp only [AList.lookup_mapVals, Option.map_eq_some_iff] at hv
    obtain ⟨u, hu, rfl⟩ := hv
    exact rule.collected (k + 1) vid u (h.vertices vid u hu)

/-- **A step of a worker keeps to the rule.** -/
theorem staged_step (rule : StagedRule compute ok P Q) {timing : WorkerId → Nat}
    {s t : WorkerNode σ μ × Phase μ} {l : Event μ} (h : StagedFlows P Q k s)
    (hstep : WorkerNode.Step pmap compute k timing s l t)
    (checked : ∀ vid inbox v, l = .compute vid inbox → t.1.vertices.lookup vid = some v → ok v) :
    StagedFlows P Q k t := by
  cases hstep with
  | start nodes => exact h.start rule timing
  | take queued => exact h.take queued
  | compute running => exact h.computed rule running fun v => checked _ _ v rfl
  | finish joined => exact h.finish rule pmap

end Staged

variable {P : μ → Prop} {Q : VertexId → Vertex σ μ → Prop} {compute : Compute σ μ}
  {ok : Vertex σ μ → Prop} {pmap : PartitionMap} {step : Superstep}

theorem FlowRule.staged (rule : FlowRule compute ok P Q) :
    StagedRule compute ok (fun _ => P) (fun _ => Q) where
  keepsMessages _ _ hm := hm
  keepsVertices _ _ _ hv := hv
  sends _ := rule.sends
  wakes _ := rule.wakes
  collected _ := rule.collected
  computes k vid v inbox := rule.computes vid v inbox k

theorem flows_iff_staged (k : Nat) {s : WorkerNode σ μ × Phase μ} :
    Flows P Q s ↔ StagedFlows (fun _ => P) (fun _ => Q) k s :=
  ⟨fun h => ⟨h.bus, h.inboxes, h.vertices, fun vid v hv _ => h.vertices vid v hv, h.running⟩,
    fun h => ⟨h.bus, h.inboxes, h.vertices, h.running⟩⟩

theorem Flows.ready {n : WorkerNode σ μ} {ph : Phase μ} (h : Flows P Q (n, ph)) :
    Flows P Q (n, .ready) where
  bus := h.bus
  inboxes := h.inboxes
  vertices := h.vertices
  running _ _ _ hphase := by cases hphase

theorem flows_step (rule : FlowRule compute ok P Q) {timing : WorkerId → Nat}
    {s t : WorkerNode σ μ × Phase μ} {l : Event μ} (h : Flows P Q s)
    (hstep : WorkerNode.Step pmap compute step timing s l t)
    (checked : ∀ vid inbox v, l = .compute vid inbox → t.1.vertices.lookup vid = some v → ok v) :
    Flows P Q t :=
  (flows_iff_staged step).mpr
    (staged_step rule.staged ((flows_iff_staged step).mp h) hstep checked)

/-- What a step of a worker shows. -/
theorem eventFlows_step {timing : WorkerId → Nat} {s t : WorkerNode σ μ × Phase μ} {l : Event μ}
    (h : Flows P Q s) (hstep : WorkerNode.Step pmap compute step timing s l t) :
    EventFlows P Q l := by
  cases hstep with
  | start => trivial
  | take => trivial
  | compute running => exact h.running _ _ _ rfl running
  | @finish n ts joined =>
      intro b hb
      obtain ⟨⟨vid, v⟩, hentry, rfl⟩ := List.mem_map.mp hb
      exact ⟨v, h.vertices vid v (AList.lookup_eq_some_iff.mpr hentry), rfl⟩

end Flow

namespace GraphEngine

variable {σ μ : Type} [Addressed μ] {P : μ → Prop} {Q : VertexId → Vertex σ μ → Prop}
  {compute : Compute σ μ} {ok : Vertex σ μ → Prop} {step : Superstep}
  {timing : WorkerId → WorkerId → Nat} {e e' : GraphEngine σ μ}

section Staged

variable {R : Nat → μ → Prop} {S : Nat → VertexId → Vertex σ μ → Prop}

/-- Somewhere in superstep `step`. -/
theorem staged_during (rule : StagedRule compute ok R S)
    (init : ∀ i, StagedFlows R S step (e.workers i, .ready)) {tr : List (WorkerId × Event μ)}
    {ws : WorkerId → WorkerNode σ μ × Phase μ}
    (run : Run (Interleave (e.CheckedStep ok compute step timing))
      (fun i => (e.workers i, .ready)) tr ws) : ∀ i, StagedFlows R S step (ws i) := by
  refine run.invariant (fun s => ∀ i, StagedFlows R S step (s i)) ?_ init
  rintro s l t h ⟨x, ⟨hstep, checked⟩, rfl⟩ i
  rcases eq_or_ne i l.1 with rfl | hne
  · rw [Function.update_self]
    exact staged_step rule (h _) hstep.2 checked
  · rw [Function.update_of_ne hne]
    exact h i

/-- **After `k` supersteps.** -/
theorem CheckedExecution.staged (rule : StagedRule compute ok R S)
    (init : ∀ i, StagedFlows R S 0 (e.workers i, .ready))
    {trs : List (List (WorkerId × Event μ))} {k : Nat}
    (exec : CheckedExecution ok compute e trs k e') :
    ∀ i, StagedFlows R S k (e'.workers i, .ready) := by
  refine Run.invariant (fun s => ∀ i, StagedFlows R S s.1 (s.2.workers i, .ready)) ?_ exec init
  rintro ⟨k, e₁⟩ tr ⟨k', e₂⟩ h ⟨rfl, timing, ws, run, -, rfl⟩ i
  exact (staged_during rule h run i).next rule

end Staged

/-- Somewhere in a superstep. -/
theorem flows_during (rule : FlowRule compute ok P Q)
    (init : ∀ i, Flows P Q (e.workers i, .ready)) {tr : List (WorkerId × Event μ)}
    {ws : WorkerId → WorkerNode σ μ × Phase μ}
    (run : Run (Interleave (e.CheckedStep ok compute step timing))
      (fun i => (e.workers i, .ready)) tr ws) :
    (∀ i, Flows P Q (ws i)) ∧ ∀ l ∈ tr, EventFlows P Q l.2 := by
  have hstep : ∀ (s : WorkerId → WorkerNode σ μ × Phase μ) l t, (∀ i, Flows P Q (s i)) →
      Interleave (e.CheckedStep ok compute step timing) s l t → ∀ i, Flows P Q (t i) := by
    rintro s l t h ⟨x, ⟨hstep, checked⟩, rfl⟩ i
    rcases eq_or_ne i l.1 with rfl | hne
    · rw [Function.update_self]
      exact flows_step rule (h _) hstep.2 checked
    · rw [Function.update_of_ne hne]
      exact h i
  refine ⟨run.invariant (fun s => ∀ i, Flows P Q (s i)) hstep init,
    run.label_property (fun s => ∀ i, Flows P Q (s i)) hstep ?_ init⟩
  rintro s l t h ⟨x, ⟨hstep, -⟩, -⟩
  exact eventFlows_step (h _) hstep.2

/-- **After any number of supersteps.** -/
theorem CheckedExecution.flows (rule : FlowRule compute ok P Q)
    (init : ∀ i, Flows P Q (e.workers i, .ready)) {trs : List (List (WorkerId × Event μ))} {k : Nat}
    (exec : CheckedExecution ok compute e trs k e') :
    (∀ i, Flows P Q (e'.workers i, .ready)) ∧ ∀ tr ∈ trs, ∀ l ∈ tr, EventFlows P Q l.2 := by
  have hnext : ∀ s tr t, (∀ i, Flows P Q (s.2.workers i, .ready)) → NextChecked ok compute s tr t →
      (∀ i, Flows P Q (t.2.workers i, .ready)) ∧ ∀ l ∈ tr, EventFlows P Q l.2 := by
    rintro s tr ⟨k, e₂⟩ h ⟨-, timing, ws, run, -, rfl⟩
    obtain ⟨hflows, hevents⟩ := flows_during rule h run
    exact ⟨fun i => (hflows i).ready, hevents⟩
  exact ⟨Run.invariant (fun s => ∀ i, Flows P Q (s.2.workers i, .ready))
      (fun s tr t h hstep => (hnext s tr t h hstep).1) exec init,
    Run.label_property (fun s => ∀ i, Flows P Q (s.2.workers i, .ready))
      (fun s tr t h hstep => (hnext s tr t h hstep).1)
      (fun s tr t h hstep => (hnext s tr t h hstep).2) exec init⟩

end GraphEngine

end Pregel
