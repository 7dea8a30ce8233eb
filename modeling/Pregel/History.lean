import Pregel.Provenance
import Pregel.Outbox
import Pregel.OrderBook.Basic

/-!
A run of the engine, seen from one vertex.

A superstep calls `compute` of a vertex once or not at all. So a run feeds the vertex its
inboxes one after the other, and whatever holds of a vertex that is fed holds in the engine.
`wake_up` stands between two calls, and a program must not look at the halt flag for it.

* `inputsIn`, `inputsOf`: the inboxes of a vertex in a superstep and in a run.
* `superstep_vertex`: what a superstep does to a vertex.
* `mail`, `compute_iff_delivered`, `superstep_loaded`: when a vertex computes, and on what.
* `received_of_execution`: what a vertex has received over a run.
* `HaltBlind`, `Fed`, `feed_of_execution`: the state of a vertex after a run and all that it
  has sent, for programs that do not look at the halt flag.
-/

namespace Pregel

open Lts
open WorkerNode (Phase Event)

/-! ### The inboxes of a vertex -/

section Inputs

variable {μ : Type}

/-- The inboxes on which vertex `vid` computes in superstep `k` with this trace. -/
def inputsIn (vid : VertexId) (k : Superstep) (tr : List (WorkerId × Event μ)) :
    List (List μ × Superstep) :=
  ((WorkerNode.calls (tr.map Prod.snd)).filter fun c => c.1 = vid).map fun c => (c.2, k)

/-- The inboxes on which vertex `vid` computes in supersteps `0, 1, ..` with these traces. -/
def inputsOf (vid : VertexId) (trs : List (List (WorkerId × Event μ))) :
    List (List μ × Superstep) :=
  trs.zipIdx.flatMap fun s => inputsIn vid s.2 s.1

@[simp] theorem inputsOf_nil (vid : VertexId) :
    inputsOf vid ([] : List (List (WorkerId × Event μ))) = [] := rfl

theorem inputsOf_concat (vid : VertexId) (trs : List (List (WorkerId × Event μ)))
    (tr : List (WorkerId × Event μ)) :
    inputsOf vid (trs ++ [tr]) = inputsOf vid trs ++ inputsIn vid trs.length tr := by
  simp [inputsOf, List.zipIdx_append]

theorem mem_inputsIn {vid : VertexId} {k : Superstep} {tr : List (WorkerId × Event μ)}
    {input : List μ × Superstep} :
    input ∈ inputsIn vid k tr ↔ input.2 = k ∧ ∃ i, (i, Event.compute vid input.1) ∈ tr := by
  simp only [inputsIn, WorkerNode.calls, List.mem_map, List.mem_filter, List.mem_filterMap,
    decide_eq_true_eq]
  constructor
  · rintro ⟨c, ⟨⟨l, ⟨⟨i, l'⟩, hl, rfl⟩, hcall⟩, rfl⟩, rfl⟩
    cases l' with
    | compute => cases hcall; exact ⟨rfl, i, hl⟩
    | _ => cases hcall
  · rintro ⟨rfl, i, hl⟩
    exact ⟨(vid, input.1), ⟨⟨_, ⟨_, hl, rfl⟩, rfl⟩, rfl⟩, rfl⟩

theorem inputsOf_lt {vid : VertexId} {trs : List (List (WorkerId × Event μ))} :
    ∀ input ∈ inputsOf vid trs, input.2 < trs.length := by
  intro input hinput
  obtain ⟨⟨tr, s⟩, hs, hmem⟩ := List.mem_flatMap.mp hinput
  rw [(mem_inputsIn.mp hmem).1]
  have hlt := List.snd_lt_of_mem_zipIdx hs
  simpa using hlt

/-- The events of one worker are enough, if no other worker has the vertex. -/
theorem inputsIn_of_labelsOf {vid : VertexId} {i : WorkerId} (k : Superstep)
    {tr : List (WorkerId × Event μ)}
    (other : ∀ j, j ≠ i → ∀ inbox, (j, Event.compute vid inbox) ∉ tr) :
    inputsIn vid k tr =
      ((WorkerNode.calls (labelsOf i tr)).filter fun c => c.1 = vid).map fun c => (c.2, k) := by
  set f : Event μ → List (VertexId × List μ) := fun l =>
    (WorkerNode.calls [l]).filter fun c => c.1 = vid
  have hcalls : ∀ ls : List (Event μ),
      (WorkerNode.calls ls).filter (fun c => c.1 = vid) = ls.flatMap f := by
    intro ls
    induction ls with
    | nil => rfl
    | cons l ls ih =>
        rw [List.flatMap_cons, ← ih, ← List.filter_append, WorkerNode.calls, WorkerNode.calls,
          WorkerNode.calls, ← List.filterMap_append, List.singleton_append]
  have hother : ∀ j, j ≠ i → (labelsOf j tr).flatMap f = [] := by
    intro j hne
    apply List.flatMap_eq_nil_iff.mpr
    intro l hl
    apply List.filter_eq_nil_iff.mpr
    intro c hc hid
    cases l with
    | compute x inbox =>
        obtain rfl := List.mem_singleton.mp hc
        obtain rfl : x = vid := of_decide_eq_true hid
        exact other j hne inbox (mem_labelsOf.mp hl)
    | _ => cases hc
  rw [inputsIn, hcalls, hcalls, List.flatMap_map, flatMap_of_labelsOf hother]

end Inputs

namespace GraphEngine

variable {σ μ : Type} [Addressed μ] {compute : Compute σ μ}

/-! ### A superstep -/

section Superstep

variable {k : Superstep} {timing : WorkerId → WorkerId → Nat} {e e' : GraphEngine σ μ}
  {tr : List (WorkerId × Event μ)}

/-- A worker computes its own vertices only. -/
theorem mem_of_compute (run : SuperstepRun compute k timing e tr e') {i : WorkerId}
    {vid : VertexId} {inbox : List μ} (hmem : (i, Event.compute vid inbox) ∈ tr) :
    vid ∈ (e.workers i).vertices := by
  obtain ⟨htask, -⟩ := (mem_compute_iff run (label_inRange run hmem)).mp hmem
  obtain ⟨v, hv, -⟩ := WorkerNode.mem_taskIds.mp htask
  rw [WorkerNode.receive_vertices] at hv
  exact AList.lookup_isSome.mp (by simp [hv])

/-- The inboxes of a vertex in a superstep: one, if the vertex has a task. -/
theorem inputsIn_of_run (run : SuperstepRun compute k timing e tr e') {i : WorkerId}
    {vid : VertexId} (own : ∀ j, vid ∈ (e.workers j).vertices → j = i)
    (hi : i < e.config.workerCount) :
    inputsIn vid k tr =
      if vid ∈ ((e.workers i).receive (timing i)).taskIds then
        [(((e.workers i).receive (timing i)).inboxOf vid, k)]
      else [] := by
  have hother : ∀ j, j ≠ i → ∀ inbox, (j, Event.compute vid inbox) ∉ tr :=
    fun j hne inbox hmem => hne (own j (mem_of_compute run hmem))
  set n := (e.workers i).receive (timing i)
  have hperm := (WorkerNode.calls_of_run (worker_run run hi)).filter fun c => c.1 = vid
  have htasks : (n.taskIds.map fun x => (x, n.inboxOf x)).filter (fun c => c.1 = vid) =
      if vid ∈ n.taskIds then [(vid, n.inboxOf vid)] else [] := by
    rw [List.filter_map]
    have hsame : (fun c : VertexId × List μ => decide (c.1 = vid)) ∘
        (fun x => (x, n.inboxOf x)) = fun x => decide (x = vid) := rfl
    rw [hsame, List.filter_eq, (WorkerNode.nodup_taskIds n).count]
    split <;> rfl
  rw [htasks] at hperm
  rw [inputsIn_of_labelsOf k hother]
  split
  · next htask =>
      rw [if_pos htask] at hperm
      rw [List.perm_singleton.mp hperm]
      rfl
  · next htask =>
      rw [if_neg htask] at hperm
      rw [hperm.eq_nil]
      rfl

/-- What a worker collects from a vertex in a superstep. -/
theorem collectedFrom_of_run (run : SuperstepRun compute k timing e tr e') {i : WorkerId}
    (hi : i < e.config.workerCount) (vid : VertexId) :
    (labelsOf i tr).flatMap (collectedFrom vid) =
      ((e.workers i).computed compute k (timing i)).outboxOf vid := by
  have hlabels : ∀ ls : List (Event μ), ls.flatMap (collectedFrom vid) =
      (WorkerNode.collected ls).flatMap fun boxes => collectedFrom vid (.finish boxes) := by
    intro ls
    induction ls with
    | nil => rfl
    | cons l ls ih => cases l <;> simp [WorkerNode.collected, collectedFrom, ih]
  rw [hlabels, WorkerNode.collected_of_run (worker_run run hi)]
  simp [collectedFrom_outboxes]

/-- It is collected by the worker that has the vertex. -/
theorem sentBy_of_run (run : SuperstepRun compute k timing e tr e') {i : WorkerId}
    {vid : VertexId} (own : ∀ j, vid ∈ (e.workers j).vertices → j = i) :
    sentBy vid tr = (labelsOf i tr).flatMap (collectedFrom vid) := by
  apply flatMap_of_labelsOf
  intro j hne
  by_cases hj : j < e.config.workerCount
  · rw [collectedFrom_of_run run hj]
    apply outboxOf_of_notMem
    rw [WorkerNode.computed_vertices, AList.mem_mapVals]
    exact fun hmem => hne (own j hmem)
  · rw [labelsOf_idle run hj]
    rfl

/-- **What a superstep does to a vertex**: nothing, or one call of `compute` on the woken
vertex, after which its outbox is collected. -/
theorem superstep_vertex (run : SuperstepRun compute k timing e tr e') {i : WorkerId}
    {vid : VertexId} (own : ∀ j, vid ∈ (e.workers j).vertices → j = i) {v : Vertex σ μ}
    (hv : (e.workers i).vertices.lookup vid = some v) (empty : v.outbox = []) :
    (inputsIn vid k tr = [] ∧ sentBy vid tr = [] ∧
      (e'.workers i).vertices.lookup vid = some v) ∨
    ∃ inbox, inputsIn vid k tr = [(inbox, k)] ∧
      sentBy vid tr = (compute v.wakeUp inbox k).outbox ∧
      (e'.workers i).vertices.lookup vid = some (compute v.wakeUp inbox k).clearOutbox := by
  by_cases hi : i < e.config.workerCount
  · set n := (e.workers i).receive (timing i)
    have hcomputed : ((e.workers i).computed compute k (timing i)).vertices.lookup vid =
        some (WorkerNode.advance compute k (n.vertexInbox vid) v) := by
      rw [WorkerNode.computed_vertices, AList.lookup_mapVals, hv]
      rfl
    have hafter : (e'.workers i).vertices.lookup vid =
        some (WorkerNode.advance compute k (n.vertexInbox vid) v).clearOutbox := by
      rw [WorkerNode.run_eq_runSuperstep (worker_run run hi), WorkerNode.runSuperstep_vertices,
        AList.lookup_mapVals, hcomputed]
      rfl
    have htask := WorkerNode.mem_taskIds_of_lookup (n := n) hv
    rw [inputsIn_of_run run own hi, sentBy_of_run run own, collectedFrom_of_run run hi,
      outboxOf_of_lookup hcomputed, hafter, WorkerNode.advance]
    cases hskip : n.skips vid v with
    | true =>
        left
        rw [if_neg (by rw [htask, hskip]; exact Bool.noConfusion)]
        rw [WorkerNode.skips] at hskip
        rw [if_pos hskip, Vertex.clearOutbox_of_nil empty]
        exact ⟨rfl, empty, rfl⟩
    | false =>
        right
        rw [if_pos (htask.mpr hskip)]
        rw [WorkerNode.skips, ← Bool.not_eq_true] at hskip
        rw [if_neg hskip]
        exact ⟨_, rfl, rfl, rfl⟩
  · -- a worker that does not exist does nothing
    left
    refine ⟨?_, ?_, ?_⟩
    · apply List.eq_nil_iff_forall_not_mem.mpr
      intro input hinput
      obtain ⟨-, j, hmem⟩ := mem_inputsIn.mp hinput
      obtain rfl := own j (mem_of_compute run hmem)
      exact hi (label_inRange run hmem)
    · rw [sentBy_of_run run own, labelsOf_idle run hi]
      rfl
    · obtain ⟨ws, during, -, rfl⟩ := run
      change (ws i).1.vertices.lookup vid = some v
      rw [idle_during during hi]
      exact hv

end Superstep

/-! ### A run -/

section Received

variable {config : EngineConfig} {vertices : List (Vertex σ μ)}
  {trs : List (List (WorkerId × Event μ))} {k : Nat} {e e₁ e₂ : GraphEngine σ μ}
  {timing timing' : WorkerId → WorkerId → Nat} {tr tr' : List (WorkerId × Event μ)}
  {i : WorkerId} {vid : VertexId}

omit [Addressed μ] in
theorem own_load (hvid : vid ∈ ((load config vertices).workers i).vertices) :
    ∀ j, vid ∈ ((load config vertices).workers j).vertices → j = i := by
  intro j hmem
  rw [← ((mem_load _ _ _ _).mp hvid).1, ((mem_load _ _ _ _).mp hmem).1]

/-- What the vertices of a worker send to a vertex, sender by sender. -/
theorem sentTo_eq_flatMap (exec : Execution compute (load config vertices) trs k e)
    (run : SuperstepRun compute k timing e tr e₁) (hi : i < config.workerCount) :
    sentTo i vid tr =
      (e.workers i).vertices.keys.flatMap fun x => (sentBy x tr).filter fun m => dst m = vid := by
  have hi' : i < e.config.workerCount := by
    rwa [(execution_frame exec).1, load_config]
  set n := (e.workers i).computed compute k (timing i) with hn
  have hboxes : outboxesOf i tr = n.outboxes := by
    rw [outboxesOf, WorkerNode.collected_of_run (worker_run run hi')]
    exact List.flatten_singleton
  have hsent : ∀ x ∈ (e.workers i).vertices.keys, sentBy x tr = n.outboxOf x := by
    intro x hx
    have hload := (mem_execution exec).mp (AList.mem_keys.mpr hx)
    rw [sentBy_of_run run fun j hj => own_load hload j ((mem_execution exec).mp hj),
      collectedFrom_of_run run hi']
  have hkeys : (e.workers i).vertices.keys = n.vertices.entries.map Sigma.fst := by
    rw [hn, WorkerNode.computed_vertices]
    exact (AList.keys_mapVals _ _).symm
  have hbox : ∀ a ∈ n.vertices.entries, a.2.outbox = sentBy a.1 tr := by
    intro a ha
    have hx : a.1 ∈ (e.workers i).vertices.keys := hkeys ▸ List.mem_map_of_mem ha
    rw [hsent a.1 hx, outboxOf_of_lookup (AList.lookup_eq_some_iff.mpr ha)]
  rw [sentTo, hboxes, WorkerNode.outboxes, List.flatMap_map, List.filter_flatMap, hkeys,
    List.flatMap_map]
  exact List.flatMap_congr fun a ha => congrArg _ (hbox a ha)

/-- In the first superstep a vertex gets nothing. -/
theorem received_first (run : SuperstepRun compute 0 timing (load config vertices) tr e₁) :
    Vertex.received (inputsIn vid 0 tr) = [] := by
  apply List.flatMap_eq_nil_iff.mpr
  intro input hinput
  obtain ⟨-, j, hmem⟩ := mem_inputsIn.mp hinput
  have hj : j < config.workerCount := by
    have hlt := label_inRange run hmem
    rwa [load_config] at hlt
  exact ((compute_first_iff run hj vid input.1).mp hmem).2

/-- In the next one it gets what was sent to it. -/
theorem received_next (exec : Execution compute (load config vertices) trs k e)
    (run : SuperstepRun compute k timing e tr e₁)
    (next : SuperstepRun compute (k + 1) timing' e₁ tr' e₂) (hi : i < config.workerCount)
    (hvid : vid ∈ ((load config vertices).workers i).vertices) :
    Vertex.received (inputsIn vid (k + 1) tr') = sentTo i vid tr := by
  have hexec := exec.next run
  have hconfig : e₁.config = config := by rw [(execution_frame hexec).1, load_config]
  have hmem : vid ∈ (e₁.workers i).vertices := (mem_execution hexec).mpr hvid
  have hown : ∀ j, vid ∈ (e₁.workers j).vertices → j = i :=
    fun j hj => own_load hvid j ((mem_execution hexec).mp hj)
  obtain ⟨v, hv⟩ := AList.exists_lookup_of_mem hmem
  have hcompute := compute_next_iff exec run next hi vid
  rw [inputsIn_of_run next hown (hconfig ▸ hi)]
  split
  · next htask =>
      obtain ⟨-, hinbox⟩ :=
        (hcompute _).mp ((mem_compute_iff next (hconfig ▸ hi)).mpr ⟨htask, rfl⟩)
      rw [Vertex.received_cons, Vertex.received_nil, List.append_nil, hinbox]
  · next htask =>
      -- a vertex without a task was sent nothing
      by_contra hsent
      obtain ⟨htask', -⟩ := (mem_compute_iff next (hconfig ▸ hi)).mp
        ((hcompute _).mpr ⟨⟨v, hv, Or.inr fun h => hsent h.symm⟩, rfl⟩)
      exact htask htask'

/-- What is delivered to a vertex of worker `i` after the supersteps `trs`. -/
def mail (i : WorkerId) (vid : VertexId) (trs : List (List (WorkerId × Event μ))) : List μ :=
  (trs.getLast?.map (sentTo i vid)).getD []

/-- A vertex computes if it is not halted or has mail, and on its mail. -/
theorem compute_iff_mail (exec : Execution compute (load config vertices) trs k e)
    (run : SuperstepRun compute k timing e tr e₁) (hi : i < config.workerCount) (vid : VertexId)
    (inbox : List μ) :
    (i, Event.compute vid inbox) ∈ tr ↔
      (∃ v, (e.workers i).vertices.lookup vid = some v ∧
        (v.halted = false ∨ mail i vid trs ≠ [])) ∧ inbox = mail i vid trs := by
  cases k with
  | zero =>
      obtain rfl := exec.eq_of_zero
      obtain rfl := List.eq_nil_of_length_eq_zero exec.length_eq
      rw [compute_first_iff run hi]
      simp [mail]
  | succ k =>
      obtain ⟨trs', last, timing', e₀, rfl, exec', previous⟩ := exec.exists_last
      rw [compute_next_iff exec' previous run hi]
      simp [mail]

/-- **What was sent is what is delivered.** In every superstep of every run of a loaded graph,
vertex `vid` of worker `i` computes if and only if it is not halted or a vertex of the same
worker sent it something in the superstep before; and its inbox is what they sent it, all of it
and nothing else, in the order in which it was collected. -/
theorem compute_iff_delivered (exec : Execution compute (load config vertices) trs k e)
    (hi : i < config.workerCount) {s : Nat} {tr : List (WorkerId × Event μ)}
    (hs : trs[s]? = some tr) :
    ∃ e₁, Execution compute (load config vertices) (trs.take s) s e₁ ∧ ∀ vid inbox,
      (i, Event.compute vid inbox) ∈ tr ↔
        (∃ v, (e₁.workers i).vertices.lookup vid = some v ∧
          (v.halted = false ∨ mail i vid (trs.take s) ≠ [])) ∧
        inbox = mail i vid (trs.take s) := by
  obtain ⟨timing, e₁, e₂, before, run, -⟩ := exec.exists_superstep hs
  exact ⟨e₁, before, compute_iff_mail before run hi⟩

/-- Two vertices on one worker. In superstep 1 vertex 0 computes on what vertex 1 has sent it. -/
theorem compute_iff_delivered_pair : ∃ tr tr' e e₁,
    Execution pingPong (pair { workerCount := 1 }) [tr, tr'] 2 e ∧
      Execution pingPong (pair { workerCount := 1 }) [tr] 1 e₁ ∧
      ∀ inbox, (0, Event.compute 0 inbox) ∈ tr' ↔
        (∃ v, (e₁.workers 0).vertices.lookup 0 = some v ∧
          (v.halted = false ∨ sentTo 0 0 tr ≠ [])) ∧ inbox = sentTo 0 0 tr := by
  have nodes : ∀ i < (pair { workerCount := 1 }).config.workerCount,
      0 < ((pair { workerCount := 1 }).workers i).config.numaNodes :=
    fun i _ => load_nodes Nat.two_pos _ i
  obtain ⟨tr, run⟩ := superstepRun_supersteps pingPong (fun _ _ _ => 0) nodes 0
  obtain ⟨tr', next⟩ := superstepRun_supersteps pingPong (fun _ _ _ => 0) nodes 1
  have start : Execution pingPong (pair { workerCount := 1 }) [] 0 (pair { workerCount := 1 }) :=
    .nil _
  have exec := (start.next run).next next
  obtain ⟨e₁, before, hiff⟩ := compute_iff_delivered exec Nat.one_pos (s := 1) rfl
  exact ⟨tr, tr', _, e₁, exec, before, hiff 0⟩

/-- **One superstep of one vertex of a loaded graph.** It computes on its mail if it is not
halted or has some, and else it sleeps. -/
theorem superstep_loaded (exec : Execution compute (load config vertices) trs k e)
    (run : SuperstepRun compute k timing e tr e₁) (hi : i < config.workerCount)
    (hvid : vid ∈ ((load config vertices).workers i).vertices) {v : Vertex σ μ}
    (hv : (e.workers i).vertices.lookup vid = some v) (empty : v.outbox = []) :
    ((v.halted = true ∧ mail i vid trs = []) ∧ inputsIn vid k tr = [] ∧ sentBy vid tr = [] ∧
      (e₁.workers i).vertices.lookup vid = some v) ∨
    ((v.halted = false ∨ mail i vid trs ≠ []) ∧ inputsIn vid k tr = [(mail i vid trs, k)] ∧
      sentBy vid tr = (compute v.wakeUp (mail i vid trs) k).outbox ∧
      (e₁.workers i).vertices.lookup vid =
        some (compute v.wakeUp (mail i vid trs) k).clearOutbox) := by
  have hown : ∀ j, vid ∈ (e.workers j).vertices → j = i :=
    fun j hj => own_load hvid j ((mem_execution exec).mp hj)
  have hcompute : ∀ inbox, (i, Event.compute vid inbox) ∈ tr ↔
      (v.halted = false ∨ mail i vid trs ≠ []) ∧ inbox = mail i vid trs := by
    intro inbox
    rw [compute_iff_mail exec run hi, hv]
    simp
  rcases superstep_vertex run hown hv empty with ⟨hin, hsent, hafter⟩ | ⟨inbox, hin, hsent, hafter⟩
  · left
    have hnone : ¬ (v.halted = false ∨ mail i vid trs ≠ []) := by
      intro hactive
      have hmem : (mail i vid trs, k) ∈ inputsIn vid k tr :=
        mem_inputsIn.mpr ⟨rfl, i, (hcompute _).mpr ⟨hactive, rfl⟩⟩
      rw [hin] at hmem
      cases hmem
    rw [not_or, Bool.not_eq_false, not_not] at hnone
    exact ⟨hnone, hin, hsent, hafter⟩
  · right
    have hmem : (inbox, k) ∈ inputsIn vid k tr := by
      rw [hin]
      exact List.mem_singleton.mpr rfl
    obtain ⟨-, j, hcall⟩ := mem_inputsIn.mp hmem
    obtain rfl := hown j (mem_of_compute run hcall)
    obtain ⟨hactive, rfl⟩ := (hcompute inbox).mp hcall
    exact ⟨hactive, hin, hsent, hafter⟩

/-- **What a vertex has received over a run** is what was sent to it by the vertices of its
worker, in every superstep but the last one. -/
theorem received_of_execution (exec : Execution compute (load config vertices) trs k e)
    (hi : i < config.workerCount) (hvid : vid ∈ ((load config vertices).workers i).vertices) :
    Vertex.received (inputsOf vid trs) = trs.dropLast.flatMap (sentTo i vid) := by
  have happend : ∀ inputs inputs' : List (List μ × Superstep),
      Vertex.received (inputs ++ inputs') = Vertex.received inputs ++ Vertex.received inputs' :=
    fun _ _ => List.flatMap_append
  induction k generalizing trs e with
  | zero =>
      obtain rfl := List.eq_nil_of_length_eq_zero exec.length_eq
      rfl
  | succ k ih =>
      obtain ⟨trs', tr, timing, e₁, rfl, exec', run⟩ := exec.exists_last
      rw [inputsOf_concat, happend, ih exec', exec'.length_eq, List.dropLast_concat]
      cases k with
      | zero =>
          obtain rfl := exec'.eq_of_zero
          obtain rfl := List.eq_nil_of_length_eq_zero exec'.length_eq
          rw [received_first run]
          rfl
      | succ k =>
          obtain ⟨trs'', tr', timing', e₂, rfl, exec'', run'⟩ := exec'.exists_last
          rw [received_next exec'' run' run hi hvid, List.dropLast_concat, List.flatMap_append,
            List.flatMap_singleton]

end Received

/-- A program that does not look at the halt flag of its vertex. -/
def HaltBlind {σ μ : Type} (compute : Compute σ μ) : Prop :=
  ∀ v inbox k, (compute v.wakeUp inbox k).wakeUp = (compute v inbox k).wakeUp

section Feed

variable {v : Vertex σ μ} {i : WorkerId} {vid : VertexId} {e e' : GraphEngine σ μ}
  {trs : List (List (WorkerId × Event μ))} {k : Nat}

omit [Addressed μ] in
theorem HaltBlind.of_wakeUp (blind : HaltBlind compute) {v w : Vertex σ μ}
    (same : v.wakeUp = w.wakeUp) (inbox : List μ) (k : Superstep) :
    (compute v inbox k).wakeUp = (compute w inbox k).wakeUp := by
  rw [← blind v, same, blind w]

omit [Addressed μ] in
theorem feed_concat_outs (compute : Compute σ μ) (v : Vertex σ μ)
    (inputs : List (List μ × Superstep)) (inbox : List μ) (step : Superstep) :
    (v.feed compute (inputs ++ [(inbox, step)])).1 =
      (v.feed compute inputs).1 ++ [(compute (v.feed compute inputs).2 inbox step).outbox] := by
  induction inputs generalizing v with
  | nil => rfl
  | cons input inputs ih =>
      exact congrArg ((compute v input.1 input.2).outbox :: ·) (ih _)

/-- A vertex of a run and the inputs that it got: feeding them to the vertex that it was leads
to its state, and to what it has sent. -/
structure Fed (compute : Compute σ μ) (v : Vertex σ μ) (inputs : List (List μ × Superstep))
    (sent : List μ) (v' : Vertex σ μ) : Prop where
  state : v'.wakeUp = (v.feed compute inputs).2.wakeUp
  empty : v'.outbox = []
  sent : sent = (v.feed compute inputs).1.flatten
  /-- A superstep feeds it once at most. -/
  once : (inputs.map Prod.snd).Pairwise (· < ·)

omit [Addressed μ] in
/-- One more input. -/
theorem Fed.next (blind : HaltBlind compute) {inputs : List (List μ × Superstep)} {sent : List μ}
    {v' : Vertex σ μ} (fed : Fed compute v inputs sent v') {k : Superstep}
    (early : ∀ input ∈ inputs, input.2 < k) (inbox : List μ) :
    Fed compute v (inputs ++ [(inbox, k)]) (sent ++ (compute v'.wakeUp inbox k).outbox)
      (compute v'.wakeUp inbox k).clearOutbox := by
  have hsame := blind.of_wakeUp (v := v'.wakeUp) fed.state inbox k
  refine ⟨?_, rfl, ?_, ?_⟩
  · rw [Vertex.feed_concat]
    exact congrArg Vertex.clearOutbox hsame
  · have hout := congrArg Vertex.outbox hsame
    rw [Vertex.outbox_wakeUp, Vertex.outbox_wakeUp] at hout
    rw [feed_concat_outs, List.flatten_append, List.flatten_singleton, ← fed.sent, hout]
  · rw [List.map_append, List.pairwise_append]
    refine ⟨fed.once, List.pairwise_singleton _ _, ?_⟩
    intro a ha b hb
    obtain ⟨input, hinput, rfl⟩ := List.mem_map.mp ha
    rw [List.mem_singleton.mp hb]
    exact early input hinput

/-- Feeding a vertex the inboxes that it computed on, one by one, leads to the vertex of the
engine, up to the halt flag, and sends what was collected from it. -/
theorem Fed.of_execution (blind : HaltBlind compute) (exec : Execution compute e trs k e')
    (own : ∀ j, vid ∈ (e.workers j).vertices → j = i)
    (hv : (e.workers i).vertices.lookup vid = some v) (empty : v.outbox = []) :
    ∃ v', (e'.workers i).vertices.lookup vid = some v' ∧
      Fed compute v (inputsOf vid trs) (trs.flatMap (sentBy vid)) v' := by
  set Inv : List (List (WorkerId × Event μ)) → Superstep × GraphEngine σ μ → Prop := fun trs s =>
    s.1 = trs.length ∧ (∀ j, vid ∈ (s.2.workers j).vertices → j = i) ∧
      ∃ v', (s.2.workers i).vertices.lookup vid = some v' ∧
        Fed compute v (inputsOf vid trs) (trs.flatMap (sentBy vid)) v'
  have init : Inv [] (0, e) := ⟨rfl, own, v, hv, rfl, empty, rfl, .nil⟩
  have hstep : ∀ trs s tr t, Inv trs s → NextSuperstep compute s tr t → Inv (trs ++ [tr]) t := by
    rintro trs ⟨j, e₁⟩ tr ⟨j', e₂⟩ ⟨hj, own, v', hv', fed⟩ ⟨hnext, timing, run⟩
    obtain rfl : j = trs.length := hj
    have hown : ∀ j, vid ∈ (e₂.workers j).vertices → j = i := by
      obtain ⟨ws, during, -, rfl⟩ := run
      exact fun j hmem => own j ((mem_during during).mp hmem)
    refine ⟨by simpa using hnext, hown, ?_⟩
    rw [inputsOf_concat, List.flatMap_append, List.flatMap_singleton]
    rcases superstep_vertex run own hv' fed.empty with ⟨hin, hsent, hafter⟩ | ⟨inbox, hin, hsent, hafter⟩
    · rw [hin, hsent, List.append_nil, List.append_nil]
      exact ⟨v', hafter, fed⟩
    · rw [hin, hsent]
      exact ⟨_, hafter, fed.next blind inputsOf_lt inbox⟩
  obtain ⟨-, -, v', hv', fed⟩ := Run.invariant_history Inv hstep exec init
  exact ⟨v', hv', fed⟩

/-- **Every vertex runs as if it were alone.** Take any run of a loaded graph, of a program that
does not look at the halt flag, and a vertex of worker `i` with an empty outbox. The inboxes
that it computed on are, one after the other, what the vertices of its worker sent to it in all
supersteps but the last. Feeding them to the vertex, one by one, leads to the vertex of the
engine, up to the halt flag, and sends exactly what was collected from it. -/
theorem feed_of_execution {config : EngineConfig} {vertices : List (Vertex σ μ)}
    (blind : HaltBlind compute) (exec : Execution compute (load config vertices) trs k e')
    (hi : i < config.workerCount)
    (hv : ((load config vertices).workers i).vertices.lookup vid = some v) (empty : v.outbox = []) :
    Vertex.received (inputsOf vid trs) = trs.dropLast.flatMap (sentTo i vid) ∧
      ∃ v', (e'.workers i).vertices.lookup vid = some v' ∧
        Fed compute v (inputsOf vid trs) (trs.flatMap (sentBy vid)) v' := by
  have hvid : vid ∈ ((load config vertices).workers i).vertices :=
    AList.lookup_isSome.mp (by simp [hv])
  exact ⟨received_of_execution exec hi hvid, Fed.of_execution blind exec (own_load hvid) hv empty⟩

/-- The first of two vertices on one worker, after two supersteps. -/
theorem feed_of_execution_pair : ∃ trs e' v',
    Execution pingPong (pair { workerCount := 1 }) trs 2 e' ∧
      (e'.workers 0).vertices.lookup 0 = some v' ∧
      Fed pingPong ⟨0, .order, 0, false, [], [], 0⟩ (inputsOf 0 trs) (trs.flatMap (sentBy 0)) v' := by
  have nodes : ∀ i < (pair { workerCount := 1 }).config.workerCount,
      0 < ((pair { workerCount := 1 }).workers i).config.numaNodes :=
    fun i _ => load_nodes Nat.two_pos _ i
  obtain ⟨trs, exec⟩ := execution_supersteps pingPong (fun _ _ _ => 0) nodes 2
  have hv : ((load { workerCount := 1 } pairVertices).workers 0).vertices.lookup 0 =
      some (⟨0, .order, 0, false, [], [], 0⟩ : Vertex Nat Message) := rfl
  obtain ⟨-, v', hv', fed⟩ := feed_of_execution (fun _ _ _ => rfl) exec Nat.one_pos hv rfl
  exact ⟨trs, _, v', exec, hv', fed⟩

end Feed

end GraphEngine

end Pregel
