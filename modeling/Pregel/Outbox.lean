import Pregel.MessageFlow
import Pregel.Lib.Range

/-!
What a vertex sends in a superstep.

A vertex belongs to one worker, which calls its `compute` at most once in a superstep and
collects its outbox once, after that call. So what the vertex sends in a superstep is what
one call leaves in an empty outbox, or nothing.

* `sentBy`, `waiting`: what was collected from a vertex in a superstep, and what is still in
  its outbox.
* `OutboxRule`: what is to be shown of a program.
* `Sends`, `sends_step`: a worker somewhere in a superstep, and a step of it.
* `out_during`, `Execution.outbox`: all workers, somewhere in a superstep and after any number
  of supersteps.
* `out_sentLog`: what a vertex sends in each superstep of a run.
-/

namespace Pregel

open Lts
open WorkerNode (Phase Event)

section Outbox

variable {σ μ : Type}

/-- The messages that this event collects from vertex `vid`. -/
def collectedFrom (vid : VertexId) : Event μ → List μ
  | .finish boxes => (boxes.filter fun b => b.1 = vid).flatMap Prod.snd
  | _ => []

/-- The messages in the outbox of vertex `vid`, if it is on this worker. -/
def WorkerNode.outboxOf (n : WorkerNode σ μ) (vid : VertexId) : List μ :=
  ((n.vertices.lookup vid).map Vertex.outbox).getD []

/-- The messages collected from vertex `vid` in a superstep with this trace. -/
def sentBy (vid : VertexId) (tr : List (WorkerId × Event μ)) : List μ :=
  tr.flatMap fun l => collectedFrom vid l.2

/-- The messages that wait in the outbox of vertex `vid` on one of `W` workers. -/
def waiting (vid : VertexId) (W : Nat) (ws : WorkerId → WorkerNode σ μ × Phase μ) : List μ :=
  (List.range W).flatMap fun i => (ws i).1.outboxOf vid

/-- What vertex `vid` has sent, superstep by superstep: in those with the traces `trs`, and so
far in the one after them, in which the trace `tr` has led `W` workers to `ws`. -/
def sentLog (vid : VertexId) (W : Nat) (trs : List (List (WorkerId × Event μ)))
    (tr : List (WorkerId × Event μ)) (ws : WorkerId → WorkerNode σ μ × Phase μ) :
    List (List μ) :=
  trs.map (sentBy vid) ++ [sentBy vid tr ++ waiting vid W ws]

/-- What a program has to meet so that a vertex with its identifier satisfies `Q`, and that what
it sends in superstep `k` satisfies `Out k`. -/
structure OutboxRule (compute : Compute σ μ) (Q : VertexId → Vertex σ μ → Prop)
    (Out : Superstep → VertexId → List μ → Prop) : Prop where
  wakes : ∀ vid v, Q vid v → Q vid v.wakeUp
  collected : ∀ vid v, Q vid v → Q vid v.clearOutbox
  computes : ∀ vid v inbox k, Q vid v → Q vid (compute v inbox k)
  sends : ∀ vid v inbox k, Q vid v → v.outbox = [] → Out k vid (compute v inbox k).outbox
  silent : ∀ vid k, Out k vid []

/-! ### One worker -/

/-- A worker between supersteps: nothing is in an outbox. -/
structure Rested (Q : VertexId → Vertex σ μ → Prop) (n : WorkerNode σ μ) : Prop where
  vertices : ∀ vid v, n.vertices.lookup vid = some v → Q vid v
  empty : ∀ vid, n.outboxOf vid = []

/-- A worker somewhere in superstep `k`, after the events `ls` of this superstep. -/
structure Sends (Q : VertexId → Vertex σ μ → Prop) (Out : Superstep → VertexId → List μ → Prop)
    (k : Superstep) (ls : List (Event μ)) (s : WorkerNode σ μ × Phase μ) : Prop where
  vertices : ∀ vid v, s.1.vertices.lookup vid = some v → Q vid v
  out : ∀ vid, Out k vid (ls.flatMap (collectedFrom vid) ++ s.1.outboxOf vid)
  uncollected : s.2 ≠ .flushed → ∀ vid, ls.flatMap (collectedFrom vid) = []
  empty : ∀ vid, Pending s.2 vid ∨ s.2 = .flushed → s.1.outboxOf vid = []
  own : ∀ vid, vid ∉ s.1.vertices → ls.flatMap (collectedFrom vid) = []

section Worker

variable {Q : VertexId → Vertex σ μ → Prop} {Out : Superstep → VertexId → List μ → Prop}
  {compute : Compute σ μ} {k : Superstep} {n : WorkerNode σ μ} {ls : List (Event μ)}
  {vid : VertexId} {ts : VertexId → WorkerNode.TaskState μ}

theorem outboxOf_of_lookup {v : Vertex σ μ} (hv : n.vertices.lookup vid = some v) :
    n.outboxOf vid = v.outbox := by
  simp [WorkerNode.outboxOf, hv]

theorem outboxOf_of_notMem (hnot : vid ∉ n.vertices) : n.outboxOf vid = [] := by
  simp [WorkerNode.outboxOf, AList.lookup_eq_none.mpr hnot]

/-- The outboxes are collected one by one. -/
theorem collectedFrom_outboxes (n : WorkerNode σ μ) (vid : VertexId) :
    collectedFrom vid (.finish n.outboxes) = n.outboxOf vid := by
  have hnone : ∀ es : List (Sigma fun _ : VertexId => Vertex σ μ), vid ∉ es.map Sigma.fst →
      ((es.map fun e => (e.1, e.2.outbox)).filter fun b => b.1 = vid) = [] := by
    intro es hnot
    apply List.filter_eq_nil_iff.mpr
    intro b hb hid
    apply hnot
    obtain ⟨e, he, rfl⟩ := List.mem_map.mp hb
    exact List.mem_map.mpr ⟨e, he, of_decide_eq_true hid⟩
  have hone : ∀ es : List (Sigma fun _ : VertexId => Vertex σ μ), (es.map Sigma.fst).Nodup →
      (((es.map fun e => (e.1, e.2.outbox)).filter fun b => b.1 = vid).flatMap Prod.snd) =
        ((es.dlookup vid).map Vertex.outbox).getD [] := by
    intro es hnodup
    induction es with
    | nil => rfl
    | cons e es ih =>
        obtain ⟨hnot, hrest⟩ := List.nodup_cons.mp hnodup
        obtain ⟨k, v⟩ := e
        rcases eq_or_ne k vid with rfl | hne
        · simp [hnone es hnot]
        · rw [List.map_cons, List.filter_cons_of_neg (by simpa using hne), ih hrest,
            List.dlookup_cons_ne es ⟨k, v⟩ hne.symm]
  exact hone n.vertices.entries n.vertices.nodupKeys

theorem outboxOf_runCompute (n : WorkerNode σ μ) (vid : VertexId) (inbox : List μ) (x : VertexId) :
    (n.runCompute compute k vid inbox).outboxOf x =
      ((n.vertices.lookup x).map fun v =>
        (if x = vid then compute v inbox k else v).outbox).getD [] := by
  unfold WorkerNode.outboxOf
  rw [WorkerNode.runCompute, AList.lookup_mapVals, Option.map_map]
  rfl

theorem Rested.sends (rule : OutboxRule compute Q Out) (h : Rested Q n) (k : Superstep) :
    Sends Q Out k [] (n, .ready) where
  vertices := h.vertices
  out vid := by
    rw [h.empty vid]
    exact rule.silent vid k
  uncollected _ _ := rfl
  empty vid _ := h.empty vid
  own _ _ := rfl

/-- What has not been collected is in the outboxes. -/
theorem Sends.out_outboxOf {s : WorkerNode σ μ × Phase μ} (h : Sends Q Out k ls s)
    (unflushed : s.2 ≠ .flushed) (vid : VertexId) : Out k vid (s.1.outboxOf vid) := by
  have hout := h.out vid
  rwa [h.uncollected unflushed vid, List.nil_append] at hout

/-- What is left to show of a step that collects nothing. -/
theorem Sends.of_quiet {s t : WorkerNode σ μ × Phase μ} {l : Event μ} (h : Sends Q Out k ls s)
    (unflushed : s.2 ≠ .flushed) (quiet : ∀ vid, collectedFrom vid l = [])
    (vertices : ∀ vid v, t.1.vertices.lookup vid = some v → Q vid v)
    (out : ∀ vid, Out k vid (t.1.outboxOf vid))
    (empty : ∀ vid, Pending t.2 vid ∨ t.2 = .flushed → t.1.outboxOf vid = []) :
    Sends Q Out k (ls ++ [l]) t := by
  have hnothing : ∀ vid, (ls ++ [l]).flatMap (collectedFrom vid) = [] := by
    intro vid
    rw [List.flatMap_append, List.flatMap_singleton, quiet, List.append_nil]
    exact h.uncollected unflushed vid
  refine ⟨vertices, fun vid => ?_, fun _ => hnothing, empty, fun vid _ => hnothing vid⟩
  rw [hnothing, List.nil_append]
  exact out vid

theorem Sends.take (h : Sends Q Out k ls (n, .computing ts)) (queued : ts vid = .queued) :
    Sends Q Out k (ls ++ [.take vid])
      (n.eraseInbox vid, .computing (Function.update ts vid (.running (n.inboxOf vid)))) := by
  have hunflushed : (Phase.computing ts : Phase μ) ≠ .flushed := by simp
  refine h.of_quiet hunflushed (fun _ => rfl) h.vertices (h.out_outboxOf hunflushed) fun x hx => ?_
  apply h.empty x
  left
  rcases eq_or_ne x vid with rfl | hne
  · simp [Pending, queued]
  · simpa [Pending, hne] using hx

/-- The one call of `compute` fills an empty outbox. -/
theorem Sends.computed (rule : OutboxRule compute Q Out) {inbox : List μ}
    (h : Sends Q Out k ls (n, .computing ts)) (running : ts vid = .running inbox) :
    Sends Q Out k (ls ++ [.compute vid inbox])
      (n.runCompute compute k vid inbox, .computing (Function.update ts vid .none)) := by
  have hunflushed : (Phase.computing ts : Phase μ) ≠ .flushed := by simp
  refine h.of_quiet hunflushed (fun _ => rfl) (fun x v hv => ?_) (fun x => ?_) fun x hx => ?_
  · simp only [WorkerNode.runCompute, AList.lookup_mapVals, Option.map_eq_some_iff] at hv
    obtain ⟨u, hu, rfl⟩ := hv
    split
    · exact rule.computes x u inbox k (h.vertices x u hu)
    · exact h.vertices x u hu
  · rw [outboxOf_runCompute]
    cases hx : n.vertices.lookup x with
    | none => exact rule.silent x k
    | some v =>
        simp only [Option.map_some, Option.getD_some]
        split
        next hvid =>
          have hempty := h.empty x (Or.inl (by simp [Pending, hvid, running]))
          rw [outboxOf_of_lookup hx] at hempty
          exact rule.sends x v inbox k (h.vertices x v hx) hempty
        next =>
          have hout := h.out_outboxOf hunflushed x
          rwa [outboxOf_of_lookup hx] at hout
  · rcases eq_or_ne x vid with rfl | hne
    · simp [Pending] at hx
    · have hbefore := h.empty x (Or.inl (by simpa [Pending, hne] using hx))
      rw [outboxOf_runCompute]
      simp only [if_neg hne]
      exact hbefore

end Worker

section Step

variable [Addressed μ] {Q : VertexId → Vertex σ μ → Prop}
  {Out : Superstep → VertexId → List μ → Prop} {compute : Compute σ μ} {k : Superstep}
  {ls : List (Event μ)} {n : WorkerNode σ μ} {ts : VertexId → WorkerNode.TaskState μ}

/-- Waking a vertex up leaves its outbox alone. -/
theorem outboxOf_wake (n : WorkerNode σ μ) (timing : WorkerId → Nat) (vid : VertexId) :
    (n.receive timing).wake.outboxOf vid = n.outboxOf vid := by
  unfold WorkerNode.outboxOf
  rw [WorkerNode.wake, AList.lookup_mapVals, WorkerNode.receive_vertices]
  cases n.vertices.lookup vid with
  | none => rfl
  | some v =>
      simp only [Option.map_some, Option.getD_some]
      split
      · rfl
      · rfl

theorem Sends.start (rule : OutboxRule compute Q Out) (h : Sends Q Out k ls (n, .ready))
    (timing : WorkerId → Nat) : Sends Q Out k (ls ++ [.start])
      ((n.receive timing).wake, .computing (n.receive timing).submitted) := by
  have hunflushed : (Phase.ready : Phase μ) ≠ .flushed := by simp
  refine h.of_quiet hunflushed (fun _ => rfl) (fun vid v hv => ?_) (fun vid => ?_) fun vid _ => ?_
  · simp only [WorkerNode.wake, AList.lookup_mapVals, WorkerNode.receive_vertices,
      Option.map_eq_some_iff] at hv
    obtain ⟨u, hu, rfl⟩ := hv
    split
    · exact rule.wakes vid u (h.vertices vid u hu)
    · exact h.vertices vid u hu
  · rw [outboxOf_wake]
    exact h.out_outboxOf hunflushed vid
  · rw [outboxOf_wake]
    exact h.empty vid (Or.inl trivial)

theorem outboxOf_finish (pmap : PartitionMap) (n : WorkerNode σ μ) (vid : VertexId) :
    (n.finish pmap).outboxOf vid = [] := by
  unfold WorkerNode.outboxOf
  rw [WorkerNode.finish_eq, AList.lookup_mapVals]
  cases n.vertices.lookup vid <;> rfl

/-- What is collected was in the outboxes. -/
theorem Sends.finish (rule : OutboxRule compute Q Out) (pmap : PartitionMap)
    (h : Sends Q Out k ls (n, .computing ts)) :
    Sends Q Out k (ls ++ [.finish n.outboxes]) (n.finish pmap, .flushed) where
  vertices vid v hv := by
    rw [WorkerNode.finish_eq] at hv
    simp only [AList.lookup_mapVals, Option.map_eq_some_iff] at hv
    obtain ⟨u, hu, rfl⟩ := hv
    exact rule.collected vid u (h.vertices vid u hu)
  out vid := by
    have hout := h.out vid
    rw [List.flatMap_append, List.flatMap_singleton, collectedFrom_outboxes, outboxOf_finish,
      List.append_nil]
    exact hout
  uncollected hnot := absurd rfl hnot
  empty vid _ := outboxOf_finish pmap n vid
  own vid hvid := by
    rw [WorkerNode.finish_eq, AList.mem_mapVals] at hvid
    rw [List.flatMap_append, List.flatMap_singleton, collectedFrom_outboxes,
      h.uncollected (by simp) vid, outboxOf_of_notMem hvid]
    rfl

/-- **A step of a worker.** -/
theorem sends_step (rule : OutboxRule compute Q Out) {pmap : PartitionMap}
    {timing : WorkerId → Nat} {s t : WorkerNode σ μ × Phase μ} {l : Event μ}
    (h : Sends Q Out k ls s) (hstep : WorkerNode.Step pmap compute k timing s l t) :
    Sends Q Out k (ls ++ [l]) t := by
  cases hstep with
  | start nodes => exact h.start rule timing
  | take queued => exact h.take queued
  | compute running => exact h.computed rule running
  | finish joined => exact h.finish rule pmap

end Step

end Outbox

/-! ### All workers -/

namespace GraphEngine

variable {σ μ : Type} [Addressed μ] {Q : VertexId → Vertex σ μ → Prop}
  {Out : Superstep → VertexId → List μ → Prop} {compute : Compute σ μ} {k : Superstep}
  {timing : WorkerId → WorkerId → Nat} {e e' : GraphEngine σ μ} {tr : List (WorkerId × Event μ)}
  {ws : WorkerId → WorkerNode σ μ × Phase μ}

/-- Somewhere in superstep `k`, every worker. -/
theorem sends_during (rule : OutboxRule compute Q Out) (init : ∀ i, Rested Q (e.workers i))
    (run : Run (Interleave (e.WorkerStep compute k timing)) (fun i => (e.workers i, .ready)) tr ws)
    (i : WorkerId) : Sends Q Out k (labelsOf i tr) (ws i) :=
  (Interleave.proj run i).invariant_history (Sends Q Out k)
    (fun _ _ _ _ h hstep => sends_step rule h hstep.2) ((init i).sends rule k)

/-- A worker that does not exist stays where it is. -/
theorem idle_during
    (run : Run (Interleave (e.WorkerStep compute k timing)) (fun i => (e.workers i, .ready)) tr ws)
    {i : WorkerId} (hi : ¬ i < e.config.workerCount) : ws i = (e.workers i, .ready) :=
  (Interleave.proj run i).invariant (fun s => s = (e.workers i, .ready))
    (fun _ _ _ _ hstep => absurd hstep.1 hi) rfl

/-- **Somewhere in superstep `k`**, what a vertex has sent in it. -/
theorem out_during (rule : OutboxRule compute Q Out) (init : ∀ i, Rested Q (e.workers i))
    {home : VertexId → WorkerId} (placed : ∀ i vid, vid ∈ (e.workers i).vertices → home vid = i)
    (run : Run (Interleave (e.WorkerStep compute k timing)) (fun i => (e.workers i, .ready)) tr ws)
    (vid : VertexId) : Out k vid (sentBy vid tr ++ waiting vid e.config.workerCount ws) := by
  have hsends := sends_during rule init run
  have hother : ∀ j, j ≠ home vid → vid ∉ (ws j).1.vertices := fun j hj hmem =>
    hj (placed j vid ((mem_during run).mp hmem)).symm
  have hsent : sentBy vid tr = (labelsOf (home vid) tr).flatMap (collectedFrom vid) :=
    flatMap_of_labelsOf fun j hj => (hsends j).own vid (hother j hj)
  have hwaiting : waiting vid e.config.workerCount ws = (ws (home vid)).1.outboxOf vid := by
    apply List.flatMap_range_eq (fun j hj => outboxOf_of_notMem (hother j hj))
    intro hhome
    rw [idle_during run hhome]
    exact (init _).empty vid
  rw [hsent, hwaiting]
  exact (hsends (home vid)).out vid

/-- At the end of a superstep. -/
theorem rested_superstepRun (rule : OutboxRule compute Q Out) (init : ∀ i, Rested Q (e.workers i))
    {home : VertexId → WorkerId} (placed : ∀ i vid, vid ∈ (e.workers i).vertices → home vid = i)
    (run : SuperstepRun compute k timing e tr e') :
    (∀ i, Rested Q (e'.workers i)) ∧ ∀ vid, Out k vid (sentBy vid tr) := by
  obtain ⟨ws, run, flushed, rfl⟩ := run
  have hempty : ∀ i vid, (ws i).1.outboxOf vid = [] := by
    intro i vid
    by_cases hi : i < e.config.workerCount
    · exact (sends_during rule init run i).empty vid (Or.inr (flushed i hi))
    · rw [idle_during run hi]
      exact (init i).empty vid
  refine ⟨fun i => ⟨(sends_during rule init run i).vertices, hempty i⟩, fun vid => ?_⟩
  have hnothing : waiting vid e.config.workerCount ws = [] :=
    List.flatMap_eq_nil_iff.mpr fun i _ => hempty i vid
  have hout := out_during rule init placed run vid
  rwa [hnothing, List.append_nil] at hout

/-- **After any number of supersteps.** -/
theorem Execution.outbox (rule : OutboxRule compute Q Out) (init : ∀ i, Rested Q (e.workers i))
    {home : VertexId → WorkerId} (placed : ∀ i vid, vid ∈ (e.workers i).vertices → home vid = i)
    {trs : List (List (WorkerId × Event μ))} {k : Nat} (exec : Execution compute e trs k e') :
    (∀ i, Rested Q (e'.workers i)) ∧ trs.length = k ∧
      ∀ s tr, trs[s]? = some tr → ∀ vid, Out s vid (sentBy vid tr) := by
  have hinv := Run.invariant_history (fun trs (s : Superstep × GraphEngine σ μ) =>
    (∀ i vid, vid ∈ (s.2.workers i).vertices → home vid = i) ∧ (∀ i, Rested Q (s.2.workers i)) ∧
      trs.length = s.1 ∧ ∀ j tr, trs[j]? = some tr → ∀ vid, Out j vid (sentBy vid tr)) ?_ exec
    ⟨placed, init, rfl, by simp⟩
  · exact hinv.2
  rintro trs ⟨k, e₁⟩ tr ⟨k', e₂⟩ ⟨hplaced, hrested, hlength, hout⟩ ⟨rfl, timing, run⟩
  obtain ⟨hrested', hlast⟩ := rested_superstepRun rule hrested hplaced run
  refine ⟨fun i vid hvid => hplaced i vid ?_, hrested', by simp [hlength], fun j tr' hj => ?_⟩
  · obtain ⟨ws, during, -, rfl⟩ := run
    exact (mem_during during).mp hvid
  · by_cases hlt : j < trs.length
    · rw [List.getElem?_append_left hlt] at hj
      exact hout j tr' hj
    · have hnew : j = trs.length := by
        have hbound := (List.getElem?_eq_some_iff.mp hj).1
        rw [List.length_append, List.length_singleton] at hbound
        exact Nat.le_antisymm (Nat.le_of_lt_succ hbound) (Nat.not_lt.mp hlt)
      subst hnew
      rw [List.getElem?_concat_length, Option.some.injEq] at hj
      subst hj
      rw [hlength]
      exact hlast

/-- **What a vertex sends**, in each of `k` supersteps and in the one after them. -/
theorem out_sentLog (rule : OutboxRule compute Q Out) (init : ∀ i, Rested Q (e.workers i))
    {home : VertexId → WorkerId} (placed : ∀ i vid, vid ∈ (e.workers i).vertices → home vid = i)
    {trs : List (List (WorkerId × Event μ))} {k : Nat} (exec : Execution compute e trs k e')
    (run : Run (Interleave (e'.WorkerStep compute k timing)) (fun i => (e'.workers i, .ready)) tr ws)
    {vid : VertexId} {s : Superstep} {ms : List μ}
    (sent : (sentLog vid e.config.workerCount trs tr ws)[s]? = some ms) : s ≤ k ∧ Out s vid ms := by
  obtain ⟨hrested, hlength, hout⟩ := exec.outbox rule init placed
  have hplaced : ∀ i vid, vid ∈ (e'.workers i).vertices → home vid = i := fun i vid hvid =>
    placed i vid ((mem_execution exec).mp hvid)
  have hlast := out_during rule hrested hplaced run vid
  rw [(execution_frame exec).1] at hlast
  rw [sentLog] at sent
  have hbound := (List.getElem?_eq_some_iff.mp sent).1
  rw [List.length_append, List.length_map, List.length_singleton, hlength] at hbound
  refine ⟨Nat.le_of_lt_succ hbound, ?_⟩
  rcases Nat.lt_succ_iff_lt_or_eq.mp hbound with hlt | heq
  · rw [List.getElem?_append_left (by rwa [List.length_map, hlength]), List.getElem?_map,
      Option.map_eq_some_iff] at sent
    obtain ⟨tr', htr', rfl⟩ := sent
    exact hout s tr' htr' vid
  · have hpos : s = (trs.map (sentBy vid)).length := by rw [List.length_map, hlength, heq]
    rw [hpos, List.getElem?_concat_length, Option.some.injEq] at sent
    rw [heq, ← sent]
    exact hlast

end GraphEngine

end Pregel
