import Pregel.MessageFlow
import Pregel.Local

/-!
Where the messages of a vertex come from.

A worker hears of nothing but itself, so that a predicate on messages may name the worker
that holds them. Between its vertices delivery is exact: what they send one another in a
superstep is what they get in the next one.

* `flows_during_each`, `CheckedExecution.flows_each`: the rule for the flow of messages, with
  predicates of its own for every worker.
* `sentTo`, `compute_first_iff`, `compute_next_iff`: which vertices compute in a superstep, and
  with which inbox, by what was collected in the superstep before it.
-/

namespace Pregel

open Lts
open WorkerNode (Phase Event)

namespace GraphEngine

variable {σ μ : Type} [Addressed μ] {compute : Compute σ μ}

/-! ### A rule for every worker -/

section Each

variable {P : WorkerId → μ → Prop} {Q : WorkerId → VertexId → Vertex σ μ → Prop}
  {ok : Vertex σ μ → Prop} {step : Superstep} {timing : WorkerId → WorkerId → Nat}
  {e e' : GraphEngine σ μ}

/-- Somewhere in a superstep. -/
theorem flows_during_each (rule : ∀ i, FlowRule compute ok (P i) (Q i))
    (init : ∀ i, Flows (P i) (Q i) (e.workers i, .ready)) {tr : List (WorkerId × Event μ)}
    {ws : WorkerId → WorkerNode σ μ × Phase μ}
    (run : Run (Interleave (e.CheckedStep ok compute step timing))
      (fun i => (e.workers i, .ready)) tr ws) :
    (∀ i, Flows (P i) (Q i) (ws i)) ∧ ∀ l ∈ tr, EventFlows (P l.1) (Q l.1) l.2 := by
  have hstep : ∀ i s l t, Flows (P i) (Q i) s → e.CheckedStep ok compute step timing i s l t →
      Flows (P i) (Q i) t := fun i _ _ _ h hstep => flows_step (rule i) h hstep.1.2 hstep.2
  constructor
  · intro i
    exact (Interleave.proj run i).invariant (Flows (P i) (Q i)) (hstep i) (init i)
  · rintro ⟨i, l⟩ hl
    exact (Interleave.proj run i).label_property (Flows (P i) (Q i)) (hstep i)
      (fun _ _ _ h hstep => eventFlows_step h hstep.1.2) (init i) l (mem_labelsOf.mpr hl)

/-- **After any number of supersteps.** -/
theorem CheckedExecution.flows_each (rule : ∀ i, FlowRule compute ok (P i) (Q i))
    (init : ∀ i, Flows (P i) (Q i) (e.workers i, .ready)) {trs : List (List (WorkerId × Event μ))}
    {k : Nat} (exec : CheckedExecution ok compute e trs k e') :
    (∀ i, Flows (P i) (Q i) (e'.workers i, .ready)) ∧
      ∀ tr ∈ trs, ∀ l ∈ tr, EventFlows (P l.1) (Q l.1) l.2 := by
  have hnext : ∀ s tr t, (∀ i, Flows (P i) (Q i) (s.2.workers i, .ready)) →
      NextChecked ok compute s tr t → (∀ i, Flows (P i) (Q i) (t.2.workers i, .ready)) ∧
        ∀ l ∈ tr, EventFlows (P l.1) (Q l.1) l.2 := by
    rintro s tr ⟨k, e₂⟩ h ⟨-, timing, ws, run, -, rfl⟩
    obtain ⟨hflows, hevents⟩ := flows_during_each rule h run
    exact ⟨fun i => (hflows i).ready, hevents⟩
  exact ⟨Run.invariant (fun s => ∀ i, Flows (P i) (Q i) (s.2.workers i, .ready))
      (fun s tr t h hstep => (hnext s tr t h hstep).1) exec init,
    Run.label_property (fun s => ∀ i, Flows (P i) (Q i) (s.2.workers i, .ready))
      (fun s tr t h hstep => (hnext s tr t h hstep).1)
      (fun s tr t h hstep => (hnext s tr t h hstep).2) exec init⟩

end Each

/-! ### Delivery -/

/-- What worker `i` collects from its vertices in a superstep, vertex by vertex. -/
def outboxesOf (i : WorkerId) (tr : List (WorkerId × Event μ)) : List (VertexId × List μ) :=
  (WorkerNode.collected (labelsOf i tr)).flatten

/-- What the vertices of worker `i` send to vertex `vid` in a superstep. -/
def sentTo (i : WorkerId) (vid : VertexId) (tr : List (WorkerId × Event μ)) : List μ :=
  ((outboxesOf i tr).flatMap Prod.snd).filter fun m => dst m = vid

omit [Addressed μ] in
theorem mem_outboxesOf {i : WorkerId} {tr : List (WorkerId × Event μ)}
    {box : VertexId × List μ} :
    box ∈ outboxesOf i tr ↔ ∃ boxes, (i, Event.finish boxes) ∈ tr ∧ box ∈ boxes := by
  simp only [outboxesOf, List.mem_flatten, WorkerNode.collected, List.mem_filterMap,
    mem_labelsOf]
  constructor
  · rintro ⟨boxes, ⟨l, hl, hevent⟩, hbox⟩
    cases l with
    | finish => cases hevent; exact ⟨boxes, hl, hbox⟩
    | _ => cases hevent
  · rintro ⟨boxes, hl, hbox⟩
    exact ⟨boxes, ⟨_, hl, rfl⟩, hbox⟩

theorem mem_sentTo {i : WorkerId} {vid : VertexId} {tr : List (WorkerId × Event μ)} {m : μ} :
    m ∈ sentTo i vid tr ↔
      (∃ boxes, (i, Event.finish boxes) ∈ tr ∧ ∃ box ∈ boxes, m ∈ box.2) ∧ dst m = vid := by
  simp only [sentTo, List.mem_filter, List.mem_flatMap, mem_outboxesOf, decide_eq_true_eq]
  constructor
  · rintro ⟨⟨box, ⟨boxes, hfinish, hbox⟩, hm⟩, hdst⟩
    exact ⟨⟨boxes, hfinish, box, hbox, hm⟩, hdst⟩
  · rintro ⟨⟨boxes, hfinish, box, hbox, hm⟩, hdst⟩
    exact ⟨⟨box, ⟨boxes, hfinish, hbox⟩, hm⟩, hdst⟩

/-- An execution of `k` supersteps has `k` traces. -/
theorem Execution.length_eq {e e' : GraphEngine σ μ} {trs : List (List (WorkerId × Event μ))}
    {k : Nat} (exec : Execution compute e trs k e') : trs.length = k := by
  have hcount := Run.count (f := Prod.fst) (fun _ _ _ h => h.1) exec
  simpa using hcount.symm

theorem Execution.eq_of_zero {e e' : GraphEngine σ μ} {trs : List (List (WorkerId × Event μ))}
    (exec : Execution compute e trs 0 e') : e' = e := by
  obtain rfl := List.eq_nil_of_length_eq_zero exec.length_eq
  exact congrArg Prod.snd (run_nil_iff.mp exec)

/-- The last superstep of an execution. -/
theorem Execution.exists_last {e e' : GraphEngine σ μ} {trs : List (List (WorkerId × Event μ))}
    {k : Nat} (exec : Execution compute e trs (k + 1) e') :
    ∃ trs' tr timing e₁, trs = trs' ++ [tr] ∧ Execution compute e trs' k e₁ ∧
      SuperstepRun compute k timing e₁ tr e' := by
  rcases List.eq_nil_or_concat trs with rfl | ⟨trs', tr, rfl⟩
  · cases run_nil_iff.mp exec
  · rw [List.concat_eq_append] at exec ⊢
    obtain ⟨⟨j, e₁⟩, exec', last⟩ := run_append_iff.mp exec
    obtain ⟨t, ⟨hnext, timing, run⟩, hend⟩ := run_cons_iff.mp last
    obtain rfl := run_nil_iff.mp hend
    obtain rfl : k = j := Nat.succ_injective hnext
    exact ⟨trs', tr, timing, e₁, rfl, exec', run⟩

/-- A superstep of an execution. -/
theorem Execution.exists_superstep {e e' : GraphEngine σ μ}
    {trs : List (List (WorkerId × Event μ))} {k : Nat} (exec : Execution compute e trs k e')
    {s : Nat} {tr : List (WorkerId × Event μ)} (hs : trs[s]? = some tr) :
    ∃ timing e₁ e₂, Execution compute e (trs.take s) s e₁ ∧
      SuperstepRun compute s timing e₁ tr e₂ ∧
      Run (NextSuperstep compute) (s + 1, e₂) (trs.drop (s + 1)) (k, e') := by
  obtain ⟨hlt, htr⟩ := List.getElem?_eq_some_iff.mp hs
  have hsplit : trs = trs.take s ++ tr :: trs.drop (s + 1) := by
    rw [← htr, ← List.drop_eq_getElem_cons hlt, List.take_append_drop]
  rw [hsplit] at exec
  obtain ⟨⟨j, e₁⟩, before, rest⟩ := run_append_iff.mp exec
  obtain ⟨⟨j', e₂⟩, ⟨hnext, timing, run⟩, after⟩ := run_cons_iff.mp rest
  have hj : j = s := by
    have hlength := Execution.length_eq before
    rw [List.length_take, Nat.min_eq_left (Nat.le_of_lt hlt)] at hlength
    exact hlength.symm
  obtain rfl := hj
  obtain rfl : j' = j + 1 := hnext
  exact ⟨timing, e₁, e₂, before, run, after⟩

section Delivery

variable {config : EngineConfig} {vertices : List (Vertex σ μ)}
  {trs : List (List (WorkerId × Event μ))} {k : Nat} {e e₁ e₂ : GraphEngine σ μ}
  {timing timing' : WorkerId → WorkerId → Nat} {tr tr' : List (WorkerId × Event μ)}

/-- What waits for the vertices of a worker after a superstep. -/
theorem inbox_of_collected (exec : Execution compute (load config vertices) trs k e)
    (run : SuperstepRun compute k timing e tr e₁) {i : WorkerId} (hi : i < config.workerCount)
    {vid : VertexId} (hvid : vid ∈ (e₁.workers i).vertices) :
    (e₁.workers i).bus.inbox.filter (fun m => dst m = vid) = sentTo i vid tr := by
  obtain ⟨hbound, hcore⟩ := execution_core exec hi
  obtain ⟨hbound', hcore'⟩ := execution_core (exec.next run) hi
  obtain ⟨hconfig, hpmap⟩ := execution_frame exec
  have hnext : (e₁.workers i).core = (e.workers i).core.step e.pmap i compute k := by
    rw [hcore', hcore, hpmap]
    rfl
  have hinbox : (e₁.workers i).bus.inbox = _ := congrArg Core.inbox hnext
  have hcollected := collected_core hbound
    (worker_run run (i := i) (by rw [hconfig, load_config]; exact hi))
  have howner : e.pmap.ownerOf vid = i := by
    rw [hpmap, ← (execution_frame (exec.next run)).2]
    exact hbound'.owned vid hvid
  rw [hinbox, sentTo, outboxesOf, hcollected]
  simp only [Core.step, List.flatten_cons, List.flatten_nil, List.append_nil, List.flatMap_map,
    List.filter_filter]
  apply List.filter_congr
  intro m _
  by_cases hdst : dst m = vid
  · simp [hdst, howner]
  · simp [hdst]

/-- In two supersteps in a row, a vertex computes in the second one if and only if it is not
halted or a vertex of its worker sent it something in the first one, and its inbox is what they
sent it. -/
theorem compute_next_iff (exec : Execution compute (load config vertices) trs k e)
    (run : SuperstepRun compute k timing e tr e₁)
    (next : SuperstepRun compute (k + 1) timing' e₁ tr' e₂) {i : WorkerId}
    (hi : i < config.workerCount) (vid : VertexId) (inbox : List μ) :
    (i, Event.compute vid inbox) ∈ tr' ↔
      (∃ v, (e₁.workers i).vertices.lookup vid = some v ∧
        (v.halted = false ∨ sentTo i vid tr ≠ [])) ∧ inbox = sentTo i vid tr := by
  obtain ⟨hbound, -⟩ := execution_core (exec.next run) hi
  have hconfig := (execution_frame (exec.next run)).1
  rw [mem_compute_iff next (by rw [hconfig, load_config]; exact hi),
    WorkerNode.mem_taskIds_core hbound]
  constructor
  · rintro ⟨⟨v, hv, hactive⟩, rfl⟩
    have hvid : vid ∈ (e₁.workers i).vertices := AList.lookup_isSome.mp (by simp [hv])
    rw [inbox_of_collected exec run hi hvid] at hactive
    rw [WorkerNode.inboxOf_core hbound hvid, inbox_of_collected exec run hi hvid]
    exact ⟨⟨v, hv, hactive⟩, rfl⟩
  · rintro ⟨⟨v, hv, hactive⟩, rfl⟩
    have hvid : vid ∈ (e₁.workers i).vertices := AList.lookup_isSome.mp (by simp [hv])
    rw [WorkerNode.inboxOf_core hbound hvid, inbox_of_collected exec run hi hvid]
    exact ⟨⟨v, hv, hactive⟩, rfl⟩

/-- In superstep 0 the vertices that are not halted compute, without a message. -/
theorem compute_first_iff (run : SuperstepRun compute 0 timing (load config vertices) tr e₁)
    {i : WorkerId} (hi : i < config.workerCount) (vid : VertexId) (inbox : List μ) :
    (i, Event.compute vid inbox) ∈ tr ↔
      (∃ v, ((load config vertices).workers i).vertices.lookup vid = some v ∧
        v.halted = false) ∧ inbox = [] := by
  have hbound := load_atBoundary config vertices hi
  have hempty : ((load config vertices).workers i).bus.inbox = [] := by
    rw [load_worker]
    rfl
  rw [mem_compute_iff run (by rw [load_config]; exact hi), WorkerNode.mem_taskIds_core hbound,
    hempty]
  simp only [List.filter_nil, ne_eq, not_true, or_false]
  apply and_congr_right
  rintro ⟨v, hv, -⟩
  rw [WorkerNode.inboxOf_core hbound (AList.lookup_isSome.mp (by simp [hv])), hempty]
  rfl

end Delivery

end GraphEngine

end Pregel
