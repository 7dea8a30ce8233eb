import Pregel.Lib.Bsp
import Pregel.Local

/-!
What the engine computes, in terms of the reference semantics of `Bsp`.

An engine refines the semantics in which a message arrives if and only if sender
and receiver have the same owner (`refines_step`). With one worker these are all
messages, so such an engine refines the reference semantics itself
(`single_worker_refines`).
-/

namespace Pregel

open Lts
open WorkerNode (Phase Event)

variable {σ μ : Type} [Addressed μ]

/-- A vertex program in abstract terms: a vertex that computes is awake, and what
it leaves in its outbox is what it sends. -/
def program (compute : Compute σ μ) : Bsp.Program VertexId (Vertex σ μ) μ where
  halted v := v.halted = true
  compute k _ v ms :=
    let computed := compute { v with halted := false } ms k
    (computed.clearOutbox, computed.outbox)
  target := dst

/-- Two vertices with the same owner. -/
def PartitionMap.coLocated (pmap : PartitionMap) (u v : VertexId) : Bool :=
  pmap.ownerOf u = pmap.ownerOf v

namespace GraphEngine

/-- The calls of `compute` in a superstep of all workers. -/
def calls (tr : List (WorkerId × Event μ)) : List (VertexId × List μ) :=
  WorkerNode.calls (tr.map Prod.snd)

/-- The engine between two supersteps, and the abstract state it stands for. -/
structure Refines (e : GraphEngine σ μ) (s : Bsp.State VertexId (Vertex σ μ) μ) : Prop where
  inRange : ∀ vid, e.pmap.ownerOf vid < e.config.workerCount
  boundary : ∀ i < e.config.workerCount, WorkerNode.AtBoundary e.pmap i (e.workers i)
  vertices : ∀ vid, s.vertices vid = (e.workers (e.pmap.ownerOf vid)).vertices.lookup vid
  collected : ∀ vid v, s.vertices vid = some v → v.outbox = []
  inbox : ∀ i < e.config.workerCount, Bsp.Merges
    (fun u => if e.pmap.ownerOf u = i then
      (s.sent u).filter fun m => e.pmap.ownerOf (dst m) = i else [])
    (e.workers i).bus.inbox

/-- The abstract state after superstep `k`. -/
def afterwards (compute : Compute σ μ) (k : Superstep) (e : GraphEngine σ μ) :
    Bsp.State VertexId (Vertex σ μ) μ where
  vertices vid := (((e.workers (e.pmap.ownerOf vid)).core.computed compute k).lookup vid).map
    Vertex.clearOutbox
  sent vid := ((((e.workers (e.pmap.ownerOf vid)).core.computed compute k).lookup vid).map
    Vertex.outbox).getD []

section Step

variable {compute : Compute σ μ} {k : Superstep} {timing : WorkerId → WorkerId → Nat}
  {e e' : GraphEngine σ μ} {s : Bsp.State VertexId (Vertex σ μ) μ}
  {tr : List (WorkerId × Event μ)}

variable (compute) in
/-- The messages waiting for a vertex are its mail. -/
theorem merges_mail (h : Refines e s) (vid : VertexId) :
    Bsp.Merges (Bsp.mail (program compute) e.pmap.coLocated s vid)
      ((e.workers (e.pmap.ownerOf vid)).bus.inbox.filter fun m => dst m = vid) := by
  have hmerges := (h.inbox _ (h.inRange vid)).filter fun m => dst m = vid
  convert hmerges using 1
  funext u
  unfold Bsp.mail PartitionMap.coLocated
  by_cases howner : e.pmap.ownerOf u = e.pmap.ownerOf vid
  · simp only [howner, decide_true, if_true, List.filter_filter]
    apply List.filter_congr
    intro m _
    rcases eq_or_ne (dst m) vid with hdst | hdst
    · simp [program, hdst]
    · simp [program, hdst]
  · simp [howner]

variable (timing) in
theorem active_iff (h : Refines e s) (vid : VertexId) :
    Bsp.Active (program compute) e.pmap.coLocated s vid ↔
      vid ∈ ((e.workers (e.pmap.ownerOf vid)).receive (timing (e.pmap.ownerOf vid))).taskIds := by
  rw [WorkerNode.mem_taskIds_core (h.boundary _ (h.inRange vid)), Bsp.Active, h.vertices]
  refine exists_congr fun v => and_congr_right fun _ => ?_
  rw [ne_eq, (merges_mail compute h vid).eq_nil_iff, not_forall]
  simp [program]

omit [Addressed μ] in
theorem mem_calls_worker {vid : VertexId} {ms : List μ} :
    (vid, ms) ∈ calls tr ↔ ∃ i, (vid, ms) ∈ WorkerNode.calls (labelsOf i tr) := by
  unfold calls WorkerNode.calls
  simp only [List.mem_filterMap, mem_labelsOf, List.mem_map, Prod.exists]
  constructor
  · rintro ⟨l, ⟨i, l', hmem, rfl⟩, hcall⟩
    exact ⟨i, l', hmem, hcall⟩
  · rintro ⟨i, l, hmem, hcall⟩
    exact ⟨l, ⟨i, l, hmem, rfl⟩, hcall⟩

/-- The calls of one worker, on its own vertices. -/
theorem mem_calls_of_worker (h : Refines e s) (run : SuperstepRun compute k timing e tr e')
    {i : WorkerId} {vid : VertexId} {ms : List μ} :
    (vid, ms) ∈ WorkerNode.calls (labelsOf i tr) ↔ e.pmap.ownerOf vid = i ∧
      Bsp.Active (program compute) e.pmap.coLocated s vid ∧
      ms = (e.workers i).bus.inbox.filter fun m => dst m = vid := by
  by_cases hi : i < e.config.workerCount
  · have hbound := h.boundary i hi
    rw [(WorkerNode.calls_of_run (worker_run run hi)).mem_iff, List.mem_map]
    have hown : ∀ {v}, v ∈ ((e.workers i).receive (timing i)).taskIds →
        v ∈ (e.workers i).vertices := fun hv =>
      ((e.workers i).receive (timing i)).taskIds_sublist.subset hv
    constructor
    · rintro ⟨v, hv, heq⟩
      obtain ⟨rfl, rfl⟩ := Prod.mk.inj heq
      have howner := hbound.owned v (hown hv)
      refine ⟨howner, ?_, WorkerNode.inboxOf_core hbound (hown hv)⟩
      rw [active_iff timing h, howner]
      exact hv
    · rintro ⟨rfl, hactive, rfl⟩
      rw [active_iff timing h] at hactive
      refine ⟨vid, hactive, ?_⟩
      rw [WorkerNode.inboxOf_core hbound (hown hactive)]
  · rw [labelsOf_idle run hi]
    constructor
    · intro hmem
      cases hmem
    · rintro ⟨rfl, -, -⟩
      exact absurd (h.inRange vid) hi

/-- The calls of a superstep: every active vertex, with its mail. -/
theorem mem_calls (h : Refines e s) (run : SuperstepRun compute k timing e tr e')
    {vid : VertexId} {ms : List μ} :
    (vid, ms) ∈ calls tr ↔ Bsp.Active (program compute) e.pmap.coLocated s vid ∧
      ms = (e.workers (e.pmap.ownerOf vid)).bus.inbox.filter fun m => dst m = vid := by
  rw [mem_calls_worker]
  simp only [mem_calls_of_worker h run]
  constructor
  · rintro ⟨i, rfl, hrest⟩
    exact hrest
  · rintro hrest
    exact ⟨_, rfl, hrest⟩

/-- No vertex is called twice. -/
theorem nodup_calls (h : Refines e s) (run : SuperstepRun compute k timing e tr e') :
    ((calls tr).map Prod.fst).Nodup := by
  have hnodup : ∀ i, ((WorkerNode.calls (labelsOf i tr)).map Prod.fst).Nodup := by
    intro i
    by_cases hi : i < e.config.workerCount
    · apply ((WorkerNode.calls_of_run (worker_run run hi)).map Prod.fst).nodup_iff.mpr
      simpa [Function.comp_def] using WorkerNode.nodup_taskIds _
    · rw [labelsOf_idle run hi]
      exact List.nodup_nil
  unfold calls
  simp only [WorkerNode.calls, List.map_filterMap] at hnodup ⊢
  refine nodup_of_labelsOf e.pmap.ownerOf ?_ hnodup
  intro i l vid hmem hcall
  obtain ⟨⟨_, ms⟩, hevent, rfl⟩ := Option.map_eq_some_iff.mp hcall
  exact ((mem_calls_of_worker h run).mp
    (List.mem_filterMap.mpr ⟨l, mem_labelsOf.mpr hmem, hevent⟩)).1

/-- What a superstep makes of a vertex that computes. -/
theorem computed_of_active (h : Refines e s) {vid : VertexId} {v : Vertex σ μ}
    (hactive : Bsp.Active (program compute) e.pmap.coLocated s vid)
    (hv : s.vertices vid = some v) :
    ((e.workers (e.pmap.ownerOf vid)).core.computed compute k).lookup vid =
      some (compute v.wakeUp
        ((e.workers (e.pmap.ownerOf vid)).bus.inbox.filter fun m => dst m = vid) k) := by
  rw [active_iff (fun _ _ => 0) h, WorkerNode.mem_taskIds_core (h.boundary _ (h.inRange vid))]
    at hactive
  obtain ⟨v', hv', hcase⟩ := hactive
  obtain rfl : v' = v := by
    rw [h.vertices, hv'] at hv
    exact Option.some.inj hv
  rw [Core.computed, AList.lookup_mapVals]
  show Option.map _ ((e.workers (e.pmap.ownerOf vid)).vertices.lookup vid) = _
  rw [hv', Option.map_some]
  exact congrArg some (WorkerNode.advance_of_active hcase)

/-- What a superstep makes of any other vertex: nothing. -/
theorem computed_of_not_active (h : Refines e s) {vid : VertexId}
    (hactive : ¬ Bsp.Active (program compute) e.pmap.coLocated s vid) :
    ((e.workers (e.pmap.ownerOf vid)).core.computed compute k).lookup vid = s.vertices vid := by
  rw [active_iff (fun _ _ => 0) h, WorkerNode.mem_taskIds_core (h.boundary _ (h.inRange vid))]
    at hactive
  rw [Core.computed, AList.lookup_mapVals, h.vertices]
  show Option.map _ ((e.workers (e.pmap.ownerOf vid)).vertices.lookup vid) = _
  cases hv : (e.workers (e.pmap.ownerOf vid)).vertices.lookup vid with
  | none => rfl
  | some v =>
      have hidle : v.halted = true ∧
          (e.workers (e.pmap.ownerOf vid)).bus.inbox.filter (fun m => dst m = vid) = [] := by
        by_contra hcase
        exact hactive ⟨v, hv, by simpa [or_iff_not_imp_left] using hcase⟩
      rw [Option.map_some, WorkerNode.core, hidle.2]
      exact congrArg some (WorkerNode.advance_of_halted hidle.1)

/-- **A superstep of the engine is a superstep of the semantics in which messages
travel between vertices of one owner.** -/
theorem refines_step (h : Refines e s) (run : SuperstepRun compute k timing e tr e') :
    Bsp.Step (program compute) e.pmap.coLocated k s (calls tr) (afterwards compute k e) where
  once := nodup_calls h run
  called vid := by
    constructor
    · intro hmem
      obtain ⟨⟨_, ms⟩, hcall, rfl⟩ := List.mem_map.mp hmem
      exact ((mem_calls h run).mp hcall).1
    · intro hactive
      exact List.mem_map.mpr ⟨_, (mem_calls h run).mpr ⟨hactive, rfl⟩, rfl⟩
  inbox vid ms hcall := by
    obtain ⟨-, rfl⟩ := (mem_calls h run).mp hcall
    exact merges_mail compute h vid
  computed vid ms v hcall hv := by
    obtain ⟨hactive, rfl⟩ := (mem_calls h run).mp hcall
    simp only [afterwards, computed_of_active h hactive hv]
    exact ⟨rfl, rfl⟩
  unchanged vid hactive := by
    simp only [afterwards, computed_of_not_active h hactive]
    cases hv : s.vertices vid with
    | none => exact ⟨rfl, rfl⟩
    | some v =>
        have hout := h.collected vid v hv
        simp [Vertex.clearOutbox_of_nil hout, hout]

theorem refines_afterwards (h : Refines e s) (run : SuperstepRun compute k timing e tr e') :
    Refines e' (afterwards compute k e) := by
  have hcore : ∀ i < e.config.workerCount,
      (e'.workers i).core = (e.workers i).core.step e.pmap i compute k := by
    intro i hi
    rw [WorkerNode.run_eq_runSuperstep (worker_run run hi),
      WorkerNode.core_runSuperstep (h.boundary i hi)]
  have hbound : ∀ i < e.config.workerCount, WorkerNode.AtBoundary e.pmap i (e'.workers i) := by
    intro i hi
    rw [WorkerNode.run_eq_runSuperstep (worker_run run hi)]
    exact WorkerNode.atBoundary_runSuperstep (h.boundary i hi)
  have hpmap : e'.pmap = e.pmap := by rw [superstepRun_eq run]; rfl
  have hconfig : e'.config = e.config := by rw [superstepRun_eq run]; rfl
  constructor
  · rw [hpmap, hconfig]
    exact h.inRange
  · rw [hpmap, hconfig]
    exact hbound
  · intro vid
    have hvertices : (e'.workers (e.pmap.ownerOf vid)).vertices =
        ((e.workers (e.pmap.ownerOf vid)).core.step e.pmap _ compute k).vertices :=
      congrArg Core.vertices (hcore _ (h.inRange vid))
    rw [hpmap, hvertices, Core.step, AList.lookup_mapVals]
    rfl
  · intro vid v hv
    obtain ⟨v', -, rfl⟩ := Option.map_eq_some_iff.mp hv
    rfl
  · rw [hpmap, hconfig]
    intro i hi
    have hinbox : (e'.workers i).bus.inbox =
        ((e.workers i).core.step e.pmap i compute k).inbox := congrArg Core.inbox (hcore i hi)
    have hmerges := (Bsp.merges_entries ((e.workers i).core.computed compute k)
      Vertex.outbox).filter fun m => e.pmap.ownerOf (dst m) = i
    rw [hinbox]
    unfold Core.step
    convert hmerges using 1
    funext u
    by_cases howner : e.pmap.ownerOf u = i
    · simp [afterwards, howner]
    · -- worker `i` holds no vertex of another owner
      have hnone : ((e.workers i).core.computed compute k).lookup u = none := by
        rw [AList.lookup_eq_none, Core.computed, AList.mem_mapVals]
        exact fun hmem => howner ((h.boundary i hi).owned u hmem)
      simp [howner, hnone]

end Step

/-! ### Executions of a loaded engine -/

/-- The state in which a loaded engine starts. -/
def initially (vertices : List (Vertex σ μ)) : Bsp.State VertexId (Vertex σ μ) μ where
  vertices vid := lastWith vid vertices none
  sent _ := []

theorem load_refines {config : EngineConfig} (workers : 0 < config.workerCount)
    {vertices : List (Vertex σ μ)} (fresh : ∀ v ∈ vertices, v.outbox = []) :
    Refines (load config vertices) (initially vertices) := by
  constructor
  · intro vid
    rw [load_pmap, load_config]
    exact Nat.mod_lt _ workers
  · intro i hi
    rw [load_config] at hi
    exact load_atBoundary config vertices hi
  · intro vid
    rw [load_lookup, load_pmap]
    exact (if_pos rfl).symm
  · intro vid v hv
    rcases lastWith_mem hv with hold | hmem
    · cases hold
    · exact fresh v hmem
  · intro i hi
    have hempty : ((load config vertices).workers i).bus.inbox = [] := by
      rw [load_worker]
      rfl
    rw [hempty]
    simp only [initially, List.filter_nil, ite_self]
    exact Bsp.merges_nil

/-- Engine and abstract state before the same superstep. -/
def Tracks (pmap : PartitionMap) (x : Superstep × GraphEngine σ μ)
    (y : Nat × Bsp.State VertexId (Vertex σ μ) μ) : Prop :=
  y.1 = x.1 ∧ x.2.pmap = pmap ∧ Refines x.2 y.2

theorem tracks_next {compute : Compute σ μ} {pmap : PartitionMap}
    {x x' : Superstep × GraphEngine σ μ} {y : Nat × Bsp.State VertexId (Vertex σ μ) μ}
    {tr : List (WorkerId × Event μ)} (next : NextSuperstep compute x tr x')
    (h : Tracks pmap x y) :
    ∃ y', Bsp.Next (program compute) pmap.coLocated y (calls tr) y' ∧ Tracks pmap x' y' := by
  obtain ⟨hk, timing, run⟩ := next
  obtain ⟨hy, rfl, href⟩ := h
  refine ⟨(x.1 + 1, afterwards compute x.1 x.2), ⟨by rw [hy], ?_⟩, hk.symm, ?_, ?_⟩
  · rw [hy]
    exact refines_step href run
  · rw [superstepRun_eq run]
    rfl
  · exact refines_afterwards href run

/-- **An execution of the engine is an execution of the semantics in which messages
travel between vertices of one owner.** -/
theorem execution_refines {compute : Compute σ μ} {e e' : GraphEngine σ μ}
    {s : Bsp.State VertexId (Vertex σ μ) μ} {trs : List (List (WorkerId × Event μ))} {k : Nat}
    (h : Refines e s) (exec : Execution compute e trs k e') :
    ∃ t, Run (Bsp.Next (program compute) e.pmap.coLocated) (0, s) (trs.map calls) (k, t) ∧
      Refines e' t := by
  have start : Tracks e.pmap (0, e) (0, s) := ⟨rfl, rfl, h⟩
  obtain ⟨⟨k', t⟩, run, hk, -, href⟩ := Run.simulation (Tracks e.pmap) calls
    (fun _ _ _ _ next related => tracks_next next related) exec start
  obtain rfl : k' = k := hk
  exact ⟨t, run, href⟩

end GraphEngine

end Pregel
