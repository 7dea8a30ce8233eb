import Mathlib.Data.List.ReduceOption
import Pregel.Refinement

/-!
The only worker of an engine, together with its scheduler.

`WorkerNode.Step` lets a worker go on after `wait_all` when all its tasks are done.
Here `wait_all` is the one of the scheduler: `Step` runs the tasks on the pool
threads of `Pregel.Scheduler`, takes the inbox when a thread calls the task, and
collects the outboxes when `wait_all` returns. A single client is always joined
(`Scheduler.joins_of_single`), so every superstep of this system is one of the
worker (`worker_run`), and an engine with one worker refines the reference
semantics (`single_worker_refines`).
-/

namespace Pregel.SingleWorker

open Lts
open WorkerNode (Phase Event)

variable {σ μ : Type} [Addressed μ]

/-- The worker, the tasks it has yet to submit, whether its `wait_all` has
returned, and the scheduler. -/
structure State (σ μ : Type) where
  worker : WorkerNode σ μ × Phase μ
  unsubmitted : List Scheduler.Task
  waited : Bool
  sched : Scheduler.State

/-- What the pool and the loop of `wait_all` do by themselves. -/
def Internal : Scheduler.Action → Prop
  | .count _ => True
  | .pop _ => True
  | .release _ => True
  | .complete _ => True
  | .loadCompleted _ => True
  | .loadSubmitted _ => True
  | .waitAgain _ => True
  | _ => False

/-- The steps of `run_superstep` and of the scheduler's threads. A step of the
worker is labelled with its event. -/
inductive Step (cfg : Scheduler.Config) (pmap : PartitionMap) (compute : Compute σ μ)
    (k : Superstep) (timing : WorkerId → Nat) :
    State σ μ → Option (Event μ) → State σ μ → Prop where
  | start {w w' : WorkerNode σ μ × Phase μ} {s : Scheduler.State}
      (receive : WorkerNode.Step pmap compute k timing w .start w') :
      Step cfg pmap compute k timing ⟨w, [], false, s⟩ (some .start)
        ⟨w', (w.1.receive timing).tasks, false, s⟩
  | submit {w : WorkerNode σ μ × Phase μ} {t : Scheduler.Task} {ts : List Scheduler.Task}
      {s s' : Scheduler.State} (push : Scheduler.Step cfg s (.push 0 t) s') :
      Step cfg pmap compute k timing ⟨w, t :: ts, false, s⟩ none ⟨w, ts, false, s'⟩
  | internal {w : WorkerNode σ μ × Phase μ} {ts : List Scheduler.Task} {b : Bool}
      {s s' : Scheduler.State} {a : Scheduler.Action} (ha : Internal a)
      (act : Scheduler.Step cfg s a s') :
      Step cfg pmap compute k timing ⟨w, ts, b, s⟩ none ⟨w, ts, b, s'⟩
  | callWait {n : WorkerNode σ μ} {ts : VertexId → WorkerNode.TaskState μ}
      {s s' : Scheduler.State} (call : Scheduler.Step cfg s (.callWait 0) s') :
      Step cfg pmap compute k timing ⟨(n, .computing ts), [], false, s⟩ none
        ⟨(n, .computing ts), [], false, s'⟩
  | waitReturn {w : WorkerNode σ μ × Phase μ} {s s' : Scheduler.State}
      (ret : Scheduler.Step cfg s (.waitReturn 0) s') :
      Step cfg pmap compute k timing ⟨w, [], false, s⟩ none ⟨w, [], true, s'⟩
  | take {w w' : WorkerNode σ μ × Phase μ} {ts : List Scheduler.Task} {b : Bool}
      {s : Scheduler.State} {p : Nat × Nat} {j : Scheduler.Job} (popped : s.pool p = .popped j)
      (take : WorkerNode.Step pmap compute k timing w (.take j.task.taskId) w') :
      Step cfg pmap compute k timing ⟨w, ts, b, s⟩ (some (.take j.task.taskId)) ⟨w', ts, b, s⟩
  | execute {w w' : WorkerNode σ μ × Phase μ} {ts : List Scheduler.Task} {b : Bool}
      {s s' : Scheduler.State} {p : Nat × Nat} {j : Scheduler.Job} {inbox : List μ}
      (popped : s.pool p = .popped j)
      (call : WorkerNode.Step pmap compute k timing w (.compute j.task.taskId inbox) w')
      (act : Scheduler.Step cfg s (.execute p) s') :
      Step cfg pmap compute k timing ⟨w, ts, b, s⟩ (some (.compute j.task.taskId inbox))
        ⟨w', ts, b, s'⟩
  | finish {n : WorkerNode σ μ} {ts : VertexId → WorkerNode.TaskState μ} {s : Scheduler.State} :
      Step cfg pmap compute k timing ⟨(n, .computing ts), [], true, s⟩ (some (.finish n.outboxes))
        ⟨(n.finish pmap, .flushed), [], false, s⟩

/-! ### The join -/

/-- Every task that has not run yet is to be submitted or is a job that has not
been executed. -/
def Tracked (x : State σ μ) : Prop :=
  ∀ ts, x.worker.2 = .computing ts → ∀ vid, ts vid ≠ .none →
    vid ∈ x.unsubmitted.map Scheduler.Task.taskId ∨
      ∃ j ∈ x.sched.pushed, j ∉ x.sched.executed ∧ j.task.taskId = vid

structure Inv (cfg : Scheduler.Config) (x : State σ μ) : Prop where
  reachable : ∃ ls, Run (Scheduler.Step cfg) Scheduler.State.init ls x.sched
  tracked : Tracked x
  joined : x.waited = true → x.unsubmitted = [] ∧ Scheduler.OwnDone x.sched 0

section Inv

variable {cfg : Scheduler.Config} {pmap : PartitionMap} {compute : Compute σ μ} {k : Superstep}
  {timing : WorkerId → Nat} {x y : State σ μ} {l : Option (Event μ)}

/-- Only a push adds to the pushed jobs and only an execution to the executed
ones. -/
theorem quiet_frame {s s' : Scheduler.State} {a : Scheduler.Action}
    (push : ∀ c t, a ≠ .push c t) (execute : ∀ p, a ≠ .execute p)
    (act : Scheduler.Step cfg s a s') : s'.pushed = s.pushed ∧ s'.executed = s.executed := by
  cases act with
  | @push c t => exact absurd rfl (push c t)
  | @execute p => exact absurd rfl (execute p)
  | _ => exact ⟨rfl, rfl⟩

theorem Internal.not_push {a : Scheduler.Action} (h : Internal a) (c : Nat) (t : Scheduler.Task) :
    a ≠ .push c t := by
  rintro rfl
  exact h

theorem Internal.not_execute {a : Scheduler.Action} (h : Internal a) (p : Nat × Nat) :
    a ≠ .execute p := by
  rintro rfl
  exact h

theorem reachable_next {s s' : Scheduler.State} {a : Scheduler.Action}
    (reach : ∃ ls, Run (Scheduler.Step cfg) Scheduler.State.init ls s)
    (act : Scheduler.Step cfg s a s') :
    ∃ ls, Run (Scheduler.Step cfg) Scheduler.State.init ls s' := by
  obtain ⟨ls, run⟩ := reach
  exact ⟨ls ++ [a], run.append (.one act)⟩

omit [Addressed μ] in
/-- What a step that neither pushes, executes nor moves the worker keeps. -/
theorem Inv.frame {w : WorkerNode σ μ × Phase μ} {ts : List Scheduler.Task} {b : Bool}
    {s s' : Scheduler.State} {a : Scheduler.Action} (inv : Inv cfg ⟨w, ts, b, s⟩)
    (act : Scheduler.Step cfg s a s') (pushed : s'.pushed = s.pushed)
    (executed : s'.executed = s.executed) : Inv cfg ⟨w, ts, b, s'⟩ where
  reachable := reachable_next inv.reachable act
  tracked ts hts vid hvid := by
    have h := inv.tracked ts hts vid hvid
    simpa only [pushed, executed] using h
  joined hb := by
    have h := inv.joined hb
    simpa only [Scheduler.OwnDone, pushed, executed] using h

omit [Addressed μ] in
/-- A task whose inbox is taken is as far from done as before. -/
theorem Inv.take {n : WorkerNode σ μ} {ts : VertexId → WorkerNode.TaskState μ}
    {rest : List Scheduler.Task} {b : Bool} {s : Scheduler.State} {vid : VertexId}
    (inv : Inv cfg ⟨(n, .computing ts), rest, b, s⟩) (queued : ts vid = .queued)
    (n' : WorkerNode σ μ) (st : WorkerNode.TaskState μ) :
    Inv cfg ⟨(n', .computing (Function.update ts vid st)), rest, b, s⟩ where
  reachable := inv.reachable
  tracked ts' hts v hv := by
    cases hts
    apply inv.tracked ts rfl v
    rcases eq_or_ne v vid with rfl | hne
    · simp [queued]
    · rwa [Function.update_of_ne hne] at hv
  joined := inv.joined

omit [Addressed μ] in
/-- An executed job takes its task with it. -/
theorem Inv.execute {n : WorkerNode σ μ} {ts : VertexId → WorkerNode.TaskState μ}
    {rest : List Scheduler.Task} {b : Bool} {s s' : Scheduler.State} {p : Nat × Nat}
    {j : Scheduler.Job} (inv : Inv cfg ⟨(n, .computing ts), rest, b, s⟩)
    (popped : s.pool p = .popped j) (act : Scheduler.Step cfg s (.execute p) s')
    (n' : WorkerNode σ μ) :
    Inv cfg ⟨(n', .computing (Function.update ts j.task.taskId .none)), rest, b, s'⟩ := by
  have reach := reachable_next inv.reachable act
  cases act with
  | @execute _ j' pc =>
      obtain rfl : j' = j := by
        rw [popped] at pc
        exact (Scheduler.PoolPc.popped.inj pc).symm
      refine ⟨reach, ?_, ?_⟩
      · intro ts' hts v hv
        cases hts
        rcases eq_or_ne v j'.task.taskId with rfl | hne
        · simp at hv
        · rw [Function.update_of_ne hne] at hv
          rcases inv.tracked ts rfl v hv with hrest | ⟨i, hi, hnot, rfl⟩
          · exact Or.inl hrest
          · refine Or.inr ⟨i, hi, fun hmem => ?_, rfl⟩
            rcases List.mem_append.mp hmem with hmem | hmem
            · exact hnot hmem
            · exact hne (by rw [List.mem_singleton.mp hmem])
      · intro hb
        obtain ⟨hrest, hdone⟩ := inv.joined hb
        exact ⟨hrest, fun i hi hown => List.mem_append_left _ (hdone i hi hown)⟩

omit [Addressed μ] in
/-- A task that is submitted becomes a job. -/
theorem Inv.submit {w : WorkerNode σ μ × Phase μ} {t : Scheduler.Task}
    {rest : List Scheduler.Task} {s s' : Scheduler.State}
    (inv : Inv cfg ⟨w, t :: rest, false, s⟩) (push : Scheduler.Step cfg s (.push 0 t) s') :
    Inv cfg ⟨w, rest, false, s'⟩ := by
  have reach := reachable_next inv.reachable push
  obtain ⟨ls, run⟩ := inv.reachable
  have hsched := Scheduler.run_inv run
  cases push with
  | push client pc =>
      refine ⟨reach, ?_, fun hb => by cases hb⟩
      intro ts hts v hv
      have hnew : (⟨s.pushed.length, 0, t⟩ : Scheduler.Job) ∉ s.executed := fun hmem =>
        hsched.clients.fresh (hsched.pool.executed_sub _ hmem)
      rcases inv.tracked ts hts v hv with hrest | ⟨j, hj, hnot, rfl⟩
      · rcases List.mem_cons.mp hrest with rfl | hrest
        · exact Or.inr ⟨_, List.mem_append_right _ List.mem_cons_self, hnew, rfl⟩
        · exact Or.inl hrest
      · exact Or.inr ⟨j, List.mem_append_left _ hj, hnot, rfl⟩

omit [Addressed μ] in
/-- A `wait_all` that returns has joined. -/
theorem Inv.waitReturn (single : cfg.clients ≤ 1) {w : WorkerNode σ μ × Phase μ}
    {s s' : Scheduler.State} (inv : Inv cfg ⟨w, [], false, s⟩)
    (ret : Scheduler.Step cfg s (.waitReturn 0) s') : Inv cfg ⟨w, [], true, s'⟩ := by
  obtain ⟨ls, run⟩ := inv.reachable
  have hdone := Scheduler.joins_of_single single ls s run 0 s' ret
  obtain ⟨hpushed, hexecuted⟩ := quiet_frame (by simp) (by simp) ret
  have next := inv.frame ret hpushed hexecuted
  refine ⟨next.reachable, next.tracked, fun _ => ⟨rfl, ?_⟩⟩
  simpa only [Scheduler.OwnDone, hpushed, hexecuted] using hdone

theorem inv_step (single : cfg.clients ≤ 1) (inv : Inv cfg x)
    (step : Step cfg pmap compute k timing x l y) : Inv cfg y := by
  cases step with
  | start receive =>
      cases receive with
      | @start n nodes =>
          refine ⟨inv.reachable, ?_, fun hb => by cases hb⟩
          intro ts hts vid hvid
          cases hts
          left
          by_contra hnot
          exact hvid (if_neg hnot)
  | submit push => exact inv.submit push
  | internal ha act =>
      obtain ⟨hpushed, hexecuted⟩ := quiet_frame ha.not_push ha.not_execute act
      exact inv.frame act hpushed hexecuted
  | callWait call =>
      obtain ⟨hpushed, hexecuted⟩ := quiet_frame (by simp) (by simp) call
      exact inv.frame call hpushed hexecuted
  | waitReturn ret => exact inv.waitReturn single ret
  | take popped take =>
      cases take with
      | take queued => exact inv.take queued _ _
  | execute popped call act =>
      cases call with
      | compute running => exact inv.execute popped act _
  | finish => exact ⟨inv.reachable, fun _ hts => (by cases hts), fun hb => (by cases hb)⟩

/-- **When `wait_all` has returned, no task is left**, so every step of this system
is a step of the worker or leaves the worker alone. -/
theorem worker_step (single : cfg.clients ≤ 1) (inv : Inv cfg x)
    (step : Step cfg pmap compute k timing x l y) :
    match l with
    | none => y.worker = x.worker
    | some ev => WorkerNode.Step pmap compute k timing x.worker ev y.worker := by
  cases step with
  | start receive => exact receive
  | submit _ => rfl
  | internal _ _ => rfl
  | callWait _ => rfl
  | waitReturn _ => rfl
  | take _ take => exact take
  | execute _ call _ => exact call
  | @finish n ts s =>
      apply WorkerNode.Step.finish
      intro vid
      by_contra hvid
      obtain ⟨-, hdone⟩ := inv.joined rfl
      rcases inv.tracked ts rfl vid hvid with hrest | ⟨j, hj, hnot, -⟩
      · cases hrest
      · obtain ⟨ls, run⟩ := inv.reachable
        have hclient := (Scheduler.run_inv run).clients.owner j hj
        exact hnot (hdone j hj (by omega))

theorem worker_run (single : cfg.clients ≤ 1) {ls : List (Option (Event μ))}
    (run : Run (Step cfg pmap compute k timing) x ls y) (inv : Inv cfg x) :
    Inv cfg y ∧ Run (WorkerNode.Step pmap compute k timing) x.worker ls.reduceOption y.worker := by
  induction run with
  | nil => exact ⟨inv, .nil _⟩
  | @cons x m y l ls step _ ih =>
      obtain ⟨hinv, rest⟩ := ih (inv_step single inv step)
      refine ⟨hinv, ?_⟩
      have hworker := worker_step single inv step
      cases l with
      | none =>
          rw [← show m.worker = x.worker from hworker, List.reduceOption_cons_of_none]
          exact rest
      | some ev =>
          rw [List.reduceOption_cons_of_some]
          exact .cons hworker rest

end Inv

/-! ### Supersteps -/

/-- A call of `run_superstep`, with any timing and any schedule. The scheduler
lives on from call to call. -/
def RunSuperstep (cfg : Scheduler.Config) (pmap : PartitionMap) (compute : Compute σ μ)
    (x : Superstep × WorkerNode σ μ × Scheduler.State) (tr : List (Event μ))
    (y : Superstep × WorkerNode σ μ × Scheduler.State) : Prop :=
  y.1 = x.1 + 1 ∧ ∃ timing ls,
    Run (Step cfg pmap compute x.1 timing) ⟨(x.2.1, .ready), [], false, x.2.2⟩ ls
      ⟨(y.2.1, .flushed), [], false, y.2.2⟩ ∧
    tr = ls.reduceOption

section Supersteps

variable {cfg : Scheduler.Config} {e : GraphEngine σ μ} {compute : Compute σ μ}

/-- The worker of an engine that has come this far. -/
def Follows (cfg : Scheduler.Config) (e : GraphEngine σ μ)
    (x : Superstep × WorkerNode σ μ × Scheduler.State) (y : Superstep × GraphEngine σ μ) : Prop :=
  y.1 = x.1 ∧ y.2.workers 0 = x.2.1 ∧ y.2.config = e.config ∧ y.2.pmap = e.pmap ∧
    ∃ ls, Run (Scheduler.Step cfg) Scheduler.State.init ls x.2.2

theorem follows_next (single : cfg.clients ≤ 1) (one : e.config.workerCount = 1)
    {x x' : Superstep × WorkerNode σ μ × Scheduler.State} {tr : List (Event μ)}
    {y : Superstep × GraphEngine σ μ} (call : RunSuperstep cfg e.pmap compute x tr x')
    (h : Follows cfg e x y) :
    ∃ y', GraphEngine.NextSuperstep compute y (tr.map (Prod.mk 0)) y' ∧ Follows cfg e x' y' := by
  obtain ⟨hk, timing, ls, run, rfl⟩ := call
  obtain ⟨hy, hworker, hconfig, hpmap, hreach⟩ := h
  have inv : Inv cfg (⟨(x.2.1, .ready), [], false, x.2.2⟩ : State σ μ) :=
    ⟨hreach, fun _ hts => (by cases hts), fun hb => (by cases hb)⟩
  obtain ⟨inv', wrun⟩ := worker_run single run inv
  rw [← hworker, ← hpmap, ← hy] at wrun
  have super := GraphEngine.superstepRun_single (t := fun _ => timing) (hconfig ▸ one) wrun
  refine ⟨(y.1 + 1, _), ⟨rfl, _, super⟩, ?_, ?_, hconfig, hpmap, inv'.reachable⟩
  · rw [hk, hy]
  · simp

/-- The calls of `run_superstep` on the only worker are an execution of the engine. -/
theorem execution_of_calls (single : cfg.clients ≤ 1) (one : e.config.workerCount = 1)
    {trs : List (List (Event μ))} {k : Nat} {n : WorkerNode σ μ} {s : Scheduler.State}
    (run : Run (RunSuperstep cfg e.pmap compute) (0, e.workers 0, Scheduler.State.init) trs
      (k, n, s)) :
    ∃ e', GraphEngine.Execution compute e (trs.map (List.map (Prod.mk 0))) k e' ∧
      e'.workers 0 = n := by
  have start : Follows cfg e (0, e.workers 0, Scheduler.State.init) (0, e) :=
    ⟨rfl, rfl, rfl, rfl, [], .nil _⟩
  obtain ⟨⟨k', e'⟩, exec, hk, hworker, -⟩ := Run.simulation (Follows cfg e)
    (List.map (Prod.mk 0)) (fun _ _ _ _ call h => follows_next single one call h) run start
  obtain rfl : k' = k := hk
  exact ⟨e', exec, hworker⟩

end Supersteps

/-! ### A superstep can always be run -/

/-- A scheduler at rest. -/
structure AtRest (s : Scheduler.State) : Prop where
  client : s.clients 0 = .idle
  queues : ∀ q, (s.queues q).tasks = []
  pool : ∀ p, s.pool p = .idle
  totals : s.totalSubmitted = s.totalCompleted

section Existence

variable {cfg : Scheduler.Config} (nodes : 0 < cfg.numaNodes) (threads : 0 < cfg.threadsPerNode)
  (client : 0 < cfg.clients) (pmap : PartitionMap) (compute : Compute σ μ) (k : Superstep)
  (timing : WorkerId → Nat)

include nodes threads client

/-- One task, executed by the first thread of its node right after its submission. -/
theorem run_task {s : Scheduler.State} (rest : AtRest s) (n : WorkerNode σ μ)
    (t : Scheduler.Task) (ts : List Scheduler.Task) {vids : List VertexId}
    (hnot : t.taskId ∉ vids) :
    ∃ ls s', Run (Step cfg pmap compute k timing)
      ⟨(n, .computing (WorkerNode.queuedOn (t.taskId :: vids))), t :: ts, false, s⟩ ls
      ⟨(n.runTask compute k t.taskId, .computing (WorkerNode.queuedOn vids)), ts, false, s'⟩ ∧
      AtRest s' := by
  have hnode : cfg.nodeOf t < cfg.numaNodes := Nat.mod_lt _ nodes
  have htake : WorkerNode.Step pmap compute k timing
      (n, .computing (WorkerNode.queuedOn (t.taskId :: vids))) (.take t.taskId) _ :=
    .take (by simp [WorkerNode.queuedOn])
  have hcall : WorkerNode.Step pmap compute k timing
      (n.eraseInbox t.taskId, .computing (Function.update
        (WorkerNode.queuedOn (t.taskId :: vids)) t.taskId (.running (n.inboxOf t.taskId))))
      (.compute t.taskId (n.inboxOf t.taskId)) _ := .compute (by simp)
  rw [WorkerNode.queuedOn_cons hnot] at hcall
  have hpopped : ∀ pool : Nat × Nat → Scheduler.PoolPc, Function.update pool (cfg.nodeOf t, 0)
      (.popped ⟨s.pushed.length, 0, t⟩) (cfg.nodeOf t, 0) = .popped ⟨s.pushed.length, 0, t⟩ :=
    fun _ => Function.update_self ..
  refine ⟨_, _, .cons (.submit (.push client rest.client)) <|
    .cons (.internal (a := .count 0) trivial
      (.count (j := ⟨s.pushed.length, 0, t⟩) (by simp))) <|
    .cons (.internal (a := .pop (cfg.nodeOf t, 0)) trivial
      (.pop (j := ⟨s.pushed.length, 0, t⟩) (r := []) hnode threads (rest.pool _)
        (by simp [rest.queues]))) <|
    .cons (.take (hpopped _) htake) <|
    .cons (.execute (hpopped _) hcall (.execute (hpopped _))) <|
    .cons (.internal (a := .release (cfg.nodeOf t, 0)) trivial
      (.release (j := ⟨s.pushed.length, 0, t⟩) (by simp))) <|
    .one (.internal (a := .complete (cfg.nodeOf t, 0)) trivial
      (.complete (j := ⟨s.pushed.length, 0, t⟩) (by simp))), ?_⟩
  constructor
  · simp
  · intro q
    by_cases hq : q = cfg.nodeOf t
    · simp [hq]
    · simp [hq, rest.queues]
  · intro p
    by_cases hp : p = (cfg.nodeOf t, 0)
    · simp [hp]
    · simp [hp, rest.pool]
  · simp [rest.totals]

/-- All tasks, one after the other. -/
theorem run_tasks (ts : List Scheduler.Task) (nodup : (ts.map Scheduler.Task.taskId).Nodup)
    {s : Scheduler.State} (rest : AtRest s) (n : WorkerNode σ μ) :
    ∃ ls s', Run (Step cfg pmap compute k timing)
      ⟨(n, .computing (WorkerNode.queuedOn (ts.map Scheduler.Task.taskId))), ts, false, s⟩ ls
      ⟨((ts.map Scheduler.Task.taskId).foldl (WorkerNode.runTask compute k) n,
        .computing (WorkerNode.queuedOn [])), [], false, s'⟩ ∧ AtRest s' := by
  induction ts generalizing s n with
  | nil => exact ⟨[], s, .nil _, rest⟩
  | cons t ts ih =>
      obtain ⟨hnot, hnodup⟩ := List.nodup_cons.mp nodup
      obtain ⟨ls, s', first, rest'⟩ := run_task nodes threads client pmap compute k timing rest n
        t ts hnot
      obtain ⟨ls', s'', second, rest''⟩ := ih hnodup rest' (n.runTask compute k t.taskId)
      exact ⟨ls ++ ls', s'', first.append second, rest''⟩

/-- **A superstep can always be run**, and leaves the scheduler at rest. -/
theorem exists_runSuperstep {s : Scheduler.State} (rest : AtRest s) {n : WorkerNode σ μ}
    (numa : 0 < n.config.numaNodes) (timing : WorkerId → Nat) :
    ∃ tr n' s', RunSuperstep cfg pmap compute (k, n, s) tr (k + 1, n', s') ∧
      n'.config = n.config ∧ AtRest s' := by
  obtain ⟨ls, s', run, rest'⟩ := run_tasks nodes threads client pmap compute k timing
    (n.receive timing).tasks (n.receive timing).nodup_taskIds rest (n.receive timing).wake
  have hstart : Step cfg pmap compute k timing ⟨(n, .ready), [], false, s⟩ _ _ :=
    .start (.start numa)
  refine ⟨_, _, _, ⟨rfl, timing, _, .append (.cons hstart run) <|
    .cons (.callWait (.callWait client rest'.client)) <|
    .cons (.internal (a := .loadCompleted 0) trivial (.loadCompleted (by simp))) <|
    .cons (.waitReturn (.submittedReturn (n := s'.totalCompleted) (by simp)
      (by simp [rest'.totals]))) <|
    .one .finish, rfl⟩, ?_, ?_⟩
  · show (n.runSuperstep pmap compute k timing).config = n.config
    exact WorkerNode.runSuperstep_config n
  · exact ⟨by simp, rest'.queues, rest'.pool, rest'.totals⟩

theorem exists_calls {n : WorkerNode σ μ} (numa : 0 < n.config.numaNodes) (k : Nat) :
    ∃ trs n' s, Run (RunSuperstep cfg pmap compute) (0, n, Scheduler.State.init) trs (k, n', s) := by
  suffices ∃ trs n' s, Run (RunSuperstep cfg pmap compute) (0, n, Scheduler.State.init) trs
      (k, n', s) ∧ n'.config = n.config ∧ AtRest s by
    obtain ⟨trs, n', s, run, -⟩ := this
    exact ⟨trs, n', s, run⟩
  induction k with
  | zero => exact ⟨[], n, Scheduler.State.init, .nil _, rfl, ⟨rfl, fun _ => rfl, fun _ => rfl, rfl⟩⟩
  | succ k ih =>
      obtain ⟨trs, n', s, run, hconfig, rest⟩ := ih
      obtain ⟨tr, n'', s', call, hconfig', rest'⟩ := exists_runSuperstep nodes threads client pmap
        compute k rest (hconfig ▸ numa) fun _ => 0
      exact ⟨trs ++ [tr], n'', s', run.append (.one call), hconfig'.trans hconfig, rest'⟩

end Existence

/-! ### Refinement of the reference semantics -/

/-- With one worker every vertex can reach every other. -/
theorem coLocated_one {pmap : PartitionMap} (one : pmap.workerCount = 1)
    (noOverride : pmap.overrides = fun _ => none) : pmap.coLocated = fun _ _ => true := by
  funext u v
  simp [PartitionMap.coLocated, PartitionMap.ownerOf, noOverride, one, Nat.mod_one]

/-- The calls `run_superstep(0 .. k - 1)` can be made, and whatever the threads of
the scheduler and of the transport do, they are `k` supersteps of the reference
semantics: the same calls of `compute` with the right inboxes, and the same vertices
after them. The number returned last is the number of vertices that are not
halted. -/
def RefinesReference (compute : Compute σ μ) (config : EngineConfig) (threads : Nat)
    (vertices : List (Vertex σ μ)) (k : Nat) : Prop :=
  (∃ trs n s, Run (RunSuperstep ⟨config.numaNodes, threads, 1⟩ ⟨1, fun _ => none⟩ compute)
    (0, (GraphEngine.load config vertices).workers 0, Scheduler.State.init) trs (k, n, s)) ∧
  ∀ trs n s, Run (RunSuperstep ⟨config.numaNodes, threads, 1⟩ ⟨1, fun _ => none⟩ compute)
      (0, (GraphEngine.load config vertices).workers 0, Scheduler.State.init) trs (k, n, s) →
    ∃ t, Run (Bsp.Reference (program compute))
        (0, ⟨fun vid => vertices.find? fun v => v.id = vid, fun _ => []⟩)
        (trs.map WorkerNode.calls) (k, t) ∧
      (∀ vid, n.vertices.lookup vid = t.vertices vid) ∧
      n.active = {vid | ∃ v, t.vertices vid = some v ∧ v.halted = false}.ncard

/-- **A single worker refines the reference semantics**, for vertices with distinct
ids and outboxes as the constructor leaves them. -/
theorem single_worker_refines (compute : Compute σ μ) {config : EngineConfig}
    (one : config.workerCount = 1) (numa : 1 ≤ config.numaNodes) {threads : Nat}
    (pool : 1 ≤ threads) {vertices : List (Vertex σ μ)}
    (distinct : (vertices.map Vertex.id).Nodup) (fresh : ∀ v ∈ vertices, v.outbox = [])
    (k : Nat) : RefinesReference compute config threads vertices k := by
  have hpmap : (GraphEngine.load config vertices).pmap = ⟨1, fun _ => none⟩ := by
    rw [GraphEngine.load_pmap, one]
  refine ⟨?_, ?_⟩
  · have hnodes : 0 < (⟨config.numaNodes, threads, 1⟩ : Scheduler.Config).numaNodes := numa
    exact exists_calls hnodes pool Nat.one_pos _ compute (GraphEngine.load_nodes numa vertices 0) k
  · intro trs n s run
    rw [← hpmap] at run
    have hone : (GraphEngine.load config vertices).config.workerCount = 1 := by
      rw [GraphEngine.load_config, one]
    obtain ⟨e, exec, rfl⟩ := execution_of_calls (Nat.le_refl 1) hone run
    have href := GraphEngine.load_refines (one ▸ Nat.one_pos) fresh
    obtain ⟨t, bsp, href'⟩ := GraphEngine.execution_refines href exec
    have hlookup : ∀ vid, (e.workers 0).vertices.lookup vid = t.vertices vid := by
      intro vid
      have howner : e.pmap.ownerOf vid = 0 := by
        rw [(GraphEngine.execution_frame exec).2, hpmap]
        exact Nat.mod_one vid
      rw [href'.vertices, howner]
    refine ⟨t, ?_, hlookup, ?_⟩
    · have hcalls : ∀ tr : List (Event μ), GraphEngine.calls (tr.map (Prod.mk 0)) =
          WorkerNode.calls tr := by
        intro tr
        simp [GraphEngine.calls, Function.comp_def]
      have hinit : GraphEngine.initially vertices =
          ⟨fun vid => vertices.find? fun v => v.id = vid, fun _ => []⟩ := by
        unfold GraphEngine.initially
        simp only [GraphEngine.lastWith_eq_find distinct, Option.or_none]
      rw [List.map_map, hinit, hpmap, coLocated_one rfl rfl] at bsp
      simp only [Function.comp_def, hcalls] at bsp
      exact bsp
    · rw [WorkerNode.active, AList.countP_entries_eq_ncard fun _ (v : Vertex σ μ) => !v.halted]
      simp [hlookup]

/-- Two vertices on one worker, over the transport and its scheduler. -/
theorem single_worker_refines_pair :
    RefinesReference GraphEngine.pingPong { workerCount := 1 } 4 GraphEngine.pairVertices 3 :=
  single_worker_refines GraphEngine.pingPong rfl (by decide) (by decide) (by decide) (by decide) 3

end Pregel.SingleWorker
