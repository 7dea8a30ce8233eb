import Pregel.Lifecycle
import Pregel.SharedScheduler

/-!
The threads of an engine execute it and never get stuck.

In the runs of `Scheduler.CountedStep`, `wait_all` reads `total_completed_` first and no task
is completed before its submission is counted. Such a run can be continued to the end of its
superstep from wherever it is: the workers submit what they have left, the threads of the
scheduler empty the queues, and every `wait_all` returns.

* `WorkerPc.Allows`, `Live`: where a worker may be while its thread is inside the scheduler,
  and `live_step`.
* `exists_submitted`, `exists_drained`, `exists_flushed`: the three parts of the
  continuation.
* `Between`, `Between.exists_run`: from superstep to superstep.
* `execution_of_threads`, `threads_finish`: what the threads do, and that they can.
* `shutdown_completes`: the end of the scheduler after the supersteps.
-/

namespace Pregel.SharedScheduler

open Lts
open WorkerNode (Phase Event TaskState)
open SingleWorker (Internal quiet_frame)

variable {σ μ : Type}

/-- Where the client of a worker may be. -/
def WorkerPc.Allows : WorkerPc → Scheduler.ClientPc → Prop
  | .submitting _, .pushed _ => True
  | .waiting, .waiting => True
  | .waiting, .sawCompleted _ => True
  | .waiting, _ => False
  | _, .idle => True
  | _, _ => False

theorem WorkerPc.Allows.submitting {pc : WorkerPc} {j : Scheduler.Job}
    (h : pc.Allows (.pushed j)) : ∃ ts, pc = .submitting ts := by
  cases pc with
  | submitting ts => exact ⟨ts, rfl⟩
  | ready => exact False.elim h
  | waiting => exact False.elim h
  | waited => exact False.elim h
  | flushed => exact False.elim h

/-- A worker whose client is in the loop of `wait_all`. -/
theorem WorkerPc.Allows.waiting {pc : WorkerPc} {c : Scheduler.ClientPc} (h : pc.Allows c)
    (loop : c = .waiting ∨ ∃ n, c = .sawCompleted n) : pc = .waiting := by
  rcases loop with rfl | ⟨n, rfl⟩
  all_goals
    cases pc with
    | waiting => rfl
    | ready => exact False.elim h
    | submitting ts => exact False.elim h
    | waited => exact False.elim h
    | flushed => exact False.elim h

theorem WorkerPc.not_allows_sawSubmitted {pc : WorkerPc} {n : Nat} :
    ¬ pc.Allows (.sawSubmitted n) := by
  cases pc <;> exact id

/-- Outside `submit_bulk` and `wait_all` no call is going on. -/
theorem WorkerPc.Allows.idle {pc : WorkerPc} {c : Scheduler.ClientPc} (h : pc.Allows c)
    (outside : pc = .ready ∨ pc = .waited ∨ pc = .flushed) : c = .idle := by
  rcases outside with rfl | rfl | rfl
  all_goals
    cases c with
    | idle => rfl
    | pushed j => exact False.elim h
    | waiting => exact False.elim h
    | sawCompleted n => exact False.elim h
    | sawSubmitted n => exact False.elim h

/-- The worker has submitted all its tasks. -/
def WorkerPc.past : WorkerPc → Prop
  | .ready => False
  | .submitting _ => False
  | _ => True

/-- What is needed to go on. -/
structure Live (cfg : Scheduler.Config) (k : Superstep) (x : State σ μ) : Prop where
  inv : Inv (Scheduler.CountedStep cfg) cfg.clients k x
  aligned : ∀ i, (x.pcs i).Allows (x.pool.sched.clients i)
  nodes : ∀ i, 0 < (x.nodes i).config.numaNodes

section Steps

variable [Addressed μ] {cfg : Scheduler.Config} {e : GraphEngine σ μ} {compute : Compute σ μ}
  {k : Superstep} {timing : WorkerId → WorkerId → Nat} {x y : State σ μ}

omit [Addressed μ] in
theorem allows_update {pcs : WorkerId → WorkerPc} {clients : Nat → Scheduler.ClientPc}
    (aligned : ∀ i, (pcs i).Allows (clients i)) (i' : WorkerId) {pc : WorkerPc}
    {c : Scheduler.ClientPc} (h : pc.Allows c) (i : WorkerId) :
    (Function.update pcs i' pc i).Allows (Function.update clients i' c i) := by
  rcases eq_or_ne i i' with rfl | hne
  · rw [Function.update_self, Function.update_self]
    exact h
  · rw [Function.update_of_ne hne, Function.update_of_ne hne]
    exact aligned i

/-- The thread of a worker follows the worker. -/
theorem aligned_step {l : Option (WorkerId × Event μ)}
    (aligned : ∀ i, (x.pcs i).Allows (x.pool.sched.clients i))
    (step : Step (Scheduler.CountedStep cfg) e compute k timing x l y) (i : WorkerId) :
    (y.pcs i).Allows (y.pool.sched.clients i) := by
  -- only the worker moves, or only its client
  have worker : ∀ {i' pc}, pc.Allows (x.pool.sched.clients i') →
      (Function.update x.pcs i' pc i).Allows (x.pool.sched.clients i) := by
    intro i' pc h
    simpa only [Function.update_eq_self] using allows_update aligned i' h i
  have client : ∀ {i' c}, (x.pcs i').Allows c →
      (x.pcs i).Allows (Function.update x.pool.sched.clients i' c i) := by
    intro i' c h
    simpa only [Function.update_eq_self] using allows_update aligned i' h i
  cases step with
  | @start i' _ pc nodes =>
      apply worker
      rw [(aligned i').idle (Or.inl pc)]
      trivial
  | submit pc push =>
      obtain ⟨hstep, -, -⟩ := push
      cases hstep with
      | push => exact allows_update aligned _ (by simp [WorkerPc.Allows]) i
  | internal ha step =>
      obtain ⟨hstep, -, hload⟩ := step
      cases hstep with
      | @count c j pc =>
          have hc := aligned c
          rw [pc] at hc
          obtain ⟨ts, hts⟩ := hc.submitting
          apply client
          rw [hts]
          trivial
      | @loadCompleted c pc =>
          apply client
          rw [(aligned c).waiting (Or.inl pc)]
          trivial
      | @submittedAgain c n pc less =>
          apply client
          rw [(aligned c).waiting (Or.inr ⟨n, pc⟩)]
          trivial
      | @completedAgain c n pc less =>
          -- `total_submitted_` is never loaded first
          have hc := aligned c
          rw [pc] at hc
          exact absurd hc WorkerPc.not_allows_sawSubmitted
      | @loadSubmitted c pc => exact absurd rfl (hload c)
      | pop => exact aligned i
      | release => exact aligned i
      | complete => exact aligned i
      | push => exact absurd ha (by simp [Internal])
      | execute => exact absurd ha (by simp [Internal])
      | callWait => exact absurd ha (by simp [Internal])
      | submittedReturn => exact absurd ha (by simp [Internal])
      | completedReturn => exact absurd ha (by simp [Internal])
  | callWait pc call =>
      obtain ⟨hstep, -, -⟩ := call
      cases hstep with
      | callWait => exact allows_update aligned _ (by simp [WorkerPc.Allows]) i
  | waitReturn pc ret =>
      obtain ⟨hstep, -, -⟩ := ret
      cases hstep with
      | submittedReturn => exact allows_update aligned _ (by simp [WorkerPc.Allows]) i
      | completedReturn => exact allows_update aligned _ (by simp [WorkerPc.Allows]) i
  | take => exact aligned i
  | execute popped taken step =>
      obtain ⟨hstep, -, -⟩ := step
      cases hstep with
      | execute => exact aligned i
  | @finish i' pc =>
      apply worker
      rw [(aligned i').idle (Or.inr (Or.inl pc))]
      trivial

/-- The configuration of a worker never changes. -/
theorem config_step {act : Scheduler.State → Scheduler.Action → Scheduler.State → Prop}
    {l : Option (WorkerId × Event μ)} (step : Step act e compute k timing x l y) (i : WorkerId) :
    (y.nodes i).config = (x.nodes i).config := by
  have hother : ∀ {i' : WorkerId} {n : WorkerNode σ μ}, n.config = (x.nodes i').config →
      (Function.update x.nodes i' n i).config = (x.nodes i).config := by
    intro i' n hn
    rcases eq_or_ne i i' with rfl | hne
    · rw [Function.update_self, hn]
    · rw [Function.update_of_ne hne]
  cases step with
  | start => exact hother rfl
  | take => exact hother rfl
  | execute => exact hother rfl
  | finish => exact hother rfl
  | _ => rfl

theorem live_step (clients : cfg.clients = e.config.workerCount)
    {l : Option (WorkerId × Event μ)} (live : Live cfg k x)
    (step : Step (Scheduler.CountedStep cfg) e compute k timing x l y) : Live cfg k y where
  inv := by
    have inv := live.inv
    rw [clients] at inv ⊢
    exact inv_step (joining_counted cfg) inv step
  aligned := aligned_step live.aligned step
  nodes i := by
    rw [config_step step i]
    exact live.nodes i

theorem live_run (clients : cfg.clients = e.config.workerCount)
    {ls : List (Option (WorkerId × Event μ))} (live : Live cfg k x)
    (run : Run (Step (Scheduler.CountedStep cfg) e compute k timing) x ls y) : Live cfg k y :=
  run.invariant (Live cfg k) (fun _ _ _ live step => live_step clients live step) live

end Steps

/-- A step that neither completes a task nor loads `total_submitted_`. -/
theorem countedStep {cfg : Scheduler.Config} {s t : Scheduler.State} {a : Scheduler.Action}
    (step : Scheduler.Step cfg s a t) (complete : ∀ p, a ≠ .complete p)
    (load : ∀ c, a ≠ .loadSubmitted c) : Scheduler.CountedStep cfg s a t :=
  ⟨step, fun p _ ha => absurd ha (complete p), load⟩

section Progress

variable [Addressed μ] {cfg : Scheduler.Config} {e : GraphEngine σ μ} (compute : Compute σ μ)
  {k : Superstep} (timing : WorkerId → WorkerId → Nat) {x : State σ μ} {i : WorkerId}
  (clients : cfg.clients = e.config.workerCount)

include clients

/-! ### The submission -/

/-- A worker in `submit_bulk` comes to the end of `submit`. -/
theorem exists_idle (live : Live cfg k x) {ts : List Scheduler.Task}
    (pc : x.pcs i = .submitting ts) :
    ∃ ls y, Run (Step (Scheduler.CountedStep cfg) e compute k timing) x ls y ∧ Live cfg k y ∧
      y.pcs = x.pcs ∧ y.pool.sched.clients i = .idle := by
  have haligned := live.aligned i
  rw [pc] at haligned
  cases hc : x.pool.sched.clients i with
  | idle => exact ⟨[], x, .nil x, live, rfl, hc⟩
  | pushed j =>
      have step : Step (Scheduler.CountedStep cfg) e compute k timing x none _ :=
        .internal (a := .count i) trivial (countedStep (.count hc) (by simp) (by simp))
      exact ⟨_, _, .one step, live_step clients live step, rfl, Function.update_self ..⟩
  | waiting => simp [hc, WorkerPc.Allows] at haligned
  | sawCompleted n => simp [hc, WorkerPc.Allows] at haligned
  | sawSubmitted n => simp [hc, WorkerPc.Allows] at haligned

/-- It submits what is left and calls `wait_all`. -/
theorem exists_waiting (live : Live cfg k x) (hi : i < cfg.clients) {ts : List Scheduler.Task}
    (pc : x.pcs i = .submitting ts) :
    ∃ ls y, Run (Step (Scheduler.CountedStep cfg) e compute k timing) x ls y ∧ Live cfg k y ∧
      y.pcs = Function.update x.pcs i .waiting := by
  induction ts generalizing x with
  | nil =>
      obtain ⟨ls, m, first, live', hpcs, hidle⟩ := exists_idle compute timing clients
        live pc
      have step : Step (Scheduler.CountedStep cfg) e compute k timing m none _ :=
        .callWait (hpcs ▸ pc) (countedStep (.callWait hi hidle) (by simp) (by simp))
      exact ⟨_, _, first.append (.one step), live_step clients live' step,
        congrArg (Function.update · i WorkerPc.waiting) hpcs⟩
  | cons t ts ih =>
      obtain ⟨ls, m, first, live', hpcs, hidle⟩ := exists_idle compute timing clients
        live pc
      have step : Step (Scheduler.CountedStep cfg) e compute k timing m none _ :=
        .submit (hpcs ▸ pc) (countedStep (.push hi hidle) (by simp) (by simp))
      obtain ⟨ls', y, rest, live'', hy⟩ := ih (live_step clients live' step) (by simp)
      refine ⟨_, y, (first.append (.one step)).append rest, live'', ?_⟩
      rw [hy]
      simp [hpcs]

/-- All workers submit their tasks. -/
theorem exists_submitted (live : Live cfg k x) :
    ∃ ls y, Run (Step (Scheduler.CountedStep cfg) e compute k timing) x ls y ∧ Live cfg k y ∧
      ∀ i < cfg.clients, (y.pcs i).past := by
  refine exists_run_forall_lt (Live cfg k) (fun i y => (y.pcs i).past) cfg.clients ?_ live
  intro i hi x live
  have submit : ∀ {x : State σ μ} {ts}, Live cfg k x → x.pcs i = .submitting ts →
      ∃ ls y, Run (Step (Scheduler.CountedStep cfg) e compute k timing) x ls y ∧ Live cfg k y ∧
        (y.pcs i).past ∧ ∀ i', (x.pcs i').past → (y.pcs i').past := by
    intro x ts live pc
    obtain ⟨ls, y, run, live', hy⟩ := exists_waiting compute timing clients live hi pc
    refine ⟨ls, y, run, live', by simp [hy, WorkerPc.past], fun i' hi' => ?_⟩
    rw [hy]
    rcases eq_or_ne i' i with rfl | hne
    · simp [WorkerPc.past]
    · simpa [hne] using hi'
  cases pc : x.pcs i with
  | ready =>
      have step : Step (Scheduler.CountedStep cfg) e compute k timing x _ _ :=
        .start (clients ▸ hi) pc (live.nodes i)
      obtain ⟨ls, y, run, live', hpast, hothers⟩ := submit (live_step clients live step)
        (Function.update_self ..)
      refine ⟨_, y, .cons step run, live', hpast, fun i' hi' => hothers i' ?_⟩
      rcases eq_or_ne i' i with rfl | hne
      · simp [pc, WorkerPc.past] at hi'
      · simpa [hne] using hi'
  | submitting ts => exact submit live pc
  | waiting => exact ⟨[], x, .nil x, live, by simp [pc, WorkerPc.past], fun _ h => h⟩
  | waited => exact ⟨[], x, .nil x, live, by simp [pc, WorkerPc.past], fun _ h => h⟩
  | flushed => exact ⟨[], x, .nil x, live, by simp [pc, WorkerPc.past], fun _ h => h⟩

/-! ### The tasks -/

omit [Addressed μ] clients in
/-- When every worker has submitted its tasks, every task is counted. -/
theorem Live.counted (live : Live cfg k x) (past : ∀ i < cfg.clients, (x.pcs i).past)
    {j : Scheduler.Job} (hj : j ∈ x.pool.sched.pushed) : j ∈ x.pool.sched.counted := by
  have hsched := live.inv.sched (joining_counted cfg)
  rcases hsched.clients.counted_or_mid j hj with hcounted | hmid
  · exact hcounted
  · have haligned := live.aligned j.client
    have hpast := past j.client (hsched.clients.owner j hj)
    rw [hmid] at haligned
    obtain ⟨ts, hts⟩ := haligned.submitting
    rw [hts] at hpast
    exact False.elim hpast

omit clients in
variable (cfg e k x) in
/-- The threads of the scheduler can complete another task. -/
def Closer : Prop :=
  ∃ ls y, Run (Step (Scheduler.CountedStep cfg) e compute k timing) x ls y ∧ y.pcs = x.pcs ∧
    y.pool.sched.pushed = x.pool.sched.pushed ∧
    x.pool.sched.completed.length < y.pool.sched.completed.length

omit clients in
theorem Closer.cons {y : State σ μ} {l : Option (WorkerId × Event μ)}
    (step : Step (Scheduler.CountedStep cfg) e compute k timing x l y) (pcs : y.pcs = x.pcs)
    (pushed : y.pool.sched.pushed = x.pool.sched.pushed)
    (completed : y.pool.sched.completed = x.pool.sched.completed)
    (closer : Closer cfg e compute k timing y) : Closer cfg e compute k timing x := by
  obtain ⟨ls, z, run, hpcs, hpushed, hcompleted⟩ := closer
  exact ⟨_, z, .cons step run, hpcs.trans pcs, hpushed.trans pushed, completed ▸ hcompleted⟩

omit clients in
theorem closer_of_released (live : Live cfg k x) (past : ∀ i < cfg.clients, (x.pcs i).past)
    {p : Nat × Nat} {j : Scheduler.Job} (pc : x.pool.sched.pool p = .released j) :
    Closer cfg e compute k timing x := by
  have hsched := live.inv.sched (joining_counted cfg)
  have hcounted := live.counted past (hsched.pool.held p j (by simp [pc, Scheduler.PoolPc.job])).1
  have hallowed : ∀ q j', Scheduler.Action.complete p = .complete q →
      x.pool.sched.pool q = .released j' → j' ∈ x.pool.sched.counted := by
    intro q j' hq hj'
    obtain rfl := Scheduler.Action.complete.inj hq
    rw [pc] at hj'
    rw [← Scheduler.PoolPc.released.inj hj']
    exact hcounted
  exact ⟨_, _, .one (.internal (a := .complete p) trivial ⟨.complete pc, hallowed, by simp⟩), rfl,
    rfl, by simp⟩

theorem closer_of_executed (live : Live cfg k x) (past : ∀ i < cfg.clients, (x.pcs i).past)
    {p : Nat × Nat} {j : Scheduler.Job} (pc : x.pool.sched.pool p = .executed j) :
    Closer cfg e compute k timing x := by
  have step : Step (Scheduler.CountedStep cfg) e compute k timing x none _ :=
    .internal (a := .release p) trivial (countedStep (.release pc) (by simp) (by simp))
  exact .cons compute timing step rfl rfl rfl (closer_of_released compute timing
    (live_step clients live step) past (Function.update_self ..))

theorem closer_of_taken (live : Live cfg k x) (past : ∀ i < cfg.clients, (x.pcs i).past)
    {p : Nat × Nat} {j : Scheduler.Job} {inbox : List μ} (pc : x.pool.sched.pool p = .popped j)
    (taken : x.pool.localInbox p = some inbox) : Closer cfg e compute k timing x := by
  have step : Step (Scheduler.CountedStep cfg) e compute k timing x _ _ :=
    .execute pc taken (countedStep (.execute pc) (by simp) (by simp))
  exact .cons compute timing step rfl rfl rfl (closer_of_executed compute timing clients
    (live_step clients live step) past (Function.update_self ..))

theorem closer_of_popped (live : Live cfg k x) (past : ∀ i < cfg.clients, (x.pcs i).past)
    {p : Nat × Nat} {j : Scheduler.Job} (pc : x.pool.sched.pool p = .popped j) :
    Closer cfg e compute k timing x := by
  cases taken : x.pool.localInbox p with
  | some inbox => exact closer_of_taken compute timing clients live past pc taken
  | none =>
      have step : Step (Scheduler.CountedStep cfg) e compute k timing x _ _ := .take pc taken
      exact .cons compute timing step rfl rfl rfl (closer_of_taken compute timing clients
        (live_step clients live step) past pc (Function.update_self ..))

/-- A thread that holds a task completes it. -/
theorem closer_of_held (live : Live cfg k x) (past : ∀ i < cfg.clients, (x.pcs i).past)
    {p : Nat × Nat} (busy : x.pool.sched.pool p ≠ .idle) : Closer cfg e compute k timing x := by
  cases pc : x.pool.sched.pool p with
  | idle => exact absurd pc busy
  | popped j => exact closer_of_popped compute timing clients live past pc
  | executed j => exact closer_of_executed compute timing clients live past pc
  | released j => exact closer_of_released compute timing live past pc

/-- The first thread of a node takes the next task of its queue, if it is free. -/
theorem closer_of_queued (threads : 0 < cfg.threadsPerNode) (live : Live cfg k x)
    (past : ∀ i < cfg.clients, (x.pcs i).past) {q : Nat} (node : q < cfg.numaNodes)
    {j : Scheduler.Job} {rest : List Scheduler.Job}
    (queue : (x.pool.sched.queues q).tasks = j :: rest) : Closer cfg e compute k timing x := by
  by_cases free : x.pool.sched.pool (q, 0) = .idle
  · have step : Step (Scheduler.CountedStep cfg) e compute k timing x none _ :=
      .internal (a := .pop (q, 0)) trivial
        (countedStep (.pop node threads free queue) (by simp) (by simp))
    exact .cons compute timing step rfl rfl rfl (closer_of_popped compute timing clients
      (live_step clients live step) past (Function.update_self ..))
  · exact closer_of_held compute timing clients live past free

omit [Addressed μ] clients in
theorem Live.account (live : Live cfg k x) : ∃ h, Scheduler.Account cfg x.pool.sched h := by
  obtain ⟨ls, run⟩ := live.inv.reachable
  obtain ⟨h, observed⟩ := Scheduler.observed_of_run (run.mono fun _ _ _ step => step.1) {}
  exact ⟨h, (Scheduler.run_account observed).2⟩

/-- The threads of the scheduler complete every task. -/
theorem exists_drained (nodes : 0 < cfg.numaNodes) (threads : 0 < cfg.threadsPerNode)
    (live : Live cfg k x) (past : ∀ i < cfg.clients, (x.pcs i).past) :
    ∃ ls y, Run (Step (Scheduler.CountedStep cfg) e compute k timing) x ls y ∧
      (Live cfg k y ∧ ∀ i < cfg.clients, (y.pcs i).past) ∧
      ∀ j ∈ y.pool.sched.pushed, j ∈ y.pool.sched.completed := by
  refine exists_run_of_measure (fun y => Live cfg k y ∧ ∀ i < cfg.clients, (y.pcs i).past) _
    (fun y => y.pool.sched.pushed.length - y.pool.sched.completed.length) ?_ ⟨live, past⟩
  rintro x ⟨live, past⟩ hgoal
  obtain ⟨j, hj, hnot⟩ : ∃ j ∈ x.pool.sched.pushed, j ∉ x.pool.sched.completed := by
    by_contra hnone
    exact hgoal fun j hj => by_contra fun hnot => hnone ⟨j, hj, hnot⟩
  obtain ⟨h, acc⟩ := live.account
  have closer : Closer cfg e compute k timing x := by
    rcases acc.kept j hj with hqueued | ⟨i, hi⟩ | hdone
    · obtain ⟨j', rest, queue⟩ := List.exists_cons_of_ne_nil (List.ne_nil_of_mem hqueued)
      exact closer_of_queued compute timing clients threads live past (Nat.mod_lt _ nodes) queue
    · refine closer_of_held compute timing clients live past (p := (cfg.nodeOf j.task, i)) ?_
      intro hidle
      simp [hidle, Scheduler.PoolPc.job] at hi
    · exact absurd hdone hnot
  obtain ⟨ls, y, run, hpcs, hpushed, hmore⟩ := closer
  have live' := live_run clients live run
  have hsched := live'.inv.sched (joining_counted cfg)
  have hfits : y.pool.sched.completed.length ≤ y.pool.sched.pushed.length :=
    (hsched.pool.completed_nodup.subperm fun j hj =>
      hsched.pool.executed_sub j (hsched.pool.completed_sub j hj)).length_le
  refine ⟨ls, y, run, ⟨live', hpcs ▸ past⟩, ?_⟩
  rw [hpushed] at hfits ⊢
  omega

/-! ### The waits -/

omit [Addressed μ] clients in
/-- When every task is completed, `wait_all` finds nothing to wait for. -/
theorem Live.totals (live : Live cfg k x)
    (done : ∀ j ∈ x.pool.sched.pushed, j ∈ x.pool.sched.completed) :
    x.pool.sched.totalSubmitted ≤ x.pool.sched.totalCompleted := by
  have hsched := live.inv.sched (joining_counted cfg)
  rw [hsched.clients.counted_count, hsched.pool.completed_count]
  exact (hsched.clients.counted_nodup.subperm fun j hj =>
    done j (hsched.clients.counted_sub j hj)).length_le

variable (cfg e k x i) in
/-- Worker `i` can return from `wait_all`, and nothing else changes. -/
def Returns : Prop :=
  ∃ ls y, Run (Step (Scheduler.CountedStep cfg) e compute k timing) x ls y ∧
    y.pcs = Function.update x.pcs i .waited ∧ y.pool.sched.pushed = x.pool.sched.pushed ∧
    y.pool.sched.completed = x.pool.sched.completed

omit clients in
theorem Returns.cons {y : State σ μ} {l : Option (WorkerId × Event μ)}
    (step : Step (Scheduler.CountedStep cfg) e compute k timing x l y) (pcs : y.pcs = x.pcs)
    (pushed : y.pool.sched.pushed = x.pool.sched.pushed)
    (completed : y.pool.sched.completed = x.pool.sched.completed)
    (returns : Returns cfg e compute k timing y i) : Returns cfg e compute k timing x i := by
  obtain ⟨ls, z, run, hpcs, hpushed, hcompleted⟩ := returns
  exact ⟨_, z, .cons step run, pcs ▸ hpcs, hpushed.trans pushed, hcompleted.trans completed⟩

omit clients in
theorem returns_of_saw {n : Nat} (pc : x.pcs i = .waiting)
    (saw : x.pool.sched.clients i = .sawCompleted n) (done : ¬ n < x.pool.sched.totalSubmitted) :
    Returns cfg e compute k timing x i :=
  ⟨_, _, .one (.waitReturn pc (countedStep (.submittedReturn saw done) (by simp) (by simp))), rfl,
    rfl, rfl⟩

omit clients in
theorem returns_of_waiting (pc : x.pcs i = .waiting) (waits : x.pool.sched.clients i = .waiting)
    (totals : x.pool.sched.totalSubmitted ≤ x.pool.sched.totalCompleted) :
    Returns cfg e compute k timing x i := by
  have step : Step (Scheduler.CountedStep cfg) e compute k timing x none _ :=
    .internal (a := .loadCompleted i) trivial
      (countedStep (.loadCompleted waits) (by simp) (by simp))
  exact .cons compute timing step rfl rfl rfl (returns_of_saw compute timing pc
    (Function.update_self ..) (Nat.not_lt.mpr totals))

omit clients in
/-- A worker that has read the totals too early reads them again. -/
theorem returns_of_done (live : Live cfg k x)
    (done : ∀ j ∈ x.pool.sched.pushed, j ∈ x.pool.sched.completed) (pc : x.pcs i = .waiting) :
    Returns cfg e compute k timing x i := by
  have totals := live.totals done
  have haligned := live.aligned i
  rw [pc] at haligned
  cases hc : x.pool.sched.clients i with
  | waiting => exact returns_of_waiting compute timing pc hc totals
  | sawCompleted n =>
      by_cases less : n < x.pool.sched.totalSubmitted
      · have step : Step (Scheduler.CountedStep cfg) e compute k timing x none _ :=
          .internal (a := .waitAgain i) trivial
            (countedStep (.submittedAgain hc less) (by simp) (by simp))
        exact .cons compute timing step rfl rfl rfl
          (returns_of_waiting compute timing pc (Function.update_self ..) totals)
      · exact returns_of_saw compute timing pc hc less
  | idle => simp [hc, WorkerPc.Allows] at haligned
  | pushed j => simp [hc, WorkerPc.Allows] at haligned
  | sawSubmitted n => simp [hc, WorkerPc.Allows] at haligned

omit clients in
/-- Worker `i` can get to the end of `run_superstep`. -/
theorem exists_finished (live : Live cfg k x) (past : (x.pcs i).past)
    (done : ∀ j ∈ x.pool.sched.pushed, j ∈ x.pool.sched.completed) :
    ∃ ls y, Run (Step (Scheduler.CountedStep cfg) e compute k timing) x ls y ∧
      y.pcs = Function.update x.pcs i .flushed ∧
      ∀ j ∈ y.pool.sched.pushed, j ∈ y.pool.sched.completed := by
  cases pc : x.pcs i with
  | ready => simp [pc, WorkerPc.past] at past
  | submitting ts => simp [pc, WorkerPc.past] at past
  | waiting =>
      obtain ⟨ls, m, run, hpcs, hpushed, hcompleted⟩ := returns_of_done (e := e) compute timing live
        done pc
      have step : Step (Scheduler.CountedStep cfg) e compute k timing m _ _ :=
        .finish (i := i) (by simp [hpcs])
      refine ⟨_, _, run.append (.one step), by simp [hpcs], ?_⟩
      show ∀ j ∈ m.pool.sched.pushed, j ∈ m.pool.sched.completed
      rw [hpushed, hcompleted]
      exact done
  | waited => exact ⟨_, _, .one (.finish pc), rfl, done⟩
  | flushed => exact ⟨[], x, .nil x, by rw [← pc, Function.update_eq_self], done⟩

/-- All workers return from `wait_all` and flush. -/
theorem exists_flushed (live : Live cfg k x) (past : ∀ i < cfg.clients, (x.pcs i).past)
    (done : ∀ j ∈ x.pool.sched.pushed, j ∈ x.pool.sched.completed) :
    ∃ ls y, Run (Step (Scheduler.CountedStep cfg) e compute k timing) x ls y ∧
      (Live cfg k y ∧ (∀ i < cfg.clients, (y.pcs i).past) ∧
        ∀ j ∈ y.pool.sched.pushed, j ∈ y.pool.sched.completed) ∧
      ∀ i < cfg.clients, y.pcs i = .flushed := by
  refine exists_run_forall_lt
    (fun y : State σ μ => Live cfg k y ∧ (∀ i < cfg.clients, (y.pcs i).past) ∧
      ∀ j ∈ y.pool.sched.pushed, j ∈ y.pool.sched.completed)
    (fun i y => y.pcs i = .flushed) cfg.clients ?_ ⟨live, past, done⟩
  rintro i hi x ⟨live, past, done⟩
  obtain ⟨ls, y, run, hpcs, hdone⟩ := exists_finished compute timing live (past i hi) done
  refine ⟨ls, y, run, ⟨live_run clients live run, fun i' hi' => ?_, hdone⟩, by simp [hpcs],
    fun i' hi' => ?_⟩
  · rw [hpcs]
    rcases eq_or_ne i' i with rfl | hne
    · simp [WorkerPc.past]
    · simpa [hne] using past i' hi'
  · rw [hpcs]
    rcases eq_or_ne i' i with rfl | hne
    · simp
    · simpa [hne] using hi'

/-- **The end of the superstep** can be reached from every state of it. -/
theorem exists_end (nodes : 0 < cfg.numaNodes) (threads : 0 < cfg.threadsPerNode)
    (live : Live cfg k x) :
    ∃ ls y, Run (Step (Scheduler.CountedStep cfg) e compute k timing) x ls y ∧ Live cfg k y ∧
      ∀ i < cfg.clients, y.pcs i = .flushed := by
  obtain ⟨ls₁, x₁, run₁, live₁, past₁⟩ := exists_submitted compute timing clients live
  obtain ⟨ls₂, x₂, run₂, ⟨live₂, past₂⟩, done⟩ := exists_drained compute timing clients nodes
    threads live₁ past₁
  obtain ⟨ls₃, y, run₃, ⟨live₃, -, -⟩, flushed⟩ :=
    exists_flushed compute timing clients live₂ past₂ done
  exact ⟨_, y, (run₁.append run₂).append run₃, live₃, flushed⟩

end Progress

/-! ### Supersteps of the threads -/

/-- What holds between two supersteps. -/
structure Between (cfg : Scheduler.Config) (e : GraphEngine σ μ) (pool : Pool μ) : Prop where
  clients : cfg.clients = e.config.workerCount
  rested : pool.Rested (Scheduler.CountedStep cfg)
  idle : ∀ i, pool.sched.clients i = .idle
  nodes : ∀ i, 0 < (e.workers i).config.numaNodes

section Supersteps

variable {cfg : Scheduler.Config} {e : GraphEngine σ μ} {pool : Pool μ} {k : Superstep}

theorem Between.live (between : Between cfg e pool) : Live cfg k (State.ready e pool) where
  inv := between.clients ▸ between.rested.inv e k
  aligned i := by
    show WorkerPc.ready.Allows (pool.sched.clients i)
    rw [between.idle]
    trivial
  nodes := between.nodes

variable [Addressed μ] {compute : Compute σ μ} {timing : WorkerId → WorkerId → Nat}
  {ls : List (Option (WorkerId × Event μ))} {x : State σ μ}

theorem Between.next (between : Between cfg e pool)
    (run : Run (Step (Scheduler.CountedStep cfg) e compute k timing) (.ready e pool) ls x)
    (flushed : ∀ i < e.config.workerCount, x.pcs i = .flushed) :
    Between cfg { e with workers := x.nodes } x.pool where
  clients := between.clients
  rested := (superstep_of_threads (joining_counted cfg) (Nat.le_of_eq between.clients)
    between.rested run flushed).2
  idle i := by
    have live := live_run between.clients between.live run
    by_cases hi : i < cfg.clients
    · exact (live.aligned i).idle (Or.inr (Or.inr (flushed i (between.clients ▸ hi))))
    · have hsched := live.inv.sched (joining_counted cfg)
      by_contra hbusy
      exact hi (hsched.clients.active i hbusy)
  nodes i := (live_run between.clients between.live run).nodes i

theorem between_run (between : Between cfg e pool) {trs : List (List (WorkerId × Event μ))}
    {t : Superstep × GraphEngine σ μ × Pool μ}
    (run : Run (NextSuperstep (Scheduler.CountedStep cfg) compute) (k, e, pool) trs t) :
    Between cfg t.2.1 t.2.2 := by
  refine run.invariant (fun s => Between cfg s.2.1 s.2.2) ?_ between
  rintro s tr t between ⟨-, timing, ls, x, run, flushed, -, ht⟩
  rw [ht]
  exact between.next run flushed

/-- A superstep that has begun can be finished. -/
theorem Between.exists_finish (between : Between cfg e pool) (nodes : 0 < cfg.numaNodes)
    (threads : 0 < cfg.threadsPerNode)
    (run : Run (Step (Scheduler.CountedStep cfg) e compute k timing) (.ready e pool) ls x) :
    ∃ ls' y, Run (Step (Scheduler.CountedStep cfg) e compute k timing) x ls' y ∧
      ∀ i < e.config.workerCount, y.pcs i = .flushed := by
  obtain ⟨ls', y, rest, -, flushed⟩ := exists_end compute timing between.clients nodes threads
    (live_run between.clients between.live run)
  exact ⟨ls', y, rest, between.clients ▸ flushed⟩

/-- Any number of supersteps can be run. -/
theorem Between.exists_run (between : Between cfg e pool) (nodes : 0 < cfg.numaNodes)
    (threads : 0 < cfg.threadsPerNode) (compute : Compute σ μ) (k n : Nat) :
    ∃ trs e' pool', Run (NextSuperstep (Scheduler.CountedStep cfg) compute) (k, e, pool) trs
      (k + n, e', pool') := by
  induction n with
  | zero => exact ⟨[], e, pool, .nil _⟩
  | succ n ih =>
      obtain ⟨trs, e', pool', run⟩ := ih
      have start : Run (Step (Scheduler.CountedStep cfg) e' compute (k + n) fun _ _ => 0)
        (.ready e' pool') [] (.ready e' pool') := .nil _
      obtain ⟨ls, y, last, flushed⟩ := (between_run between run).exists_finish nodes threads start
      exact ⟨_, _, _, run.append (.one ⟨rfl, _, ls, y, last, flushed, rfl, rfl⟩)⟩

end Supersteps

section Engine

variable [Addressed μ] {config : EngineConfig} {threads : Nat} {vertices : List (Vertex σ μ)}
  {compute : Compute σ μ} {trs : List (List (WorkerId × Event μ))} {k : Nat}
  {e : GraphEngine σ μ} {pool : Pool μ}

omit [Addressed μ] in
variable (threads) in
theorem between_load (nodes : 0 < config.numaNodes) (vertices : List (Vertex σ μ)) :
    Between ⟨config.numaNodes, threads, config.workerCount⟩ (GraphEngine.load config vertices)
      Pool.init where
  clients := by rw [GraphEngine.load_config]
  rested := rested_init _
  idle _ := rfl
  nodes := GraphEngine.load_nodes nodes vertices

/-- **The threads execute the engine.** All workers share one scheduler, whose threads run
their tasks in any order. As long as no task is completed before its submission is counted,
and `wait_all` reads `total_completed_` first, any number of supersteps of the threads are
supersteps of the engine, with the same events in the same order, and no task is left over. -/
theorem execution_of_threads
    (run : Run (NextSuperstep
        (Scheduler.CountedStep ⟨config.numaNodes, threads, config.workerCount⟩) compute)
      (0, GraphEngine.load config vertices, Pool.init) trs (k, e, pool)) :
    GraphEngine.Execution compute (GraphEngine.load config vertices) trs k e ∧
      ∀ j ∈ pool.sched.pushed, j ∈ pool.sched.executed := by
  have clients : config.workerCount ≤
      (GraphEngine.load config vertices).config.workerCount := by
    rw [GraphEngine.load_config]
  obtain ⟨exec, rested⟩ := execution_of_joining
    (joining_counted ⟨config.numaNodes, threads, config.workerCount⟩) clients run
  exact ⟨exec, rested.executed⟩

/-- Two workers on one node. -/
def twoWorkers : EngineConfig := { workerCount := 2, numaNodes := 1 }

/-- Four threads run them for three supersteps. -/
theorem execution_of_threads_pair :
    ∃ trs e pool, Run (NextSuperstep
        (Scheduler.CountedStep ⟨twoWorkers.numaNodes, 4, twoWorkers.workerCount⟩)
        GraphEngine.pingPong) (0, GraphEngine.pair twoWorkers, Pool.init) trs (3, e, pool) ∧
      GraphEngine.Execution GraphEngine.pingPong (GraphEngine.pair twoWorkers) trs 3 e := by
  have between : Between ⟨twoWorkers.numaNodes, 4, twoWorkers.workerCount⟩
      (GraphEngine.pair twoWorkers) Pool.init :=
    between_load 4 Nat.one_pos GraphEngine.pairVertices
  obtain ⟨trs, e, pool, run⟩ := between.exists_run Nat.one_pos (Nat.succ_pos 3)
    GraphEngine.pingPong 0 3
  exact ⟨trs, e, pool, run, (execution_of_threads run).1⟩

/-- **The threads never get stuck.** As long as no task is completed before its submission is
counted, and `wait_all` reads `total_completed_` first: from wherever they are in a superstep,
they can bring it to its end, and however they do, the workers are then what a superstep makes
of them. -/
theorem threads_finish (nodes : 0 < config.numaNodes) (pooled : 0 < threads)
    (run : Run (NextSuperstep
        (Scheduler.CountedStep ⟨config.numaNodes, threads, config.workerCount⟩) compute)
      (0, GraphEngine.load config vertices, Pool.init) trs (k, e, pool))
    {timing : WorkerId → WorkerId → Nat} {ls : List (Option (WorkerId × Event μ))} {x : State σ μ}
    (started : Run (Step (Scheduler.CountedStep ⟨config.numaNodes, threads, config.workerCount⟩)
      e compute k timing) (.ready e pool) ls x) :
    (∃ ls' y, Run (Step (Scheduler.CountedStep ⟨config.numaNodes, threads, config.workerCount⟩)
        e compute k timing) x ls' y ∧ ∀ i < e.config.workerCount, y.pcs i = .flushed) ∧
      ∀ ls' y, Run (Step (Scheduler.CountedStep ⟨config.numaNodes, threads, config.workerCount⟩)
          e compute k timing) x ls' y →
        (∀ i < e.config.workerCount, y.pcs i = .flushed) →
        y.nodes = (e.superstep compute k timing).workers := by
  have between := between_run (between_load threads nodes vertices) run
  refine ⟨between.exists_finish nodes pooled started, fun ls' y rest flushed => ?_⟩
  have superstep := superstep_of_threads (joining_counted _) (Nat.le_of_eq between.clients)
    between.rested (started.append rest) flushed
  rw [← GraphEngine.superstepRun_eq superstep.1]

/-- One of two workers has begun. -/
theorem threads_finish_begun :
    ∃ x : State Nat Message, x.pcs 1 = .ready ∧
      ∃ ls' y, Run (Step (Scheduler.CountedStep ⟨twoWorkers.numaNodes, 4, twoWorkers.workerCount⟩)
          (GraphEngine.pair twoWorkers) GraphEngine.pingPong 0 fun _ _ => 0) x ls' y ∧
        ∀ i < (GraphEngine.pair twoWorkers).config.workerCount, y.pcs i = .flushed := by
  have run : Run (NextSuperstep
      (Scheduler.CountedStep ⟨twoWorkers.numaNodes, 4, twoWorkers.workerCount⟩)
      GraphEngine.pingPong) (0, GraphEngine.pair twoWorkers, Pool.init) []
      (0, GraphEngine.pair twoWorkers, Pool.init) := .nil _
  have started : Run (Step
      (Scheduler.CountedStep ⟨twoWorkers.numaNodes, 4, twoWorkers.workerCount⟩)
      (GraphEngine.pair twoWorkers) GraphEngine.pingPong 0 fun _ _ => 0)
      (.ready (GraphEngine.pair twoWorkers) Pool.init) [some (0, .start)] _ :=
    .one (.start Nat.two_pos rfl Nat.one_pos)
  exact ⟨_, rfl, (threads_finish Nat.one_pos (Nat.succ_pos 3) run started).1⟩

/-! ### The end of the scheduler -/

/-- The scheduler of the engine, from `start` to the return of `stop`. -/
theorem exists_shutdown {cfg : Scheduler.Config} {ls : List Scheduler.Action} {x : Scheduler.State}
    (run : Run (Scheduler.Step cfg) Scheduler.State.init ls x) :
    ∃ evs s evs' t, Run (Lifecycle.Step cfg) Lifecycle.State.init evs s ∧ s.sched = x ∧
      Run (Lifecycle.Step cfg) s evs' t ∧ (∀ c task, .act (.push c task) ∉ evs') ∧
      t.owner = .stopping cfg.threads := by
  obtain ⟨evs, s, life, -, hsched, up⟩ := Lifecycle.exists_of_run run
  have hstop : Lifecycle.Step cfg s .stop { s with running := false, owner := .stopping 0 } :=
    .stop up.owner
  obtain ⟨evs', t, own, joined⟩ :=
    Lifecycle.exists_joined ⟨Lifecycle.inv_step up.inv hstop, 0, rfl⟩
  refine ⟨evs, s, .stop :: evs', t, life, hsched, .cons hstop (own.mono fun _ _ _ h => h.1), ?_,
    joined⟩
  intro c task hpush
  rcases List.mem_cons.mp hpush with h | h
  · cases h
  · have hown : ∀ ev ∈ evs', ev.own = true :=
      own.label_property (fun _ => True) (fun _ _ _ _ _ => trivial) (fun _ _ _ _ h => h.2) trivial
    exact absurd (hown _ h) (by simp [Lifecycle.Event.own, Lifecycle.Event.thread,
      Scheduler.Action.thread])

/-- **The engine leaves no task behind.** After any number of supersteps of the threads, the
scheduler can be stopped; and in whichever way it has come to where it is and is stopped, if no
worker submits anything any more, all tasks are completed and all queues are empty when `stop`
returns. -/
theorem shutdown_completes {cfg : Scheduler.Config}
    (clients : cfg.clients = config.workerCount)
    (run : Run (NextSuperstep (Scheduler.CountedStep cfg) compute)
      (0, GraphEngine.load config vertices, Pool.init) trs (k, e, pool)) :
    (∃ evs s evs' t, Run (Lifecycle.Step cfg) Lifecycle.State.init evs s ∧
        s.sched = pool.sched ∧ Run (Lifecycle.Step cfg) s evs' t ∧
        (∀ c task, .act (.push c task) ∉ evs') ∧ t.owner = .stopping cfg.threads) ∧
      ∀ evs s evs' t, Run (Lifecycle.Step cfg) Lifecycle.State.init evs s →
        s.sched = pool.sched → Run (Lifecycle.Step cfg) s evs' t →
        (∀ c task, .act (.push c task) ∉ evs') → t.owner = .stopping cfg.threads →
        (∀ j ∈ t.sched.pushed, j ∈ t.sched.completed) ∧ ∀ n, (t.sched.queues n).tasks = [] := by
  have hclients : cfg.clients ≤ (GraphEngine.load config vertices).config.workerCount := by
    rw [GraphEngine.load_config, clients]
  obtain ⟨-, rested⟩ := execution_of_joining (joining_counted cfg) hclients run
  constructor
  · obtain ⟨ls, reach⟩ := rested.reachable
    exact exists_shutdown (reach.mono (joining_counted cfg).steps)
  · intro evs s evs' t life hsched rest quiet joined
    obtain ⟨hpushed, hexecuted⟩ := Lifecycle.unsubmitted_run rest quiet
    have hdone : ∀ j ∈ t.sched.pushed, j ∈ t.sched.executed := by
      intro j hj
      rw [hpushed, hsched] at hj
      exact hexecuted j (hsched ▸ rested.executed j hj)
    have whole := life.append rest
    refine ⟨fun j hj => ?_, fun n => List.eq_nil_iff_forall_not_mem.mpr fun j hj => ?_⟩
    · rcases Lifecycle.completed_or_queued whole joined hj with hcompleted | ⟨-, hnot⟩
      · exact hcompleted
      · exact absurd (hdone j hj) hnot
    · have sound := Scheduler.run_inv (Lifecycle.sched_of_run whole)
      obtain ⟨-, hj, hnot, -⟩ := sound.pool.queued n j hj
      exact hnot (hdone j hj)

/-- After three supersteps of two workers. -/
theorem shutdown_completes_pair :
    ∃ trs e, ∃ pool : Pool Message, Run (NextSuperstep
        (Scheduler.CountedStep ⟨twoWorkers.numaNodes, 4, twoWorkers.workerCount⟩)
        GraphEngine.pingPong) (0, GraphEngine.pair twoWorkers, Pool.init) trs (3, e, pool) ∧
      ∃ evs t, Run (Lifecycle.Step ⟨twoWorkers.numaNodes, 4, twoWorkers.workerCount⟩)
        Lifecycle.State.init evs t ∧ t.owner = .stopping 4 ∧
        ∀ j ∈ t.sched.pushed, j ∈ t.sched.completed := by
  have between : Between ⟨twoWorkers.numaNodes, 4, twoWorkers.workerCount⟩
      (GraphEngine.pair twoWorkers) Pool.init :=
    between_load 4 Nat.one_pos GraphEngine.pairVertices
  obtain ⟨trs, e, pool, run⟩ := between.exists_run Nat.one_pos (Nat.succ_pos 3)
    GraphEngine.pingPong 0 3
  obtain ⟨⟨evs, s, evs', t, life, hsched, rest, quiet, joined⟩, all⟩ := shutdown_completes rfl run
  exact ⟨trs, e, pool, run, evs ++ evs', t, life.append rest, joined,
    (all evs s evs' t life hsched rest quiet joined).1⟩

end Engine

end Pregel.SharedScheduler
