import Pregel.SingleWorker

/-!
The workers of an engine on the scheduler they share.

`GraphEngine.SuperstepRun` lets a worker go on after `wait_all` when all its own tasks are
done, and keeps the tasks of a worker in its phase. Here all workers submit to one
scheduler, its threads take and run the tasks of whichever worker pushed them, and a
worker goes on when `wait_all` returns, whatever it has joined.

`Step` takes the steps of the scheduler as a parameter, so that it can be restricted to
those under which `wait_all` joins its caller (`Joining`).

* `Tasked`, `Stands`: what the scheduler knows of the tasks of a worker, and the phase the
  worker is in.
* `follows_step`: every step of the threads is one of the workers or leaves them alone.
* `superstep_of_threads`, `execution_of_joining`: supersteps of the threads are supersteps
  of the engine.
-/

namespace Pregel.SharedScheduler

open Lts
open WorkerNode (Phase Event TaskState)
open SingleWorker (Internal quiet_frame)

variable {σ μ : Type}

/-- Where a worker stands in `run_superstep`: before the drain, in `submit_bulk`, in
`wait_all`, after it, and after the flush. -/
inductive WorkerPc where
  | ready
  | submitting (ts : List Scheduler.Task)
  | waiting
  | waited
  | flushed

/-- The vertices whose tasks are still to be submitted. -/
def WorkerPc.unsubmitted : WorkerPc → List VertexId
  | .submitting ts => ts.map Scheduler.Task.taskId
  | _ => []

/-- The scheduler with what its threads and its tasks hold: `local_inbox` of a task that
has taken it, and the superstep that the closure of a task has captured. -/
structure Pool (μ : Type) where
  sched : Scheduler.State
  localInbox : Nat × Nat → Option (List μ)
  captured : Nat → Superstep

def Pool.init : Pool μ where
  sched := Scheduler.State.init
  localInbox := fun _ => none
  captured := fun _ => 0

structure State (σ μ : Type) where
  nodes : WorkerId → WorkerNode σ μ
  pcs : WorkerId → WorkerPc
  pool : Pool μ

/-- The steps of `run_superstep` on all workers and of the scheduler's threads. `act` is
the step relation of the scheduler, in which worker `i` is client `i`. -/
inductive Step [Addressed μ] (act : Scheduler.State → Scheduler.Action → Scheduler.State → Prop)
    (e : GraphEngine σ μ) (compute : Compute σ μ) (k : Superstep)
    (timing : WorkerId → WorkerId → Nat) :
    State σ μ → Option (WorkerId × Event μ) → State σ μ → Prop where
  | start {x : State σ μ} {i : WorkerId} (worker : i < e.config.workerCount)
      (pc : x.pcs i = .ready) (nodes : 0 < (x.nodes i).config.numaNodes) :
      Step act e compute k timing x (some (i, .start))
        { x with
          nodes := Function.update x.nodes i ((x.nodes i).receive (timing i)).wake
          pcs := Function.update x.pcs i (.submitting ((x.nodes i).receive (timing i)).tasks) }
  | submit {x : State σ μ} {i : WorkerId} {t : Scheduler.Task} {ts : List Scheduler.Task}
      {s : Scheduler.State} (pc : x.pcs i = .submitting (t :: ts))
      (push : act x.pool.sched (.push i t) s) :
      Step act e compute k timing x none
        { x with
          pcs := Function.update x.pcs i (.submitting ts)
          pool := { x.pool with
            sched := s
            captured := Function.update x.pool.captured x.pool.sched.pushed.length k } }
  | internal {x : State σ μ} {a : Scheduler.Action} {s : Scheduler.State} (ha : Internal a)
      (step : act x.pool.sched a s) :
      Step act e compute k timing x none { x with pool := { x.pool with sched := s } }
  | callWait {x : State σ μ} {i : WorkerId} {s : Scheduler.State} (pc : x.pcs i = .submitting [])
      (call : act x.pool.sched (.callWait i) s) :
      Step act e compute k timing x none
        { x with
          pcs := Function.update x.pcs i .waiting
          pool := { x.pool with sched := s } }
  | waitReturn {x : State σ μ} {i : WorkerId} {s : Scheduler.State} (pc : x.pcs i = .waiting)
      (ret : act x.pool.sched (.waitReturn i) s) :
      Step act e compute k timing x none
        { x with
          pcs := Function.update x.pcs i .waited
          pool := { x.pool with sched := s } }
  | take {x : State σ μ} {p : Nat × Nat} {j : Scheduler.Job}
      (popped : x.pool.sched.pool p = .popped j) (empty : x.pool.localInbox p = none) :
      Step act e compute k timing x (some (j.client, .take j.task.taskId))
        { x with
          nodes := Function.update x.nodes j.client
            ((x.nodes j.client).eraseInbox j.task.taskId)
          pool := { x.pool with
            localInbox := Function.update x.pool.localInbox p
              (some ((x.nodes j.client).inboxOf j.task.taskId)) } }
  | execute {x : State σ μ} {p : Nat × Nat} {j : Scheduler.Job} {inbox : List μ}
      {s : Scheduler.State} (popped : x.pool.sched.pool p = .popped j)
      (taken : x.pool.localInbox p = some inbox) (step : act x.pool.sched (.execute p) s) :
      Step act e compute k timing x (some (j.client, .compute j.task.taskId inbox))
        { x with
          nodes := Function.update x.nodes j.client ((x.nodes j.client).runCompute compute
            (x.pool.captured j.ticket) j.task.taskId inbox)
          pool := { x.pool with
            sched := s
            localInbox := Function.update x.pool.localInbox p none } }
  | finish {x : State σ μ} {i : WorkerId} (pc : x.pcs i = .waited) :
      Step act e compute k timing x (some (i, .finish (x.nodes i).outboxes))
        { x with
          nodes := Function.update x.nodes i ((x.nodes i).finish e.pmap)
          pcs := Function.update x.pcs i .flushed }

/-- Steps of the scheduler under which `wait_all` joins its caller. -/
structure Joining (cfg : Scheduler.Config)
    (act : Scheduler.State → Scheduler.Action → Scheduler.State → Prop) : Prop where
  steps : ∀ s a t, act s a t → Scheduler.Step cfg s a t
  joins : ∀ ls s, Run act Scheduler.State.init ls s →
    ∀ c t, act s (.waitReturn c) t → Scheduler.OwnDone s c

theorem joining_counted (cfg : Scheduler.Config) : Joining cfg (Scheduler.CountedStep cfg) where
  steps _ _ _ h := h.1
  joins _ _ run _ _ ret := Scheduler.joins_of_counted run ret

/-! ### The tasks of a worker -/

/-- A job of worker `i` that no thread has executed. -/
def Open (s : Scheduler.State) (i : WorkerId) (j : Scheduler.Job) : Prop :=
  j ∈ s.pushed ∧ j ∉ s.executed ∧ j.client = i

/-- A thread has taken this inbox for a job. -/
def Pool.Took (x : Pool μ) (j : Scheduler.Job) (inbox : List μ) : Prop :=
  ∃ p, x.sched.pool p = .popped j ∧ x.localInbox p = some inbox

/-- The tasks of worker `i` are where the scheduler has them; `ids` are still to be
submitted. -/
structure Tasked (x : Pool μ) (i : WorkerId) (ids : List VertexId)
    (ts : VertexId → TaskState μ) : Prop where
  unsubmitted : ∀ vid ∈ ids, ts vid = .queued
  queued : ∀ j, Open x.sched i j → (∀ inbox, ¬ x.Took j inbox) → ts j.task.taskId = .queued
  running : ∀ j, Open x.sched i j → ∀ inbox, x.Took j inbox → ts j.task.taskId = .running inbox
  tracked : ∀ vid, ts vid ≠ .none → vid ∈ ids ∨ ∃ j, Open x.sched i j ∧ j.task.taskId = vid
  nodup : ids.Nodup
  apart : ∀ j, Open x.sched i j → j.task.taskId ∉ ids
  distinct : ∀ j j', Open x.sched i j → Open x.sched i j' → j.task.taskId = j'.task.taskId →
    j = j'

/-- The phase that worker `i` is in. -/
inductive Stands (x : State σ μ) (i : WorkerId) : Phase μ → Prop where
  | ready (pc : x.pcs i = .ready) (closed : ∀ j, ¬ Open x.pool.sched i j) : Stands x i .ready
  | computing {ts : VertexId → TaskState μ} (started : x.pcs i ≠ .ready)
      (unfinished : x.pcs i ≠ .flushed)
      (tasks : Tasked x.pool i (x.pcs i).unsubmitted ts) : Stands x i (.computing ts)
  | flushed (pc : x.pcs i = .flushed) (closed : ∀ j, ¬ Open x.pool.sched i j) :
      Stands x i .flushed

/-- What holds of the scheduler and its threads during superstep `k`. -/
structure Inv (act : Scheduler.State → Scheduler.Action → Scheduler.State → Prop)
    (workerCount : Nat) (k : Superstep) (x : State σ μ) : Prop where
  workers : ∀ i, x.pcs i ≠ .ready → i < workerCount
  reachable : ∃ ls, Run act Scheduler.State.init ls x.pool.sched
  taken : ∀ p, x.pool.localInbox p ≠ none → ∃ j, x.pool.sched.pool p = .popped j
  captured : ∀ i j, Open x.pool.sched i j → x.pool.captured j.ticket = k
  joined : ∀ i, x.pcs i = .waited → ∀ j, ¬ Open x.pool.sched i j

/-- The workers and their phases. -/
def Follows (x : State σ μ) (ws : WorkerId → WorkerNode σ μ × Phase μ) : Prop :=
  ∀ i, (ws i).1 = x.nodes i ∧ Stands x i (ws i).2

section Frames

variable {x y : Pool μ} {i : WorkerId} {ids : List VertexId} {ts : VertexId → TaskState μ}

theorem Tasked.frame (h : Tasked x i ids ts) (opens : ∀ j, Open y.sched i j ↔ Open x.sched i j)
    (took : ∀ j, j.client = i → ∀ inbox, y.Took j inbox ↔ x.Took j inbox) :
    Tasked y i ids ts where
  unsubmitted := h.unsubmitted
  queued j hj hnot := h.queued j ((opens j).mp hj) fun inbox ht =>
    hnot inbox ((took j hj.2.2 inbox).mpr ht)
  running j hj inbox ht := h.running j ((opens j).mp hj) inbox ((took j hj.2.2 inbox).mp ht)
  tracked vid hvid := by
    rcases h.tracked vid hvid with hmem | ⟨j, hj, hid⟩
    · exact Or.inl hmem
    · exact Or.inr ⟨j, (opens j).mpr hj, hid⟩
  nodup := h.nodup
  apart j hj := h.apart j ((opens j).mp hj)
  distinct j j' hj hj' := h.distinct j j' ((opens j).mp hj) ((opens j').mp hj')

theorem Stands.frame {x y : State σ μ} {ph : Phase μ} (h : Stands x i ph)
    (ready : y.pcs i = .ready ↔ x.pcs i = .ready)
    (flushed : y.pcs i = .flushed ↔ x.pcs i = .flushed)
    (unsubmitted : (y.pcs i).unsubmitted = (x.pcs i).unsubmitted)
    (opens : ∀ j, Open y.pool.sched i j ↔ Open x.pool.sched i j)
    (took : ∀ j, j.client = i → ∀ inbox, y.pool.Took j inbox ↔ x.pool.Took j inbox) :
    Stands y i ph := by
  cases h with
  | ready pc closed => exact .ready (ready.mpr pc) fun j hj => closed j ((opens j).mp hj)
  | computing started unfinished tasks =>
      refine .computing (fun h => started (ready.mp h)) (fun h => unfinished (flushed.mp h)) ?_
      rw [unsubmitted]
      exact tasks.frame opens took
  | flushed pc closed => exact .flushed (flushed.mpr pc) fun j hj => closed j ((opens j).mp hj)

/-- A worker that does not move. -/
theorem Stands.stays {x y : State σ μ} {ph : Phase μ} (h : Stands x i ph)
    (pc : y.pcs i = x.pcs i) (opens : ∀ j, Open y.pool.sched i j ↔ Open x.pool.sched i j)
    (took : ∀ j, j.client = i → ∀ inbox, y.pool.Took j inbox ↔ x.pool.Took j inbox) :
    Stands y i ph :=
  h.frame (by rw [pc]) (by rw [pc]) (by rw [pc]) opens took

theorem Follows.move {x y : State σ μ} {ws : WorkerId → WorkerNode σ μ × Phase μ} {ph : Phase μ}
    (h : Follows x ws) (nodes : ∀ i', i' ≠ i → y.nodes i' = x.nodes i')
    (others : ∀ i', i' ≠ i → ∀ ph, Stands x i' ph → Stands y i' ph) (own : Stands y i ph) :
    Follows y (Function.update ws i (y.nodes i, ph)) := by
  intro i'
  rcases eq_or_ne i' i with rfl | hne
  · rw [Function.update_self]
    exact ⟨rfl, own⟩
  · obtain ⟨hnode, hstands⟩ := h i'
    rw [Function.update_of_ne hne, nodes i' hne]
    exact ⟨hnode, others i' hne _ hstands⟩

end Frames

/-! ### What the scheduler does to the tasks -/

section Scheduler

variable {cfg : Scheduler.Config} {s s' : Scheduler.State} {a : Scheduler.Action}
  {i : WorkerId} {j : Scheduler.Job} {p : Nat × Nat}

theorem open_congr (pushed : s'.pushed = s.pushed) (executed : s'.executed = s.executed) :
    Open s' i j ↔ Open s i j := by
  rw [Open, Open, pushed, executed]

/-- Only its execution moves a task on that a thread has popped. -/
theorem popped_stays (step : Scheduler.Step cfg s a s') (execute : a ≠ .execute p)
    (popped : s.pool p = .popped j) : s'.pool p = .popped j := by
  have hother : ∀ {q pc}, s.pool q ≠ .popped j → Function.update s.pool q pc p = .popped j := by
    intro q pc hq
    have hne : p ≠ q := by
      rintro rfl
      exact hq popped
    rw [Function.update_of_ne hne]
    exact popped
  cases step with
  | pop node thread pc queue => exact hother (by simp [pc])
  | @execute q j' pc =>
      have hne : p ≠ q := by
        rintro rfl
        exact execute rfl
      exact (Function.update_of_ne hne ..).trans popped
  | release pc => exact hother (by simp [pc])
  | complete pc => exact hother (by simp [pc])
  | _ => exact popped

/-- A job that a thread has popped is not executed yet. -/
theorem open_of_popped (inv : Scheduler.Inv cfg s) (popped : s.pool p = .popped j) :
    Open s j.client j :=
  ⟨(inv.pool.held p j (by simp [popped, Scheduler.PoolPc.job])).1, inv.pool.popped p j popped, rfl⟩

/-- The job that a push adds. -/
theorem open_push {t : Scheduler.Task} (inv : Scheduler.Inv cfg s)
    (push : Scheduler.Step cfg s (.push i t) s') (i' : WorkerId) (j : Scheduler.Job) :
    Open s' i' j ↔ Open s i' j ∨ (i' = i ∧ j = ⟨s.pushed.length, i, t⟩) := by
  cases push with
  | push client pc =>
      have hnew : (⟨s.pushed.length, i, t⟩ : Scheduler.Job) ∉ s.executed := fun hmem =>
        inv.clients.fresh (inv.pool.executed_sub _ hmem)
      simp only [Open, List.mem_append, List.mem_singleton]
      constructor
      · rintro ⟨hpushed | rfl, hnot, rfl⟩
        · exact Or.inl ⟨hpushed, hnot, rfl⟩
        · exact Or.inr ⟨rfl, rfl⟩
      · rintro (⟨hpushed, hnot, rfl⟩ | ⟨rfl, rfl⟩)
        · exact ⟨Or.inl hpushed, hnot, rfl⟩
        · exact ⟨Or.inr rfl, hnew, rfl⟩

/-- An execution closes the job that its thread has popped. -/
theorem open_execute (step : Scheduler.Step cfg s (.execute p) s') (popped : s.pool p = .popped j)
    (i' : WorkerId) (j' : Scheduler.Job) : Open s' i' j' ↔ Open s i' j' ∧ j' ≠ j := by
  cases step with
  | @execute _ j₁ pc =>
      obtain rfl : j₁ = j := by
        rw [popped] at pc
        exact (Scheduler.PoolPc.popped.inj pc).symm
      simp only [Open, List.mem_append, List.mem_singleton]
      tauto

end Scheduler

section Tasks

variable {cfg : Scheduler.Config} {x y : Pool μ} {i : WorkerId} {ids : List VertexId}
  {ts : VertexId → TaskState μ} {j : Scheduler.Job} {p : Nat × Nat}

/-- Only the threads that run a task take an inbox or drop it. -/
theorem took_congr {a : Scheduler.Action} (taken : ∀ p, x.localInbox p ≠ none →
      ∃ j, x.sched.pool p = .popped j) (same : y.localInbox = x.localInbox)
    (step : Scheduler.Step cfg x.sched a y.sched) (execute : ∀ p, a ≠ .execute p)
    (j : Scheduler.Job) (inbox : List μ) : y.Took j inbox ↔ x.Took j inbox := by
  constructor
  · rintro ⟨p, hpopped, hinbox⟩
    rw [same] at hinbox
    obtain ⟨j', hj'⟩ := taken p (by simp [hinbox])
    have hstays := popped_stays step (execute p) hj'
    rw [hpopped] at hstays
    exact ⟨p, by rw [hj', ← Scheduler.PoolPc.popped.inj hstays], hinbox⟩
  · rintro ⟨p, hpopped, hinbox⟩
    exact ⟨p, popped_stays step (execute p) hpopped, same ▸ hinbox⟩

theorem took_take {inbox : List μ} (popped : x.sched.pool p = .popped j)
    (empty : x.localInbox p = none) (j' : Scheduler.Job) (inbox' : List μ) :
    Pool.Took { x with localInbox := Function.update x.localInbox p (some inbox) } j' inbox' ↔
      x.Took j' inbox' ∨ (j' = j ∧ inbox' = inbox) := by
  constructor
  · rintro ⟨q, hq, hinbox⟩
    rcases eq_or_ne q p with rfl | hne
    · simp only [Function.update_self, Option.some.injEq] at hinbox
      simp only [popped, Scheduler.PoolPc.popped.injEq] at hq
      exact Or.inr ⟨hq.symm, hinbox.symm⟩
    · simp only [Function.update_of_ne hne] at hinbox
      exact Or.inl ⟨q, hq, hinbox⟩
  · rintro (⟨q, hq, hinbox⟩ | ⟨rfl, rfl⟩)
    · have hne : q ≠ p := by
        rintro rfl
        rw [empty] at hinbox
        cases hinbox
      exact ⟨q, hq, by simpa only [Function.update_of_ne hne] using hinbox⟩
    · exact ⟨p, popped, by simp⟩

theorem took_execute {s' : Scheduler.State} (inv : Scheduler.Inv cfg x.sched)
    (popped : x.sched.pool p = .popped j) (step : Scheduler.Step cfg x.sched (.execute p) s')
    (j' : Scheduler.Job) (inbox : List μ) :
    Pool.Took { x with sched := s', localInbox := Function.update x.localInbox p none } j' inbox ↔
      x.Took j' inbox ∧ j' ≠ j := by
  have hheld : ∀ {q j}, x.sched.pool q = .popped j → (x.sched.pool q).job = some j := by
    intro q j hq
    simp [hq, Scheduler.PoolPc.job]
  cases step with
  | execute pc =>
      constructor
      · rintro ⟨q, hq, hinbox⟩
        have hne : q ≠ p := by
          rintro rfl
          simp at hq
        simp only [Function.update_of_ne hne] at hq hinbox
        refine ⟨⟨q, hq, hinbox⟩, ?_⟩
        rintro rfl
        exact hne (inv.pool.held_once q p _ (hheld hq) (hheld popped))
      · rintro ⟨⟨q, hq, hinbox⟩, hj⟩
        have hne : q ≠ p := by
          rintro rfl
          rw [popped] at hq
          exact hj (Scheduler.PoolPc.popped.inj hq).symm
        exact ⟨q, by simpa only [Function.update_of_ne hne] using hq,
          by simpa only [Function.update_of_ne hne] using hinbox⟩

/-- A worker that has not submitted anything in this superstep. -/
theorem Tasked.start (closed : ∀ j, ¬ Open x.sched i j) (nodup : ids.Nodup) :
    Tasked x i ids (WorkerNode.queuedOn ids) where
  unsubmitted vid hvid := if_pos hvid
  queued j hj _ := absurd hj (closed j)
  running j hj _ _ := absurd hj (closed j)
  tracked vid hvid := by
    left
    by_contra hnot
    exact hvid (if_neg hnot)
  nodup := nodup
  apart j hj := absurd hj (closed j)
  distinct j _ hj := absurd hj (closed j)

/-- A task that is submitted becomes a job. -/
theorem Tasked.submit {t : Scheduler.Task} (inv : Scheduler.Inv cfg x.sched)
    (h : Tasked x i (t.taskId :: ids) ts) (push : Scheduler.Step cfg x.sched (.push i t) y.sched)
    (took : ∀ j inbox, y.Took j inbox ↔ x.Took j inbox) : Tasked y i ids ts := by
  have hopen := fun j => open_push inv push i j
  have hnew : ∀ inbox, ¬ x.Took ⟨x.sched.pushed.length, i, t⟩ inbox := by
    rintro inbox ⟨q, hq, -⟩
    exact inv.clients.fresh (open_of_popped inv hq).1
  obtain ⟨hnot, hnodup⟩ := List.nodup_cons.mp h.nodup
  constructor
  case unsubmitted => exact fun vid hvid => h.unsubmitted vid (List.mem_cons_of_mem _ hvid)
  case queued =>
    intro j hj htook
    rcases (hopen j).mp hj with hj | ⟨-, rfl⟩
    · exact h.queued j hj fun inbox ht => htook inbox ((took j inbox).mpr ht)
    · exact h.unsubmitted _ List.mem_cons_self
  case running =>
    intro j hj inbox htook
    rcases (hopen j).mp hj with hj | ⟨-, rfl⟩
    · exact h.running j hj inbox ((took j inbox).mp htook)
    · exact absurd ((took _ inbox).mp htook) (hnew inbox)
  case tracked =>
    intro vid hvid
    rcases h.tracked vid hvid with hmem | ⟨j, hj, hid⟩
    · rcases List.mem_cons.mp hmem with rfl | hmem
      · exact Or.inr ⟨_, (hopen _).mpr (Or.inr ⟨rfl, rfl⟩), rfl⟩
      · exact Or.inl hmem
    · exact Or.inr ⟨j, (hopen j).mpr (Or.inl hj), hid⟩
  case nodup => exact hnodup
  case apart =>
    intro j hj
    rcases (hopen j).mp hj with hj | ⟨-, rfl⟩
    · exact fun hmem => h.apart j hj (List.mem_cons_of_mem _ hmem)
    · exact hnot
  case distinct =>
    intro j j' hj hj' hid
    rcases (hopen j).mp hj with hj | ⟨-, rfl⟩ <;> rcases (hopen j').mp hj' with hj' | ⟨-, rfl⟩
    · exact h.distinct j j' hj hj' hid
    · exact absurd (hid ▸ List.mem_cons_self) (h.apart j hj)
    · exact absurd (hid ▸ List.mem_cons_self) (h.apart j' hj')
    · rfl

/-- A task that takes its inbox. -/
theorem Tasked.take {inbox : List μ} (inv : Scheduler.Inv cfg x.sched)
    (h : Tasked x j.client ids ts) (popped : x.sched.pool p = .popped j)
    (empty : x.localInbox p = none) :
    Tasked { x with localInbox := Function.update x.localInbox p (some inbox) } j.client ids
      (Function.update ts j.task.taskId (.running inbox)) := by
  have hj := open_of_popped inv popped
  have htook : ∀ j' inbox', Pool.Took { x with
        localInbox := Function.update x.localInbox p (some inbox) } j' inbox' ↔
      x.Took j' inbox' ∨ (j' = j ∧ inbox' = inbox) := took_take popped empty
  have hother : ∀ {j'}, Open x.sched j.client j' → j' ≠ j → j'.task.taskId ≠ j.task.taskId :=
    fun hj' hne hid => hne (h.distinct _ _ hj' hj hid)
  constructor
  case unsubmitted =>
    intro vid hvid
    have hne : vid ≠ j.task.taskId := by
      rintro rfl
      exact h.apart j hj hvid
    rw [Function.update_of_ne hne]
    exact h.unsubmitted vid hvid
  case queued =>
    intro j' hj' hnot
    rcases eq_or_ne j' j with rfl | hne
    · exact absurd ((htook j' inbox).mpr (Or.inr ⟨rfl, rfl⟩)) (hnot inbox)
    · rw [Function.update_of_ne (hother hj' hne)]
      exact h.queued j' hj' fun inbox' ht => hnot inbox' ((htook j' inbox').mpr (Or.inl ht))
  case running =>
    intro j' hj' inbox' ht
    rcases (htook j' inbox').mp ht with ht | ⟨rfl, rfl⟩
    · have hne : j' ≠ j := by
        rintro rfl
        obtain ⟨q, hq, hinbox⟩ := ht
        have hqp : q = p := inv.pool.held_once q p j' (by simp [hq, Scheduler.PoolPc.job])
          (by simp [popped, Scheduler.PoolPc.job])
        rw [hqp, empty] at hinbox
        cases hinbox
      rw [Function.update_of_ne (hother hj' hne)]
      exact h.running j' hj' inbox' ht
    · exact Function.update_self ..
  case tracked =>
    intro vid hvid
    rcases eq_or_ne vid j.task.taskId with rfl | hne
    · exact Or.inr ⟨j, hj, rfl⟩
    · rw [Function.update_of_ne hne] at hvid
      exact h.tracked vid hvid
  case nodup => exact h.nodup
  case apart => exact h.apart
  case distinct => exact h.distinct

/-- A task that has run. -/
theorem Tasked.execute {s' : Scheduler.State} (inv : Scheduler.Inv cfg x.sched)
    (h : Tasked x j.client ids ts) (popped : x.sched.pool p = .popped j)
    (step : Scheduler.Step cfg x.sched (.execute p) s') :
    Tasked { x with sched := s', localInbox := Function.update x.localInbox p none } j.client ids
      (Function.update ts j.task.taskId .none) := by
  have hj := open_of_popped inv popped
  have hopen := fun j' => open_execute step popped j.client j'
  have htook := took_execute inv popped step
  have hother : ∀ {j'}, Open x.sched j.client j' → j' ≠ j → j'.task.taskId ≠ j.task.taskId :=
    fun hj' hne hid => hne (h.distinct _ _ hj' hj hid)
  constructor
  case unsubmitted =>
    intro vid hvid
    have hne : vid ≠ j.task.taskId := by
      rintro rfl
      exact h.apart j hj hvid
    rw [Function.update_of_ne hne]
    exact h.unsubmitted vid hvid
  case queued =>
    intro j' hj' hnot
    obtain ⟨hj', hne⟩ := (hopen j').mp hj'
    rw [Function.update_of_ne (hother hj' hne)]
    exact h.queued j' hj' fun inbox ht => hnot inbox ((htook j' inbox).mpr ⟨ht, hne⟩)
  case running =>
    intro j' hj' inbox ht
    obtain ⟨hj', hne⟩ := (hopen j').mp hj'
    rw [Function.update_of_ne (hother hj' hne)]
    exact h.running j' hj' inbox ((htook j' inbox).mp ht).1
  case tracked =>
    intro vid hvid
    have hne : vid ≠ j.task.taskId := by
      rintro rfl
      exact hvid (Function.update_self ..)
    rw [Function.update_of_ne hne] at hvid
    rcases h.tracked vid hvid with hmem | ⟨j', hj', rfl⟩
    · exact Or.inl hmem
    · refine Or.inr ⟨j', (hopen j').mpr ⟨hj', ?_⟩, rfl⟩
      rintro rfl
      exact hne rfl
  case nodup => exact h.nodup
  case apart => exact fun j' hj' => h.apart j' ((hopen j').mp hj').1
  case distinct =>
    exact fun j₁ j₂ h₁ h₂ => h.distinct j₁ j₂ ((hopen j₁).mp h₁).1 ((hopen j₂).mp h₂).1

end Tasks

/-! ### One step of the threads -/

section Step

variable [Addressed μ] {cfg : Scheduler.Config}
  {act : Scheduler.State → Scheduler.Action → Scheduler.State → Prop} {e : GraphEngine σ μ}
  {compute : Compute σ μ} {k : Superstep} {timing : WorkerId → WorkerId → Nat}
  {x y : State σ μ} {ws : WorkerId → WorkerNode σ μ × Phase μ}

omit [Addressed μ] in
theorem Inv.sched (joining : Joining cfg act) {W : Nat} (inv : Inv act W k x) :
    Scheduler.Inv cfg x.pool.sched := by
  obtain ⟨ls, run⟩ := inv.reachable
  exact Scheduler.run_inv (run.mono joining.steps)

omit [Addressed μ] in
/-- A step of the scheduler that neither pushes nor executes, with a worker that does not
get past its `wait_all`. -/
theorem Inv.quiet (joining : Joining cfg act) {W : Nat} (inv : Inv act W k x)
    {a : Scheduler.Action} {s : Scheduler.State} (step : act x.pool.sched a s)
    (push : ∀ c t, a ≠ .push c t) (execute : ∀ p, a ≠ .execute p) {pcs : WorkerId → WorkerPc}
    (workers : ∀ i, pcs i ≠ .ready → i < W)
    (joined : ∀ i, pcs i = .waited → ∀ j, ¬ Open x.pool.sched i j) :
    Inv act W k { x with pcs := pcs, pool := { x.pool with sched := s } } := by
  have hstep := joining.steps _ _ _ step
  obtain ⟨hpushed, hexecuted⟩ := quiet_frame push execute hstep
  obtain ⟨ls, run⟩ := inv.reachable
  constructor
  case workers => exact workers
  case reachable => exact ⟨_, run.append (.one step)⟩
  case taken =>
    intro p hp
    obtain ⟨j, hj⟩ := inv.taken p hp
    exact ⟨j, popped_stays hstep (execute p) hj⟩
  case captured => exact fun i j hj => inv.captured i j ((open_congr hpushed hexecuted).mp hj)
  case joined => exact fun i hi j hj => joined i hi j ((open_congr hpushed hexecuted).mp hj)

omit [Addressed μ] in
/-- A `wait_all` that returns leaves no task of its caller open. -/
theorem Inv.closed_of_return (joining : Joining cfg act) {W : Nat} (inv : Inv act W k x)
    {i : WorkerId} {s : Scheduler.State} (ret : act x.pool.sched (.waitReturn i) s)
    (j : Scheduler.Job) : ¬ Open x.pool.sched i j := by
  obtain ⟨ls, run⟩ := inv.reachable
  rintro ⟨hpushed, hnot, hown⟩
  exact hnot (joining.joins ls _ run i s ret j hpushed hown)

theorem inv_step (joining : Joining cfg act) {l : Option (WorkerId × Event μ)}
    (inv : Inv act e.config.workerCount k x) (step : Step act e compute k timing x l y) :
    Inv act e.config.workerCount k y := by
  have hsched := inv.sched joining
  obtain ⟨ls, run⟩ := inv.reachable
  -- a worker that moves is one of the engine, and only `wait_all` makes it `waited`
  have hworkers : ∀ {i pc}, i < e.config.workerCount →
      ∀ i', Function.update x.pcs i pc i' ≠ .ready → i' < e.config.workerCount := fun {i pc} hi =>
    (Function.forall_update_iff x.pcs fun i' pc => pc ≠ .ready → i' < e.config.workerCount).mpr
      ⟨fun _ => hi, fun i' _ => inv.workers i'⟩
  have hjoined : ∀ {i pc}, pc ≠ .waited →
      ∀ i', Function.update x.pcs i pc i' = .waited → i' ≠ i ∧ x.pcs i' = .waited :=
    fun {i pc} hpc => (Function.forall_update_iff x.pcs fun i' pc => pc = .waited →
      i' ≠ i ∧ x.pcs i' = .waited).mpr ⟨fun h => absurd h hpc, fun i' hne h => ⟨hne, h⟩⟩
  cases step with
  | start worker pc nodes =>
      exact ⟨hworkers worker, inv.reachable, inv.taken, inv.captured,
        fun i' hi' => inv.joined i' (hjoined (by simp) i' hi').2⟩
  | @submit i t ts s pc push =>
      have hstep := joining.steps _ _ _ push
      have hopen := open_push hsched hstep
      constructor
      case workers => exact hworkers (inv.workers i (by simp [pc]))
      case reachable => exact ⟨_, run.append (.one push)⟩
      case taken =>
        intro p hp
        obtain ⟨j, hj⟩ := inv.taken p hp
        exact ⟨j, popped_stays hstep (by simp) hj⟩
      case captured =>
        intro i' j hj
        rcases (hopen i' j).mp hj with hj | ⟨rfl, rfl⟩
        · have hticket := hsched.clients.tickets j hj.1
          exact (Function.update_of_ne (Nat.ne_of_lt hticket) ..).trans (inv.captured i' j hj)
        · exact Function.update_self ..
      case joined =>
        intro i' hi' j hj
        obtain ⟨hne, hwaited⟩ := hjoined (by simp) i' hi'
        rcases (hopen i' j).mp hj with hj | ⟨heq, -⟩
        · exact inv.joined i' hwaited j hj
        · exact hne heq
  | internal ha step =>
      exact inv.quiet joining step ha.not_push ha.not_execute inv.workers inv.joined
  | @callWait i s pc call =>
      exact inv.quiet joining call (by simp) (by simp) (hworkers (inv.workers i (by simp [pc])))
        fun i' hi' => inv.joined i' (hjoined (by simp) i' hi').2
  | @waitReturn i s pc ret =>
      refine inv.quiet joining ret (by simp) (by simp) (hworkers (inv.workers i (by simp [pc]))) ?_
      intro i' hi'
      rcases eq_or_ne i' i with rfl | hne
      · exact inv.closed_of_return joining ret
      · exact inv.joined i' (by simpa [hne] using hi')
  | @take p j popped empty =>
      refine ⟨inv.workers, inv.reachable, fun q hq => ?_, inv.captured, inv.joined⟩
      rcases eq_or_ne q p with rfl | hne
      · exact ⟨j, popped⟩
      · exact inv.taken q (by simpa [hne] using hq)
  | @execute p j inbox s popped taken step =>
      have hstep := joining.steps _ _ _ step
      have hopen := open_execute hstep popped
      refine ⟨inv.workers, ⟨_, run.append (.one step)⟩, fun q hq => ?_,
        fun i' j' hj' => inv.captured i' j' ((hopen i' j').mp hj').1,
        fun i' hi' j' hj' => inv.joined i' hi' j' ((hopen i' j').mp hj').1⟩
      rcases eq_or_ne q p with rfl | hne
      · simp at hq
      · obtain ⟨j', hj'⟩ := inv.taken q (by simpa [hne] using hq)
        refine ⟨j', popped_stays hstep ?_ hj'⟩
        intro heq
        exact hne (Scheduler.Action.execute.inj heq).symm
  | @finish i pc =>
      exact ⟨hworkers (inv.workers i (by simp [pc])), inv.reachable, inv.taken, inv.captured,
        fun i' hi' => inv.joined i' (hjoined (by simp) i' hi').2⟩

omit [Addressed μ] in
theorem Stands.of_ready {i : WorkerId} {ph : Phase μ} (h : Stands x i ph) (pc : x.pcs i = .ready) :
    ph = .ready ∧ ∀ j, ¬ Open x.pool.sched i j := by
  cases h with
  | ready _ closed => exact ⟨rfl, closed⟩
  | computing started _ _ => exact absurd pc started
  | flushed hpc _ =>
      rw [pc] at hpc
      cases hpc

omit [Addressed μ] in
theorem Stands.of_started {i : WorkerId} {ph : Phase μ} (h : Stands x i ph)
    (started : x.pcs i ≠ .ready) (unfinished : x.pcs i ≠ .flushed) :
    ∃ ts, ph = .computing ts ∧ Tasked x.pool i (x.pcs i).unsubmitted ts := by
  cases h with
  | ready pc _ => exact absurd pc started
  | computing _ _ tasks => exact ⟨_, rfl, tasks⟩
  | flushed pc _ => exact absurd pc unfinished

omit [Addressed μ] in
/-- A worker with an open job is between the drain and the flush. -/
theorem Stands.of_open {i : WorkerId} {ph : Phase μ} {j : Scheduler.Job} (h : Stands x i ph)
    (hj : Open x.pool.sched i j) : x.pcs i ≠ .ready ∧ x.pcs i ≠ .flushed := by
  cases h with
  | ready _ closed => exact absurd hj (closed j)
  | computing started unfinished _ => exact ⟨started, unfinished⟩
  | flushed _ closed => exact absurd hj (closed j)

omit [Addressed μ] in
theorem Follows.node {i : WorkerId} (h : Follows x ws) {ph : Phase μ} (hph : (ws i).2 = ph) :
    ws i = (x.nodes i, ph) := Prod.ext (h i).1 hph

/-- A step of worker `i` from the phase that the threads have brought it to. -/
theorem Follows.step {i : WorkerId} (h : Follows x ws) {ph : Phase μ} (ph' : Phase μ) {ev : Event μ}
    (hph : (ws i).2 = ph) (worker : i < e.config.workerCount)
    (step : WorkerNode.Step e.pmap compute k (timing i) (x.nodes i, ph) ev (y.nodes i, ph'))
    (nodes : ∀ i', i' ≠ i → y.nodes i' = x.nodes i')
    (others : ∀ i', i' ≠ i → ∀ ph, Stands x i' ph → Stands y i' ph) (own : Stands y i ph') :
    ∃ ws', Interleave (e.WorkerStep compute k timing) ws (i, ev) ws' ∧ Follows y ws' := by
  refine ⟨_, ⟨_, ⟨worker, ?_⟩, rfl⟩, h.move nodes others own⟩
  rw [h.node hph]
  exact step

omit [Addressed μ] in
/-- A step of the scheduler that neither pushes nor executes leaves every phase alone. -/
theorem Follows.quiet (joining : Joining cfg act) {W : Nat} (inv : Inv act W k x)
    (h : Follows x ws) {a : Scheduler.Action} {s : Scheduler.State}
    (step : act x.pool.sched a s) (push : ∀ c t, a ≠ .push c t) (execute : ∀ p, a ≠ .execute p)
    {pcs : WorkerId → WorkerPc} (ready : ∀ i, pcs i = .ready ↔ x.pcs i = .ready)
    (flushed : ∀ i, pcs i = .flushed ↔ x.pcs i = .flushed)
    (unsubmitted : ∀ i, (pcs i).unsubmitted = (x.pcs i).unsubmitted) :
    Follows { x with pcs := pcs, pool := { x.pool with sched := s } } ws := by
  have hstep := joining.steps _ _ _ step
  obtain ⟨hpushed, hexecuted⟩ := quiet_frame push execute hstep
  exact fun i => ⟨(h i).1, (h i).2.frame (ready i) (flushed i) (unsubmitted i)
    (fun j => open_congr hpushed hexecuted)
    fun j _ inbox => took_congr (y := { x.pool with sched := s }) inv.taken rfl hstep execute j inbox⟩

/-- **A step of the threads is a step of a worker or changes none.** -/
theorem follows_step (joining : Joining cfg act) (clients : cfg.clients ≤ e.config.workerCount)
    {l : Option (WorkerId × Event μ)} (inv : Inv act e.config.workerCount k x) (h : Follows x ws)
    (step : Step act e compute k timing x l y) :
    ∃ ws', Weak (Interleave (e.WorkerStep compute k timing)) ws l ws' ∧ Follows y ws' := by
  have hsched := inv.sched joining
  cases step with
  | @start i worker pc nodes =>
      obtain ⟨hph, closed⟩ := (h i).2.of_ready pc
      refine h.step (.computing ((x.nodes i).receive (timing i)).submitted) hph worker
        ?_ (fun i' hne => Function.update_of_ne hne ..)
        (fun i' hne ph hs => hs.stays (Function.update_of_ne hne ..) (fun _ => Iff.rfl)
          fun _ _ _ => Iff.rfl) (.computing (by simp) (by simp) ?_)
      · simp only [Function.update_self]
        exact .start nodes
      · simp only [Function.update_self, WorkerPc.unsubmitted]
        exact .start closed ((x.nodes i).receive (timing i)).nodup_taskIds
  | @submit i t ts s pc push =>
      have hstep := joining.steps _ _ _ push
      have hopen := open_push hsched hstep
      have htook := took_congr (y := { x.pool with
          sched := s
          captured := Function.update x.pool.captured x.pool.sched.pushed.length k })
        inv.taken rfl hstep (by simp)
      refine ⟨ws, rfl, fun i' => ⟨(h i').1, ?_⟩⟩
      rcases eq_or_ne i' i with rfl | hne
      · obtain ⟨ts', hph, tasks⟩ := (h i').2.of_started (by simp [pc]) (by simp [pc])
        rw [pc] at tasks
        rw [hph]
        refine .computing (by simp) (by simp) ?_
        simp only [Function.update_self, WorkerPc.unsubmitted]
        exact tasks.submit hsched hstep htook
      · refine (h i').2.stays (Function.update_of_ne hne ..) (fun j => ?_) fun j _ => htook j
        rw [hopen i' j]
        simp [hne]
  | internal ha step =>
      exact ⟨ws, rfl, h.quiet joining inv step ha.not_push ha.not_execute (fun _ => Iff.rfl)
        (fun _ => Iff.rfl) fun _ => rfl⟩
  | @callWait i s pc call =>
      refine ⟨ws, rfl, h.quiet joining inv call (by simp) (by simp) ?_ ?_ ?_⟩
      all_goals
        intro i'
        rcases eq_or_ne i' i with rfl | hne
        · simp [pc, WorkerPc.unsubmitted]
        · simp [hne]
  | @waitReturn i s pc ret =>
      refine ⟨ws, rfl, h.quiet joining inv ret (by simp) (by simp) ?_ ?_ ?_⟩
      all_goals
        intro i'
        rcases eq_or_ne i' i with rfl | hne
        · simp [pc, WorkerPc.unsubmitted]
        · simp [hne]
  | @take p j popped empty =>
      have hj := open_of_popped hsched popped
      obtain ⟨started, unfinished⟩ := (h j.client).2.of_open hj
      obtain ⟨ts, hph, tasks⟩ := (h j.client).2.of_started started unfinished
      have hqueued : ts j.task.taskId = .queued := by
        apply tasks.queued j hj
        rintro inbox ⟨q, hq, hinbox⟩
        have hqp : q = p := hsched.pool.held_once q p j (by simp [hq, Scheduler.PoolPc.job])
          (by simp [popped, Scheduler.PoolPc.job])
        rw [hqp, empty] at hinbox
        cases hinbox
      refine h.step (.computing (Function.update ts j.task.taskId
          (.running ((x.nodes j.client).inboxOf j.task.taskId)))) hph
        (Nat.lt_of_lt_of_le (hsched.clients.owner j hj.1) clients) ?_
        (fun i' hne => Function.update_of_ne hne ..) (fun i' hne ph hs => ?_) ?_
      · simp only [Function.update_self]
        exact .take hqueued
      · refine hs.stays rfl (fun _ => Iff.rfl) fun j' hj' inbox => ?_
        rw [took_take popped empty]
        have : j' ≠ j := by
          rintro rfl
          exact hne hj'.symm
        simp [this]
      · exact .computing started unfinished (tasks.take hsched popped empty)
  | @execute p j inbox s popped taken step =>
      have hstep := joining.steps _ _ _ step
      have hj := open_of_popped hsched popped
      obtain ⟨started, unfinished⟩ := (h j.client).2.of_open hj
      obtain ⟨ts, hph, tasks⟩ := (h j.client).2.of_started started unfinished
      have hrunning := tasks.running j hj inbox ⟨p, popped, taken⟩
      have hother : ∀ {i' j'}, i' ≠ j.client → j'.client = i' → j' ≠ j := by
        rintro i' j' hne hj' rfl
        exact hne hj'.symm
      refine h.step (.computing (Function.update ts j.task.taskId .none)) hph
        (Nat.lt_of_lt_of_le (hsched.clients.owner j hj.1) clients) ?_
        (fun i' hne => Function.update_of_ne hne ..) (fun i' hne ph hs => ?_) ?_
      · simp only [Function.update_self, inv.captured j.client j hj]
        exact .compute hrunning
      · refine hs.stays rfl (fun j' => ?_) fun j' hj' inbox' => ?_
        · rw [open_execute hstep popped]
          exact and_iff_left_of_imp fun hopen => hother hne hopen.2.2
        · rw [took_execute hsched popped hstep]
          exact and_iff_left_of_imp fun _ => hother hne hj'
      · exact .computing started unfinished (tasks.execute hsched popped hstep)
  | @finish i pc =>
      have hclosed := inv.joined i pc
      obtain ⟨ts, hph, tasks⟩ := (h i).2.of_started (by simp [pc]) (by simp [pc])
      have hdone : ∀ vid, ts vid = .none := by
        intro vid
        by_contra hvid
        rcases tasks.tracked vid hvid with hmem | ⟨j, hj, -⟩
        · simp [pc, WorkerPc.unsubmitted] at hmem
        · exact hclosed j hj
      refine h.step .flushed hph (inv.workers i (by simp [pc])) ?_
        (fun i' hne => Function.update_of_ne hne ..)
        (fun i' hne ph hs => hs.stays (Function.update_of_ne hne ..) (fun _ => Iff.rfl)
          fun _ _ _ => Iff.rfl) (.flushed (by simp) hclosed)
      simp only [Function.update_self]
      exact .finish hdone

/-- A run of the threads is a run of the workers. -/
theorem follows_run (joining : Joining cfg act) (clients : cfg.clients ≤ e.config.workerCount)
    {ls : List (Option (WorkerId × Event μ))} (run : Run (Step act e compute k timing) x ls y)
    (inv : Inv act e.config.workerCount k x) (h : Follows x ws) :
    ∃ ws', Run (Interleave (e.WorkerStep compute k timing)) ws ls.reduceOption ws' ∧
      Inv act e.config.workerCount k y ∧ Follows y ws' := by
  have answer : ∀ (x : State σ μ) l (y : State σ μ) ws, Step act e compute k timing x l y →
      Inv act e.config.workerCount k x ∧ Follows x ws →
      ∃ ws', Weak (Interleave (e.WorkerStep compute k timing)) ws l ws' ∧
        Inv act e.config.workerCount k y ∧ Follows y ws' := by
    rintro x l y ws step ⟨inv, h⟩
    obtain ⟨ws', weak, h'⟩ := follows_step joining clients inv h step
    exact ⟨ws', weak, inv_step joining inv step, h'⟩
  obtain ⟨ws', weak, hinv, hfollows⟩ := Run.simulation
    (fun x ws => Inv act e.config.workerCount k x ∧ Follows x ws) id answer run ⟨inv, h⟩
  rw [List.map_id] at weak
  exact ⟨ws', weak.of_weak, hinv, hfollows⟩

end Step

/-! ### Supersteps of the threads -/

/-- All workers of an engine before a superstep. -/
def State.ready (e : GraphEngine σ μ) (pool : Pool μ) : State σ μ where
  nodes := e.workers
  pcs := fun _ => .ready
  pool := pool

/-- `run_superstep` on every worker, with any timing and any schedule. The pool lives on
from superstep to superstep. -/
def NextSuperstep [Addressed μ]
    (act : Scheduler.State → Scheduler.Action → Scheduler.State → Prop) (compute : Compute σ μ)
    (s : Superstep × GraphEngine σ μ × Pool μ) (tr : List (WorkerId × Event μ))
    (t : Superstep × GraphEngine σ μ × Pool μ) : Prop :=
  t.1 = s.1 + 1 ∧ ∃ timing ls x,
    Run (Step act s.2.1 compute s.1 timing) (.ready s.2.1 s.2.2) ls x ∧
    (∀ i < s.2.1.config.workerCount, x.pcs i = .flushed) ∧
    tr = ls.reduceOption ∧ t.2 = ({ s.2.1 with workers := x.nodes }, x.pool)

/-- A pool without work. -/
structure Pool.Rested (act : Scheduler.State → Scheduler.Action → Scheduler.State → Prop)
    (x : Pool μ) : Prop where
  reachable : ∃ ls, Run act Scheduler.State.init ls x.sched
  empty : ∀ p, x.localInbox p = none
  executed : ∀ j ∈ x.sched.pushed, j ∈ x.sched.executed

theorem rested_init (act : Scheduler.State → Scheduler.Action → Scheduler.State → Prop) :
    Pool.Rested act (Pool.init : Pool μ) where
  reachable := ⟨[], .nil _⟩
  empty _ := rfl
  executed _ hj := by cases hj

section Supersteps

variable {cfg : Scheduler.Config} {act : Scheduler.State → Scheduler.Action → Scheduler.State → Prop}

theorem Pool.Rested.closed {x : Pool μ} (rested : x.Rested act) (i : WorkerId)
    (j : Scheduler.Job) : ¬ Open x.sched i j :=
  fun hj => hj.2.1 (rested.executed j hj.1)

theorem Pool.Rested.inv {x : Pool μ} (rested : x.Rested act) (e : GraphEngine σ μ)
    (k : Superstep) : Inv act e.config.workerCount k (State.ready e x) where
  workers _ hi := absurd rfl hi
  reachable := rested.reachable
  taken p hp := absurd (rested.empty p) hp
  captured i j hj := absurd hj (rested.closed i j)
  joined i _ := rested.closed i

theorem Pool.Rested.follows {x : Pool μ} (rested : x.Rested act) (e : GraphEngine σ μ) :
    Follows (State.ready e x) fun i => (e.workers i, .ready) :=
  fun i => ⟨rfl, .ready rfl (rested.closed i)⟩

/-- When all workers are through, the pool is without work. -/
theorem Inv.rested (joining : Joining cfg act) {W : Nat} (clients : cfg.clients ≤ W)
    {k : Superstep} {x : State σ μ} {ws : WorkerId → WorkerNode σ μ × Phase μ}
    (inv : Inv act W k x) (h : Follows x ws) (flushed : ∀ i < W, x.pcs i = .flushed) :
    x.pool.Rested act := by
  have hsched := inv.sched joining
  have hclosed : ∀ i j, ¬ Open x.pool.sched i j := by
    intro i j hj
    have hi : i < W := by
      have howner := hsched.clients.owner j hj.1
      rw [hj.2.2] at howner
      exact Nat.lt_of_lt_of_le howner clients
    exact ((h i).2.of_open hj).2 (flushed i hi)
  refine ⟨inv.reachable, fun p => ?_, fun j hj => ?_⟩
  · by_contra hp
    obtain ⟨j, hj⟩ := inv.taken p hp
    exact hclosed _ j (open_of_popped hsched hj)
  · by_contra hnot
    exact hclosed _ j ⟨hj, hnot, rfl⟩

variable [Addressed μ] {compute : Compute σ μ}

/-- **A superstep of the threads is a superstep of the engine**, and leaves no task
behind. -/
theorem superstep_of_threads (joining : Joining cfg act) {e : GraphEngine σ μ} {k : Superstep}
    {timing : WorkerId → WorkerId → Nat} {pool : Pool μ}
    {ls : List (Option (WorkerId × Event μ))} {x : State σ μ}
    (clients : cfg.clients ≤ e.config.workerCount) (rested : pool.Rested act)
    (run : Run (Step act e compute k timing) (.ready e pool) ls x)
    (flushed : ∀ i < e.config.workerCount, x.pcs i = .flushed) :
    GraphEngine.SuperstepRun compute k timing e ls.reduceOption { e with workers := x.nodes } ∧
      x.pool.Rested act := by
  obtain ⟨ws, wrun, inv, follows⟩ := follows_run joining clients run (rested.inv e k)
    (rested.follows e)
  refine ⟨⟨ws, wrun, fun i hi => ?_, ?_⟩, inv.rested joining clients follows flushed⟩
  · have hstands := (follows i).2
    revert hstands
    generalize (ws i).2 = ph
    intro hstands
    cases hstands with
    | ready pc _ => simp [flushed i hi] at pc
    | computing _ unfinished _ => exact absurd (flushed i hi) unfinished
    | flushed _ _ => rfl
  · exact GraphEngine.ext rfl rfl (funext fun i => (follows i).1.symm)

theorem next_of_threads (joining : Joining cfg act) {s t : Superstep × GraphEngine σ μ × Pool μ}
    {tr : List (WorkerId × Event μ)} (clients : cfg.clients ≤ s.2.1.config.workerCount)
    (rested : s.2.2.Rested act) (next : NextSuperstep act compute s tr t) :
    GraphEngine.NextSuperstep compute (s.1, s.2.1) tr (t.1, t.2.1) ∧ t.2.2.Rested act ∧
      t.2.1.config = s.2.1.config := by
  obtain ⟨hk, timing, ls, x, run, flushed, rfl, ht⟩ := next
  obtain ⟨superstep, rested'⟩ := superstep_of_threads joining clients rested run flushed
  rw [ht]
  exact ⟨⟨hk, timing, superstep⟩, rested', rfl⟩

theorem execution_of_joining (joining : Joining cfg act) {e₀ e : GraphEngine σ μ}
    (clients : cfg.clients ≤ e₀.config.workerCount) {trs : List (List (WorkerId × Event μ))}
    {k : Nat} {pool : Pool μ}
    (run : Run (NextSuperstep act compute) (0, e₀, Pool.init) trs (k, e, pool)) :
    GraphEngine.Execution compute e₀ trs k e ∧ pool.Rested act := by
  have answer : ∀ (s : Superstep × GraphEngine σ μ × Pool μ) tr
      (s' : Superstep × GraphEngine σ μ × Pool μ) (t : Superstep × GraphEngine σ μ),
      NextSuperstep act compute s tr s' →
      t = (s.1, s.2.1) ∧ s.2.2.Rested act ∧ s.2.1.config = e₀.config →
      ∃ t', GraphEngine.NextSuperstep compute t tr t' ∧
        t' = (s'.1, s'.2.1) ∧ s'.2.2.Rested act ∧ s'.2.1.config = e₀.config := by
    rintro s tr s' t next ⟨rfl, rested, config⟩
    obtain ⟨hnext, rested', config'⟩ := next_of_threads joining (config ▸ clients) rested next
    exact ⟨_, hnext, rfl, rested', config'.trans config⟩
  obtain ⟨t, exec, rfl, rested, -⟩ := Run.simulation
    (fun (s : Superstep × GraphEngine σ μ × Pool μ) (t : Superstep × GraphEngine σ μ) =>
      t = (s.1, s.2.1) ∧ s.2.2.Rested act ∧ s.2.1.config = e₀.config) id answer run
    ⟨rfl, rested_init act, rfl⟩
  rw [List.map_id] at exec
  exact ⟨exec, rested⟩

end Supersteps

end Pregel.SharedScheduler
