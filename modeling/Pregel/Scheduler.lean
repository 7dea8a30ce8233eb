import Mathlib.Data.List.Nodup
import Mathlib.Data.List.Perm.Subperm
import Pregel.Lib.Lts

/-!
The task scheduler (`numa_scheduler.hpp`, `numa_scheduler.cpp`).

One scheduler serves all workers. A client pushes a task under the lock of its
node's queue and only then adds it to `total_submitted_`; a pool thread pops a
task, runs it, takes it off `active_tasks` and only then adds it to
`total_completed_`; `wait_all` compares the two totals, read by two loads whose
order the language leaves open. `Step` has one transition for each of these atomic
accesses, for any number of nodes, pool threads and clients.

A pushed task is a `Job`, with the number of pushes before it as identity. The
state records which jobs were pushed, counted as submitted, executed and counted
as completed, so that both totals are lengths (`Inv`). The totals are numbers without
a bound: they are the 64-bit counters of the source for fewer than 2 ^ 64
submissions.

* `inv_step`, `run_inv`: a job is in at most one place at a time, is executed at
  most once, and the totals count what they should.
* `joins_of_safe_loads`: a `wait_all` whose first load, of `total_completed_`,
  finds no completed job that is not counted as submitted, joins.
* `not_waitAllJoins`: a second client breaks the join. Its task may complete
  between push and count, and is then mistaken for one of the waiting client's.
-/

namespace Pregel.Scheduler

open Lts

/-- `Task`, without the closure it runs. -/
structure Task where
  taskId : Nat
  preferredNumaNode : Nat
  expectedDuration : Nat := 100
  deriving DecidableEq, Repr

structure Config where
  numaNodes : Nat
  threadsPerNode : Nat
  clients : Nat
  deriving DecidableEq, Repr

/-- A task with the client that pushed it and the number of pushes before it. -/
structure Job where
  ticket : Nat
  client : Nat
  task : Task
  deriving DecidableEq, Repr

/-- `NumaQueue`. -/
structure NumaQueue where
  tasks : List Job := []
  activeTasks : Int := 0
  deriving DecidableEq, Repr

/-- Where a pool thread stands in `worker_thread`: looking for a task, before the
call of `fn`, after it, and after the decrement of `active_tasks`. -/
inductive PoolPc where
  | idle
  | popped (j : Job)
  | executed (j : Job)
  | released (j : Job)
  deriving DecidableEq, Repr

/-- The job a pool thread works on. -/
def PoolPc.job : PoolPc → Option Job
  | .idle => none
  | .popped j => some j
  | .executed j => some j
  | .released j => some j

/-- Where a client stands: between calls, inside `submit` after the push, and in
`wait_all` before the loads and after one of them. -/
inductive ClientPc where
  | idle
  | pushed (j : Job)
  | waiting
  | sawCompleted (n : Nat)
  | sawSubmitted (n : Nat)
  deriving DecidableEq, Repr

/-- The scheduler with its clients. The four lists are history: jobs pushed,
counted in `total_submitted_`, executed, and counted in `total_completed_`. -/
structure State where
  queues : Nat → NumaQueue
  totalSubmitted : Nat
  totalCompleted : Nat
  pool : Nat × Nat → PoolPc
  clients : Nat → ClientPc
  pushed : List Job
  counted : List Job
  executed : List Job
  completed : List Job

def State.init : State where
  queues := fun _ => {}
  totalSubmitted := 0
  totalCompleted := 0
  pool := fun _ => .idle
  clients := fun _ => .idle
  pushed := []
  counted := []
  executed := []
  completed := []

inductive Action where
  | push (c : Nat) (t : Task)
  | count (c : Nat)
  | pop (p : Nat × Nat)
  | execute (p : Nat × Nat)
  | release (p : Nat × Nat)
  | complete (p : Nat × Nat)
  | callWait (c : Nat)
  | loadCompleted (c : Nat)
  | loadSubmitted (c : Nat)
  | waitAgain (c : Nat)
  | waitReturn (c : Nat)
  deriving DecidableEq, Repr

/-- The node whose queue takes a task. -/
def Config.nodeOf (cfg : Config) (t : Task) : Nat := t.preferredNumaNode % cfg.numaNodes

/-- The atomic accesses of `submit`, `worker_thread` and `wait_all`. -/
inductive Step (cfg : Config) : State → Action → State → Prop where
  | push {s : State} {c : Nat} {t : Task} (client : c < cfg.clients) (pc : s.clients c = .idle) :
      Step cfg s (.push c t)
        { s with
          queues := Function.update s.queues (cfg.nodeOf t)
            { tasks := (s.queues (cfg.nodeOf t)).tasks ++ [⟨s.pushed.length, c, t⟩]
              activeTasks := (s.queues (cfg.nodeOf t)).activeTasks + 1 }
          clients := Function.update s.clients c (.pushed ⟨s.pushed.length, c, t⟩)
          pushed := s.pushed ++ [⟨s.pushed.length, c, t⟩] }
  | count {s : State} {c : Nat} {j : Job} (pc : s.clients c = .pushed j) :
      Step cfg s (.count c)
        { s with
          totalSubmitted := s.totalSubmitted + 1
          clients := Function.update s.clients c .idle
          counted := s.counted ++ [j] }
  | pop {s : State} {p : Nat × Nat} {j : Job} {r : List Job} (node : p.1 < cfg.numaNodes)
      (thread : p.2 < cfg.threadsPerNode) (pc : s.pool p = .idle)
      (queue : (s.queues p.1).tasks = j :: r) :
      Step cfg s (.pop p)
        { s with
          queues := Function.update s.queues p.1 { s.queues p.1 with tasks := r }
          pool := Function.update s.pool p (.popped j) }
  | execute {s : State} {p : Nat × Nat} {j : Job} (pc : s.pool p = .popped j) :
      Step cfg s (.execute p)
        { s with
          pool := Function.update s.pool p (.executed j)
          executed := s.executed ++ [j] }
  | release {s : State} {p : Nat × Nat} {j : Job} (pc : s.pool p = .executed j) :
      Step cfg s (.release p)
        { s with
          queues := Function.update s.queues p.1
            { s.queues p.1 with activeTasks := (s.queues p.1).activeTasks - 1 }
          pool := Function.update s.pool p (.released j) }
  | complete {s : State} {p : Nat × Nat} {j : Job} (pc : s.pool p = .released j) :
      Step cfg s (.complete p)
        { s with
          totalCompleted := s.totalCompleted + 1
          pool := Function.update s.pool p .idle
          completed := s.completed ++ [j] }
  | callWait {s : State} {c : Nat} (client : c < cfg.clients) (pc : s.clients c = .idle) :
      Step cfg s (.callWait c) { s with clients := Function.update s.clients c .waiting }
  | loadCompleted {s : State} {c : Nat} (pc : s.clients c = .waiting) :
      Step cfg s (.loadCompleted c)
        { s with clients := Function.update s.clients c (.sawCompleted s.totalCompleted) }
  | loadSubmitted {s : State} {c : Nat} (pc : s.clients c = .waiting) :
      Step cfg s (.loadSubmitted c)
        { s with clients := Function.update s.clients c (.sawSubmitted s.totalSubmitted) }
  | submittedAgain {s : State} {c n : Nat} (pc : s.clients c = .sawCompleted n)
      (less : n < s.totalSubmitted) :
      Step cfg s (.waitAgain c) { s with clients := Function.update s.clients c .waiting }
  | submittedReturn {s : State} {c n : Nat} (pc : s.clients c = .sawCompleted n)
      (done : ¬ n < s.totalSubmitted) :
      Step cfg s (.waitReturn c) { s with clients := Function.update s.clients c .idle }
  | completedAgain {s : State} {c n : Nat} (pc : s.clients c = .sawSubmitted n)
      (less : s.totalCompleted < n) :
      Step cfg s (.waitAgain c) { s with clients := Function.update s.clients c .waiting }
  | completedReturn {s : State} {c n : Nat} (pc : s.clients c = .sawSubmitted n)
      (done : ¬ s.totalCompleted < n) :
      Step cfg s (.waitReturn c) { s with clients := Function.update s.clients c .idle }

/-- Every task client `c` has pushed has been executed. -/
def OwnDone (s : State) (c : Nat) : Prop :=
  ∀ j ∈ s.pushed, j.client = c → j ∈ s.executed

/-- `wait_all` is a join for its caller, in every run of the scheduler. -/
def WaitAllJoins (cfg : Config) : Prop :=
  ∀ ls s, Run (Step cfg) State.init ls s →
    ∀ c t, Step cfg s (.waitReturn c) t → OwnDone s c

/-! ### Where the jobs are -/

/-- The queues and the pool: who has which job. -/
structure PoolInv (cfg : Config) (s : State) : Prop where
  queued : ∀ k, ∀ j ∈ (s.queues k).tasks,
    cfg.nodeOf j.task = k ∧ j ∈ s.pushed ∧ j ∉ s.executed ∧ ∀ p, (s.pool p).job ≠ some j
  queue_nodup : ∀ k, (s.queues k).tasks.Nodup
  held : ∀ p j, (s.pool p).job = some j → j ∈ s.pushed ∧ j ∉ s.completed
  held_once : ∀ p p' j, (s.pool p).job = some j → (s.pool p').job = some j → p = p'
  popped : ∀ p j, s.pool p = .popped j → j ∉ s.executed
  ran : ∀ p j, (s.pool p = .executed j ∨ s.pool p = .released j) → j ∈ s.executed
  executed_sub : ∀ j ∈ s.executed, j ∈ s.pushed
  executed_nodup : s.executed.Nodup
  completed_sub : ∀ j ∈ s.completed, j ∈ s.executed
  completed_nodup : s.completed.Nodup
  completed_count : s.totalCompleted = s.completed.length

/-- The clients: which jobs are pushed and counted. -/
structure ClientInv (cfg : Config) (s : State) : Prop where
  tickets : ∀ j ∈ s.pushed, j.ticket < s.pushed.length
  owner : ∀ j ∈ s.pushed, j.client < cfg.clients
  active : ∀ c, s.clients c ≠ .idle → c < cfg.clients
  mid : ∀ c j, s.clients c = .pushed j → j ∈ s.pushed ∧ j ∉ s.counted ∧ j.client = c
  counted_or_mid : ∀ j ∈ s.pushed, j ∈ s.counted ∨ s.clients j.client = .pushed j
  counted_sub : ∀ j ∈ s.counted, j ∈ s.pushed
  counted_nodup : s.counted.Nodup
  counted_count : s.totalSubmitted = s.counted.length

structure Inv (cfg : Config) (s : State) : Prop where
  pool : PoolInv cfg s
  clients : ClientInv cfg s

theorem inv_init (cfg : Config) : Inv cfg State.init where
  pool := by constructor <;> simp [State.init, PoolPc.job]
  clients := by constructor <;> simp [State.init]

/-- The pool does not look at the clients. -/
theorem PoolInv.frame {cfg : Config} {s : State} (h : PoolInv cfg s) (submitted : Nat)
    (clients : Nat → ClientPc) (counted : List Job) :
    PoolInv cfg { s with totalSubmitted := submitted, clients := clients, counted := counted } :=
  ⟨h.queued, h.queue_nodup, h.held, h.held_once, h.popped, h.ran, h.executed_sub,
    h.executed_nodup, h.completed_sub, h.completed_nodup, h.completed_count⟩

/-- The clients do not look at the pool. -/
theorem ClientInv.frame {cfg : Config} {s : State} (h : ClientInv cfg s)
    (queues : Nat → NumaQueue) (pool : Nat × Nat → PoolPc) (executed completed : List Job)
    (total : Nat) :
    ClientInv cfg { s with queues := queues, pool := pool, executed := executed,
                           completed := completed, totalCompleted := total } :=
  ⟨h.tickets, h.owner, h.active, h.mid, h.counted_or_mid, h.counted_sub, h.counted_nodup,
    h.counted_count⟩

/-- A client that moves between points outside `submit` changes nothing else. -/
theorem ClientInv.move {cfg : Config} {s : State} (h : ClientInv cfg s) {c : Nat} {pc : ClientPc}
    (hc : c < cfg.clients) (hbefore : ∀ j, s.clients c ≠ .pushed j) (hafter : ∀ j, pc ≠ .pushed j) :
    ClientInv cfg { s with clients := Function.update s.clients c pc } where
  tickets := h.tickets
  owner := h.owner
  active c' hc' := by
    by_cases hcc : c' = c
    · exact hcc ▸ hc
    · simp only [Function.update_of_ne hcc] at hc'
      exact h.active c' hc'
  mid c' j hj := by
    by_cases hc : c' = c
    · subst hc
      simp only [Function.update_self] at hj
      exact absurd hj (hafter j)
    · simp only [Function.update_of_ne hc] at hj
      exact h.mid c' j hj
  counted_or_mid j hj := by
    rcases h.counted_or_mid j hj with hc | hm
    · exact Or.inl hc
    · have hne : j.client ≠ c := by
        rintro rfl
        exact hbefore j hm
      exact Or.inr (by simpa only [Function.update_of_ne hne] using hm)
  counted_sub := h.counted_sub
  counted_nodup := h.counted_nodup
  counted_count := h.counted_count

section Push

variable {cfg : Config} {s : State} {c : Nat} {t : Task}

theorem ClientInv.fresh (h : ClientInv cfg s) : (⟨s.pushed.length, c, t⟩ : Job) ∉ s.pushed := by
  intro hmem
  exact absurd (h.tickets _ hmem) (Nat.lt_irrefl _)

theorem PoolInv.push (h : PoolInv cfg s) {j : Job} (fresh : j ∉ s.pushed)
    (clients : Nat → ClientPc) :
    PoolInv cfg { s with
      queues := Function.update s.queues (cfg.nodeOf j.task)
        { tasks := (s.queues (cfg.nodeOf j.task)).tasks ++ [j]
          activeTasks := (s.queues (cfg.nodeOf j.task)).activeTasks + 1 }
      clients := clients
      pushed := s.pushed ++ [j] } where
  queued k j' hj' := by
    have hold : j' ∈ (s.queues k).tasks → cfg.nodeOf j'.task = k ∧ j' ∈ s.pushed ++ [j] ∧
        j' ∉ s.executed ∧ ∀ p, (s.pool p).job ≠ some j' := fun hmem =>
      have ⟨hnode, hpushed, hexec, hheld⟩ := h.queued k j' hmem
      ⟨hnode, List.mem_append_left _ hpushed, hexec, hheld⟩
    by_cases hk : k = cfg.nodeOf j.task
    · subst hk
      simp only [Function.update_self, List.mem_append, List.mem_singleton] at hj'
      rcases hj' with hj' | rfl
      · exact hold hj'
      · -- the new job is nowhere else yet
        exact ⟨rfl, by simp, fun he => fresh (h.executed_sub _ he),
          fun p hp => fresh (h.held p _ hp).1⟩
    · simp only [Function.update_of_ne hk] at hj'
      exact hold hj'
  queue_nodup k := by
    by_cases hk : k = cfg.nodeOf j.task
    · subst hk
      simp only [Function.update_self]
      rw [← List.concat_eq_append]
      exact (h.queue_nodup _).concat fun hmem => fresh (h.queued _ _ hmem).2.1
    · simpa only [Function.update_of_ne hk] using h.queue_nodup k
  held p j' hp := ⟨List.mem_append_left _ (h.held p j' hp).1, (h.held p j' hp).2⟩
  held_once := h.held_once
  popped := h.popped
  ran := h.ran
  executed_sub j' hj' := List.mem_append_left _ (h.executed_sub j' hj')
  executed_nodup := h.executed_nodup
  completed_sub := h.completed_sub
  completed_nodup := h.completed_nodup
  completed_count := h.completed_count

theorem ClientInv.push (h : ClientInv cfg s) (client : c < cfg.clients)
    (pc : s.clients c = .idle) (queues : Nat → NumaQueue) :
    ClientInv cfg { s with
      queues := queues
      clients := Function.update s.clients c (.pushed ⟨s.pushed.length, c, t⟩)
      pushed := s.pushed ++ [⟨s.pushed.length, c, t⟩] } where
  tickets j hj := by
    rcases List.mem_append.mp hj with hj | hj
    · have := h.tickets j hj
      simp only [List.length_append, List.length_singleton]
      omega
    · rw [List.mem_singleton.mp hj]
      simp
  owner j hj := by
    rcases List.mem_append.mp hj with hj | hj
    · exact h.owner j hj
    · rw [List.mem_singleton.mp hj]
      exact client
  active c' hc' := by
    by_cases hc : c' = c
    · exact hc ▸ client
    · simp only [Function.update_of_ne hc] at hc'
      exact h.active c' hc'
  mid c' j hj := by
    by_cases hc : c' = c
    · subst hc
      simp only [Function.update_self, ClientPc.pushed.injEq] at hj
      subst hj
      exact ⟨by simp, fun hcount => h.fresh (h.counted_sub _ hcount), rfl⟩
    · simp only [Function.update_of_ne hc] at hj
      obtain ⟨hpushed, hcount, howner⟩ := h.mid c' j hj
      exact ⟨List.mem_append_left _ hpushed, hcount, howner⟩
  counted_or_mid j hj := by
    rcases List.mem_append.mp hj with hj | hj
    · rcases h.counted_or_mid j hj with hcount | hm
      · exact Or.inl hcount
      · have hne : j.client ≠ c := by
          rintro rfl
          simp [pc] at hm
        exact Or.inr (by simpa only [Function.update_of_ne hne] using hm)
    · rw [List.mem_singleton.mp hj]
      exact Or.inr (by simp)
  counted_sub j hj := List.mem_append_left _ (h.counted_sub j hj)
  counted_nodup := h.counted_nodup
  counted_count := h.counted_count

end Push

theorem ClientInv.count {cfg : Config} {s : State} (h : ClientInv cfg s) {c : Nat} {j : Job}
    (pc : s.clients c = .pushed j) :
    ClientInv cfg { s with
      totalSubmitted := s.totalSubmitted + 1
      clients := Function.update s.clients c .idle
      counted := s.counted ++ [j] } where
  tickets := h.tickets
  owner := h.owner
  active c' hc' := by
    by_cases hc : c' = c
    · exact h.active c' (by simp [hc, pc])
    · simp only [Function.update_of_ne hc] at hc'
      exact h.active c' hc'
  mid c' j' hj' := by
    by_cases hc : c' = c
    · subst hc
      simp at hj'
    · simp only [Function.update_of_ne hc] at hj'
      obtain ⟨hpushed, hcount, howner⟩ := h.mid c' j' hj'
      refine ⟨hpushed, fun hmem => ?_, howner⟩
      rcases List.mem_append.mp hmem with hmem | hmem
      · exact hcount hmem
      · -- both clients would own the job
        rw [List.mem_singleton] at hmem
        subst hmem
        exact hc (howner.symm.trans (h.mid c j' pc).2.2)
  counted_or_mid j' hj' := by
    rcases h.counted_or_mid j' hj' with hcount | hm
    · exact Or.inl (List.mem_append_left _ hcount)
    · by_cases hc : j'.client = c
      · rw [hc, pc, ClientPc.pushed.injEq] at hm
        exact Or.inl (by simp [hm])
      · exact Or.inr (by simpa only [Function.update_of_ne hc] using hm)
  counted_sub j' hj' := by
    rcases List.mem_append.mp hj' with hj' | hj'
    · exact h.counted_sub j' hj'
    · rw [List.mem_singleton.mp hj']
      exact (h.mid c j pc).1
  counted_nodup := by
    rw [← List.concat_eq_append]
    exact h.counted_nodup.concat (h.mid c j pc).2.1
  counted_count := by simp [h.counted_count]

section Pool

variable {cfg : Config} {s : State} {p : Nat × Nat} {j : Job}

theorem job_update_ne {q : Nat × Nat} (hq : q ≠ p) (pc : PoolPc) :
    (Function.update s.pool p pc q).job = (s.pool q).job := by
  rw [Function.update_of_ne hq]

/-- A thread that moves on to another section than the one after its pop. -/
theorem PoolInv.popped_update (h : PoolInv cfg s) {pc : PoolPc} (hpc : ∀ j, pc ≠ .popped j)
    {q : Nat × Nat} (hq : Function.update s.pool p pc q = .popped j) : j ∉ s.executed := by
  by_cases hqp : q = p
  · subst hqp
    rw [Function.update_self] at hq
    exact absurd hq (hpc j)
  · rw [Function.update_of_ne hqp] at hq
    exact h.popped q j hq

/-- A thread that moves on to a section before its task has run, or after its round. -/
theorem PoolInv.ran_update (h : PoolInv cfg s) {pc : PoolPc}
    (hpc : ∀ j, pc ≠ .executed j ∧ pc ≠ .released j) {q : Nat × Nat}
    (hq : Function.update s.pool p pc q = .executed j ∨
      Function.update s.pool p pc q = .released j) : j ∈ s.executed := by
  by_cases hqp : q = p
  · subst hqp
    rw [Function.update_self] at hq
    rcases hq with hq | hq
    · exact absurd hq (hpc j).1
    · exact absurd hq (hpc j).2
  · rw [Function.update_of_ne hqp] at hq
    exact h.ran q j hq

theorem PoolInv.pop (h : PoolInv cfg s) {rest : List Job} (pc : s.pool p = .idle)
    (queue : (s.queues p.1).tasks = j :: rest) :
    PoolInv cfg { s with
      queues := Function.update s.queues p.1 { s.queues p.1 with tasks := rest }
      pool := Function.update s.pool p (.popped j) } := by
  have hhead := h.queued p.1 j (by simp [queue])
  have hnodup := h.queue_nodup p.1
  rw [queue, List.nodup_cons] at hnodup
  -- the thread that popped is the only one with the head of the queue
  have hjob : ∀ {q j'}, (Function.update s.pool p (.popped j) q).job = some j' →
      (q = p ∧ j' = j) ∨ (q ≠ p ∧ (s.pool q).job = some j') := by
    intro q j' hq
    by_cases hqp : q = p
    · subst hqp
      simp only [Function.update_self, PoolPc.job, Option.some.injEq] at hq
      exact Or.inl ⟨rfl, hq.symm⟩
    · rw [job_update_ne hqp] at hq
      exact Or.inr ⟨hqp, hq⟩
  constructor
  case queued =>
    intro k j' hj'
    have hother : j' ∈ (s.queues k).tasks → j' ≠ j →
        cfg.nodeOf j'.task = k ∧ j' ∈ s.pushed ∧ j' ∉ s.executed ∧
          ∀ q, (Function.update s.pool p (.popped j) q).job ≠ some j' := by
      intro hmem hne
      obtain ⟨hnode, hpushed, hexec, hheld⟩ := h.queued k j' hmem
      refine ⟨hnode, hpushed, hexec, fun q hq => ?_⟩
      rcases hjob hq with ⟨-, heq⟩ | ⟨-, hq⟩
      · exact hne heq
      · exact hheld q hq
    by_cases hk : k = p.1
    · subst hk
      simp only [Function.update_self] at hj'
      exact hother (by simp [queue, hj']) (fun heq => hnodup.1 (heq ▸ hj'))
    · simp only [Function.update_of_ne hk] at hj'
      apply hother hj'
      rintro rfl
      exact hk ((h.queued k j' hj').1.symm.trans hhead.1)
  case queue_nodup =>
    intro k
    by_cases hk : k = p.1
    · subst hk
      simpa only [Function.update_self] using hnodup.2
    · simpa only [Function.update_of_ne hk] using h.queue_nodup k
  case held =>
    intro q j' hq
    rcases hjob hq with ⟨-, rfl⟩ | ⟨-, hq⟩
    · exact ⟨hhead.2.1, fun hc => hhead.2.2.1 (h.completed_sub _ hc)⟩
    · exact h.held q j' hq
  case held_once =>
    intro q q' j' hq hq'
    rcases hjob hq with ⟨hqp, hj⟩ | ⟨-, hq⟩ <;> rcases hjob hq' with ⟨hqp', hj'⟩ | ⟨-, hq'⟩
    · rw [hqp, hqp']
    · exact absurd (hj ▸ hq') (hhead.2.2.2 q')
    · exact absurd (hj' ▸ hq) (hhead.2.2.2 q)
    · exact h.held_once q q' j' hq hq'
  case popped =>
    intro q j' hq
    by_cases hqp : q = p
    · subst hqp
      simp only [Function.update_self, PoolPc.popped.injEq] at hq
      exact hq ▸ hhead.2.2.1
    · simp only [Function.update_of_ne hqp] at hq
      exact h.popped q j' hq
  case ran => exact fun q j' hq => h.ran_update (by simp) hq
  case executed_sub => exact h.executed_sub
  case executed_nodup => exact h.executed_nodup
  case completed_sub => exact h.completed_sub
  case completed_nodup => exact h.completed_nodup
  case completed_count => exact h.completed_count

theorem job_update_same {pc : PoolPc} (hpc : pc.job = (s.pool p).job) (q : Nat × Nat) :
    (Function.update s.pool p pc q).job = (s.pool q).job := by
  by_cases hq : q = p
  · subst hq
    rw [Function.update_self, hpc]
  · exact job_update_ne hq pc

theorem PoolInv.execute (h : PoolInv cfg s) (pc : s.pool p = .popped j) :
    PoolInv cfg { s with
      pool := Function.update s.pool p (.executed j)
      executed := s.executed ++ [j] } := by
  have hjob : ∀ q, (Function.update s.pool p (.executed j) q).job = (s.pool q).job :=
    job_update_same (by simp [PoolPc.job, pc])
  have hmine : (s.pool p).job = some j := by simp [pc, PoolPc.job]
  constructor
  case queued =>
    intro k j' hj'
    obtain ⟨hnode, hpushed, hexec, hheld⟩ := h.queued k j' hj'
    refine ⟨hnode, hpushed, fun hmem => ?_, fun q hq => hheld q ((hjob q).symm.trans hq)⟩
    rcases List.mem_append.mp hmem with hmem | hmem
    · exact hexec hmem
    · exact hheld p (List.mem_singleton.mp hmem ▸ hmine)
  case queue_nodup => exact h.queue_nodup
  case held => exact fun q j' hq => h.held q j' ((hjob q).symm.trans hq)
  case held_once =>
    exact fun q q' j' hq hq' =>
      h.held_once q q' j' ((hjob q).symm.trans hq) ((hjob q').symm.trans hq')
  case popped =>
    intro q j' hq
    by_cases hqp : q = p
    · subst hqp
      simp at hq
    · simp only [Function.update_of_ne hqp] at hq
      intro hmem
      rcases List.mem_append.mp hmem with hmem | hmem
      · exact h.popped q j' hq hmem
      · -- two threads would hold the job
        rw [List.mem_singleton] at hmem
        exact hqp (h.held_once q p j (by simp [hq, hmem, PoolPc.job]) hmine)
  case ran =>
    intro q j' hq
    by_cases hqp : q = p
    · subst hqp
      simp only [Function.update_self, PoolPc.executed.injEq, reduceCtorEq, or_false] at hq
      simp [hq]
    · simp only [Function.update_of_ne hqp] at hq
      exact List.mem_append_left _ (h.ran q j' hq)
  case executed_sub =>
    intro j' hj'
    rcases List.mem_append.mp hj' with hj' | hj'
    · exact h.executed_sub j' hj'
    · rw [List.mem_singleton.mp hj']
      exact (h.held p j hmine).1
  case executed_nodup =>
    rw [← List.concat_eq_append]
    exact h.executed_nodup.concat (h.popped p j pc)
  case completed_sub => exact fun j' hj' => List.mem_append_left _ (h.completed_sub j' hj')
  case completed_nodup => exact h.completed_nodup
  case completed_count => exact h.completed_count

theorem PoolInv.release (h : PoolInv cfg s) (pc : s.pool p = .executed j) :
    PoolInv cfg { s with
      queues := Function.update s.queues p.1
        { s.queues p.1 with activeTasks := (s.queues p.1).activeTasks - 1 }
      pool := Function.update s.pool p (.released j) } := by
  have hjob : ∀ q, (Function.update s.pool p (.released j) q).job = (s.pool q).job :=
    job_update_same (by simp [PoolPc.job, pc])
  have htasks : ∀ k, (Function.update s.queues p.1
      { s.queues p.1 with activeTasks := (s.queues p.1).activeTasks - 1 } k).tasks =
        (s.queues k).tasks := by
    intro k
    by_cases hk : k = p.1
    · subst hk
      rw [Function.update_self]
    · rw [Function.update_of_ne hk]
  constructor
  case queued =>
    intro k j' hj'
    obtain ⟨hnode, hpushed, hexec, hheld⟩ := h.queued k j' (htasks k ▸ hj')
    exact ⟨hnode, hpushed, hexec, fun q hq => hheld q ((hjob q).symm.trans hq)⟩
  case queue_nodup => exact fun k => htasks k ▸ h.queue_nodup k
  case held => exact fun q j' hq => h.held q j' ((hjob q).symm.trans hq)
  case held_once =>
    exact fun q q' j' hq hq' =>
      h.held_once q q' j' ((hjob q).symm.trans hq) ((hjob q').symm.trans hq')
  case popped => exact fun q j' hq => h.popped_update (by simp) hq
  case ran =>
    intro q j' hq
    by_cases hqp : q = p
    · subst hqp
      simp only [Function.update_self, PoolPc.released.injEq, reduceCtorEq, false_or] at hq
      exact hq ▸ h.ran q j (Or.inl pc)
    · simp only [Function.update_of_ne hqp] at hq
      exact h.ran q j' hq
  case executed_sub => exact h.executed_sub
  case executed_nodup => exact h.executed_nodup
  case completed_sub => exact h.completed_sub
  case completed_nodup => exact h.completed_nodup
  case completed_count => exact h.completed_count

theorem PoolInv.complete (h : PoolInv cfg s) (pc : s.pool p = .released j) :
    PoolInv cfg { s with
      totalCompleted := s.totalCompleted + 1
      pool := Function.update s.pool p .idle
      completed := s.completed ++ [j] } := by
  have hmine : (s.pool p).job = some j := by simp [pc, PoolPc.job]
  have hjob : ∀ {q j'}, (Function.update s.pool p .idle q).job = some j' →
      q ≠ p ∧ (s.pool q).job = some j' := by
    intro q j' hq
    by_cases hqp : q = p
    · subst hqp
      simp [PoolPc.job] at hq
    · exact ⟨hqp, (job_update_ne hqp _).symm.trans hq⟩
  constructor
  case queued =>
    intro k j' hj'
    obtain ⟨hnode, hpushed, hexec, hheld⟩ := h.queued k j' hj'
    exact ⟨hnode, hpushed, hexec, fun q hq => hheld q (hjob hq).2⟩
  case queue_nodup => exact h.queue_nodup
  case held =>
    intro q j' hq
    obtain ⟨hqp, hq⟩ := hjob hq
    refine ⟨(h.held q j' hq).1, fun hmem => ?_⟩
    rcases List.mem_append.mp hmem with hmem | hmem
    · exact (h.held q j' hq).2 hmem
    · exact hqp (h.held_once q p j (List.mem_singleton.mp hmem ▸ hq) hmine)
  case held_once =>
    exact fun q q' j' hq hq' => h.held_once q q' j' (hjob hq).2 (hjob hq').2
  case popped => exact fun q j' hq => h.popped_update (by simp) hq
  case ran => exact fun q j' hq => h.ran_update (by simp) hq
  case executed_sub => exact h.executed_sub
  case executed_nodup => exact h.executed_nodup
  case completed_sub =>
    intro j' hj'
    rcases List.mem_append.mp hj' with hj' | hj'
    · exact h.completed_sub j' hj'
    · rw [List.mem_singleton.mp hj']
      exact h.ran p j (Or.inr pc)
  case completed_nodup =>
    rw [← List.concat_eq_append]
    exact h.completed_nodup.concat (h.held p j hmine).2
  case completed_count => simp [h.completed_count]

end Pool

/-- **Accounting.** Every atomic access keeps the places of all jobs and the two
totals right. -/
theorem inv_step {cfg : Config} {s t : State} {a : Action} (inv : Inv cfg s)
    (step : Step cfg s a t) : Inv cfg t := by
  cases step with
  | @push c t client pc =>
      exact ⟨inv.pool.push (j := ⟨s.pushed.length, c, t⟩) inv.clients.fresh _,
        inv.clients.push client pc _⟩
  | count pc => exact ⟨inv.pool.frame _ _ _, inv.clients.count pc⟩
  | pop node thread pc queue => exact ⟨inv.pool.pop pc queue, inv.clients.frame _ _ _ _ _⟩
  | execute pc => exact ⟨inv.pool.execute pc, inv.clients.frame _ _ _ _ _⟩
  | release pc => exact ⟨inv.pool.release pc, inv.clients.frame _ _ _ _ _⟩
  | complete pc => exact ⟨inv.pool.complete pc, inv.clients.frame _ _ _ _ _⟩
  | callWait client pc =>
      exact ⟨inv.pool.frame _ _ _, inv.clients.move client (by simp [pc]) (by simp)⟩
  | @loadCompleted c pc =>
      have hc := inv.clients.active c (by simp [pc])
      exact ⟨inv.pool.frame _ _ _, inv.clients.move hc (by simp [pc]) (by simp)⟩
  | @loadSubmitted c pc =>
      have hc := inv.clients.active c (by simp [pc])
      exact ⟨inv.pool.frame _ _ _, inv.clients.move hc (by simp [pc]) (by simp)⟩
  | @submittedAgain c n pc less =>
      have hc := inv.clients.active c (by simp [pc])
      exact ⟨inv.pool.frame _ _ _, inv.clients.move hc (by simp [pc]) (by simp)⟩
  | @submittedReturn c n pc done =>
      have hc := inv.clients.active c (by simp [pc])
      exact ⟨inv.pool.frame _ _ _, inv.clients.move hc (by simp [pc]) (by simp)⟩
  | @completedAgain c n pc less =>
      have hc := inv.clients.active c (by simp [pc])
      exact ⟨inv.pool.frame _ _ _, inv.clients.move hc (by simp [pc]) (by simp)⟩
  | @completedReturn c n pc done =>
      have hc := inv.clients.active c (by simp [pc])
      exact ⟨inv.pool.frame _ _ _, inv.clients.move hc (by simp [pc]) (by simp)⟩

theorem run_inv {cfg : Config} {s : State} {ls : List Action}
    (run : Run (Step cfg) State.init ls s) : Inv cfg s :=
  run.invariant (Inv cfg) (fun _ _ _ inv step => inv_step inv step) (inv_init cfg)

/-! ### When `wait_all` joins -/

/-- No completed job is still missing from the submitted ones. -/
def Safe (s : State) : Prop := ∀ j ∈ s.completed, j ∈ s.counted

/-- If as many jobs are completed as are counted, and only counted ones are, then
all counted jobs are completed. -/
theorem Inv.completed_of_length {cfg : Config} {s : State} (inv : Inv cfg s) (safe : Safe s)
    (hlen : s.counted.length ≤ s.completed.length) : ∀ j ∈ s.counted, j ∈ s.completed :=
  have hsub := List.subperm_of_subset inv.pool.completed_nodup (fun j hj => safe j hj)
  fun _ hj => (hsub.perm_of_length_le hlen).mem_iff.mpr hj

/-- The jobs of a client that is not inside `submit` are all counted. -/
theorem Inv.own_counted {cfg : Config} {s : State} (inv : Inv cfg s) {c : Nat}
    (hc : ∀ j, s.clients c ≠ .pushed j) {j : Job} (hj : j ∈ s.pushed) (hown : j.client = c) :
    j ∈ s.counted := by
  rcases inv.clients.counted_or_mid j hj with h | h
  · exact h
  · exact absurd (hown ▸ h) (hc j)

theorem Inv.ownDone_of_length {cfg : Config} {s : State} (inv : Inv cfg s) (safe : Safe s)
    {c : Nat} (hc : ∀ j, s.clients c ≠ .pushed j)
    (hlen : s.totalSubmitted ≤ s.totalCompleted) : OwnDone s c := by
  intro j hj hown
  rw [inv.clients.counted_count, inv.pool.completed_count] at hlen
  exact inv.pool.completed_sub j
    (inv.completed_of_length safe hlen j (inv.own_counted hc hj hown))

/-- A client that has read `total_completed_` either is done, or will see that
more was submitted. -/
def SawOk (s : State) : Prop :=
  ∀ c n, s.clients c = .sawCompleted n → OwnDone s c ∨ n < s.totalSubmitted

/-- Client `c` keeps what it knows while it does not push. -/
theorem ownDone_mono {s t : State} {c : Nat} (h : OwnDone s c)
    (hpushed : ∀ j ∈ t.pushed, j ∈ s.pushed ∨ j.client ≠ c)
    (hexecuted : ∀ j ∈ s.executed, j ∈ t.executed) : OwnDone t c := by
  intro j hj hown
  rcases hpushed j hj with hj | hne
  · exact hexecuted j (h j hj hown)
  · exact absurd hown hne

theorem SawOk.frame {s t : State} (h : SawOk s)
    (hclients : ∀ c n, t.clients c = .sawCompleted n → s.clients c = .sawCompleted n)
    (hpushed : ∀ c n, t.clients c = .sawCompleted n → ∀ j ∈ t.pushed, j ∈ s.pushed ∨ j.client ≠ c)
    (hexecuted : ∀ j ∈ s.executed, j ∈ t.executed)
    (htotal : s.totalSubmitted ≤ t.totalSubmitted) : SawOk t := by
  intro c n hc
  rcases h c n (hclients c n hc) with hdone | hless
  · exact Or.inl (ownDone_mono hdone (hpushed c n hc) hexecuted)
  · exact Or.inr (Nat.lt_of_lt_of_le hless htotal)

theorem sawCompleted_of_update {s : State} {c c' n : Nat} {pc : ClientPc}
    (hpc : ∀ n, pc ≠ .sawCompleted n)
    (h : Function.update s.clients c pc c' = .sawCompleted n) :
    c' ≠ c ∧ s.clients c' = .sawCompleted n := by
  by_cases hc : c' = c
  · subst hc
    rw [Function.update_self] at h
    exact absurd h (hpc n)
  · rw [Function.update_of_ne hc] at h
    exact ⟨hc, h⟩

/-- The load of `total_completed_` is safe where no uncounted job is completed. -/
theorem sawOk_step {cfg : Config} {s t : State} {a : Action} (inv : Inv cfg s) (ok : SawOk s)
    (safe : ∀ c, s.clients c = .waiting → Safe s) (step : Step cfg s a t) : SawOk t := by
  have stays : ∀ {c pc}, (∀ n, pc ≠ .sawCompleted n) →
      SawOk { s with clients := Function.update s.clients c pc } := fun hpc =>
    ok.frame (fun _ _ h => (sawCompleted_of_update hpc h).2) (fun _ _ _ j hj => Or.inl hj)
      (fun _ h => h) (Nat.le_refl _)
  cases step with
  | push client pc =>
      refine ok.frame (fun _ _ h => (sawCompleted_of_update (by simp) h).2) ?_ (fun _ h => h)
        (Nat.le_refl _)
      intro c' n hc' j hj
      rcases List.mem_append.mp hj with hj | hj
      · exact Or.inl hj
      · rw [List.mem_singleton.mp hj]
        exact Or.inr (sawCompleted_of_update (by simp) hc').1.symm
  | count pc =>
      exact ok.frame (fun _ _ h => (sawCompleted_of_update (by simp) h).2)
        (fun _ _ _ j hj => Or.inl hj) (fun _ h => h) (Nat.le_succ _)
  | execute pc =>
      exact ok.frame (fun _ _ h => h) (fun _ _ _ j hj => Or.inl hj)
        (fun _ h => List.mem_append_left _ h) (Nat.le_refl _)
  | pop node thread pc queue => exact ok
  | release pc => exact ok
  | complete pc => exact ok
  | @loadCompleted c pc =>
      intro c' n hc'
      by_cases hc : c' = c
      · subst hc
        simp only [Function.update_self, ClientPc.sawCompleted.injEq] at hc'
        subst hc'
        by_cases hless : s.totalCompleted < s.totalSubmitted
        · exact Or.inr hless
        · exact Or.inl (inv.ownDone_of_length (safe c' pc) (by simp [pc]) (Nat.not_lt.mp hless))
      · simp only [Function.update_of_ne hc] at hc'
        exact ok c' n hc'
  | callWait client pc => exact stays (by simp)
  | loadSubmitted pc => exact stays (by simp)
  | submittedAgain pc less => exact stays (by simp)
  | submittedReturn pc done => exact stays (by simp)
  | completedAgain pc less => exact stays (by simp)
  | completedReturn pc done => exact stays (by simp)

/-- **The join rule.** For any restriction `Step'` of the scheduler's steps and any
invariant `J` of it: if `J` makes a load of `total_completed_` safe and a wait that
loaded `total_submitted_` first end only when its caller's jobs are done, then
`wait_all` joins. -/
theorem joins_of_safe_loads {cfg : Config} {Step' : State → Action → State → Prop}
    (J : State → Prop) (sub : ∀ s a t, Step' s a t → Step cfg s a t) (init : J State.init)
    (preserved : ∀ s a t, Inv cfg s → J s → Step' s a t → J t)
    (safe : ∀ s c, Inv cfg s → J s → s.clients c = .waiting → Safe s)
    (late : ∀ s c n, Inv cfg s → J s → s.clients c = .sawSubmitted n →
      ¬ s.totalCompleted < n → OwnDone s c)
    {ls : List Action} {s : State} (run : Run Step' State.init ls s) {c : Nat} {t : State}
    (ret : Step' s (.waitReturn c) t) : OwnDone s c := by
  obtain ⟨inv, hJ, hsaw⟩ := run.invariant (fun s => Inv cfg s ∧ J s ∧ SawOk s)
    (fun s a t ⟨inv, hJ, hsaw⟩ step => ⟨inv_step inv (sub s a t step),
      preserved s a t inv hJ step, sawOk_step inv hsaw (fun c hc => safe s c inv hJ hc)
        (sub s a t step)⟩)
    ⟨inv_init cfg, init, by simp [SawOk, State.init]⟩
  cases sub _ _ _ ret with
  | submittedReturn pc done => exact (hsaw c _ pc).resolve_right done
  | completedReturn pc done => exact late s c _ inv hJ pc done

/-- With one client, a client inside `wait_all` is the only one there is. -/
theorem Inv.safe_of_single {cfg : Config} {s : State} (inv : Inv cfg s) (single : cfg.clients ≤ 1)
    {c : Nat} (hidle : s.clients c ≠ .idle) (hc : ∀ j, s.clients c ≠ .pushed j) : Safe s := by
  intro j hj
  have hpushed := inv.pool.executed_sub j (inv.pool.completed_sub j hj)
  have hown : j.client = c := by
    have h₁ := inv.clients.owner j hpushed
    have h₂ := inv.clients.active c hidle
    omega
  exact inv.own_counted hc hpushed hown

/-- Only the load of `total_submitted_` brings a client to the point after it. -/
theorem sawSubmitted_step {cfg : Config} {s t : State} {a : Action} {c n : Nat}
    (step : Step cfg s a t) (h : t.clients c = .sawSubmitted n) :
    s.clients c = .sawSubmitted n ∨
      (a = .loadSubmitted c ∧ s.clients c = .waiting ∧ n = s.totalSubmitted) := by
  have other : ∀ {c' pc}, pc ≠ .sawSubmitted n →
      Function.update s.clients c' pc c = .sawSubmitted n → s.clients c = .sawSubmitted n := by
    intro c' pc hpc h
    by_cases hc : c = c'
    · subst hc
      rw [Function.update_self] at h
      exact absurd h hpc
    · rwa [Function.update_of_ne hc] at h
  cases step with
  | @loadSubmitted c' pc =>
      by_cases hc : c = c'
      · subst hc
        simp only [Function.update_self, ClientPc.sawSubmitted.injEq] at h
        exact Or.inr ⟨rfl, pc, h.symm⟩
      · simp only [Function.update_of_ne hc] at h
        exact Or.inl h
  | pop => exact Or.inl h
  | execute => exact Or.inl h
  | release => exact Or.inl h
  | complete => exact Or.inl h
  | push => exact Or.inl (other (by simp) h)
  | count => exact Or.inl (other (by simp) h)
  | callWait => exact Or.inl (other (by simp) h)
  | loadCompleted => exact Or.inl (other (by simp) h)
  | submittedAgain => exact Or.inl (other (by simp) h)
  | submittedReturn => exact Or.inl (other (by simp) h)
  | completedAgain => exact Or.inl (other (by simp) h)
  | completedReturn => exact Or.inl (other (by simp) h)

/-- `total_submitted_` moves only when a client leaves `submit`. -/
theorem totalSubmitted_step {cfg : Config} {s t : State} {a : Action} (step : Step cfg s a t) :
    t.totalSubmitted = s.totalSubmitted ∨
      ∃ c j, s.clients c = .pushed j ∧ t.clients c = .idle := by
  cases step with
  | count pc => exact Or.inr ⟨_, _, pc, by simp⟩
  | _ => exact Or.inl rfl

/-- A new job belongs to a client inside `submit`. -/
theorem pushed_step {cfg : Config} {s t : State} {a : Action} (step : Step cfg s a t) {j : Job}
    (hj : j ∈ t.pushed) : j ∈ s.pushed ∨ t.clients j.client = .pushed j := by
  cases step with
  | push client pc =>
      rcases List.mem_append.mp hj with hj | hj
      · exact Or.inl hj
      · rw [List.mem_singleton.mp hj]
        exact Or.inr (by simp)
  | _ => exact Or.inl hj

/-- Jobs are completed one at a time, by the thread that holds them. -/
theorem completed_step {cfg : Config} {s t : State} {a : Action} (step : Step cfg s a t) :
    t.completed = s.completed ∨
      ∃ p j, a = .complete p ∧ s.pool p = .released j ∧ t.completed = s.completed ++ [j] := by
  cases step with
  | complete pc => exact Or.inr ⟨_, _, rfl, pc, rfl⟩
  | _ => exact Or.inl rfl

theorem counted_step {cfg : Config} {s t : State} {a : Action} (step : Step cfg s a t) {j : Job}
    (hj : j ∈ s.counted) : j ∈ t.counted := by
  cases step with
  | count pc => exact List.mem_append_left _ hj
  | _ => exact hj

/-- A single client's `wait_all` joins: while it waits nothing is submitted. -/
theorem joins_of_single {cfg : Config} (single : cfg.clients ≤ 1) : WaitAllJoins cfg := by
  intro ls s run c t ret
  refine joins_of_safe_loads
    (J := fun s => ∀ c n, s.clients c = .sawSubmitted n → n = s.totalSubmitted)
    (fun _ _ _ h => h) (by simp [State.init]) ?_ ?_ ?_ run ret
  · intro s a t inv hJ step c n hc
    have htotal : t.totalSubmitted = s.totalSubmitted := by
      rcases totalSubmitted_step step with h | ⟨c', j, hpushed, hidle⟩
      · exact h
      · -- the client that leaves `submit` is the one that waits
        have h₁ := inv.clients.active c' (by simp [hpushed])
        have h₂ := (inv_step inv step).clients.active c (by simp [hc])
        have heq : c' = c := by omega
        rw [heq, hc] at hidle
        cases hidle
    rw [htotal]
    rcases sawSubmitted_step step hc with h | ⟨-, -, hn⟩
    · exact hJ c n h
    · exact hn
  · intro s c inv _ hc
    exact inv.safe_of_single single (c := c) (by simp [hc]) (by simp [hc])
  · intro s c n inv hJ hc hdone
    rw [hJ c n hc] at hdone
    exact inv.ownDone_of_length
      (inv.safe_of_single single (c := c) (by simp [hc]) (by simp [hc])) (by simp [hc])
      (Nat.not_lt.mp hdone)

/-- Without pool threads nothing completes, and a client with a task never
returns. -/
theorem joins_of_no_threads {cfg : Config} (none : cfg.threadsPerNode = 0) :
    WaitAllJoins cfg := by
  intro ls s run c t ret
  refine joins_of_safe_loads
    (J := fun s => (∀ p, s.pool p = .idle) ∧ s.completed = [] ∧
      ∀ c n, s.clients c = .sawSubmitted n → ∀ j ∈ s.pushed, j.client = c → 0 < n)
    (fun _ _ _ h => h) (by simp [State.init]) ?_ ?_ ?_ run ret
  · rintro s a t inv ⟨hidle, hcompleted, hJ⟩ step
    refine ⟨fun p => ?_, ?_, fun c n hc j hj hown => ?_⟩
    · cases step with
      | pop node thread => omega
      | execute pc => simp [hidle] at pc
      | release pc => simp [hidle] at pc
      | complete pc => simp [hidle] at pc
      | _ => exact hidle p
    · rcases completed_step step with h | ⟨p, j, -, hp, -⟩
      · rw [h, hcompleted]
      · simp [hidle] at hp
    · have hj : j ∈ s.pushed := by
        rcases pushed_step step hj with h | h
        · exact h
        · rw [hown, hc] at h
          cases h
      rcases sawSubmitted_step step hc with h | ⟨-, hwait, hn⟩
      · exact hJ c n h j hj hown
      · have hcounted := inv.own_counted (c := c) (by simp [hwait]) hj hown
        rw [hn, inv.clients.counted_count]
        exact List.length_pos_of_mem hcounted
  · rintro s c inv ⟨-, hcompleted, -⟩ -
    simp [Safe, hcompleted]
  · rintro s c n inv ⟨-, hcompleted, hJ⟩ hc hdone j hj hown
    have hpos := hJ c n hc j hj hown
    rw [inv.pool.completed_count, hcompleted] at hdone
    exact absurd hpos hdone

/-- The steps of a run in which no task is completed before its submission is
counted, and `wait_all` loads `total_completed_` first. -/
def CountedStep (cfg : Config) (s : State) (a : Action) (t : State) : Prop :=
  Step cfg s a t ∧ (∀ p j, a = .complete p → s.pool p = .released j → j ∈ s.counted) ∧
    ∀ c, a ≠ .loadSubmitted c

theorem joins_of_counted {cfg : Config} {ls : List Action} {s t : State} {c : Nat}
    (run : Run (CountedStep cfg) State.init ls s) (ret : CountedStep cfg s (.waitReturn c) t) :
    OwnDone s c := by
  refine joins_of_safe_loads (J := fun s => Safe s ∧ ∀ c n, s.clients c ≠ .sawSubmitted n)
    (fun _ _ _ h => h.1) (by simp [Safe, State.init]) ?_ (fun _ _ _ h _ => h.1)
    (fun _ c n _ h hc => absurd hc (h.2 c n)) run ret
  rintro s a t inv ⟨safe, hsaw⟩ ⟨step, hcounted, hload⟩
  refine ⟨fun j hj => ?_, fun c n hc => ?_⟩
  · rcases completed_step step with h | ⟨p, j', ha, hp, h⟩
    · exact counted_step step (safe j (h ▸ hj))
    · rw [h, List.mem_append, List.mem_singleton] at hj
      rcases hj with hj | rfl
      · exact counted_step step (safe j hj)
      · exact counted_step step (hcounted p j ha hp)
  · rcases sawSubmitted_step step hc with h | ⟨ha, -, -⟩
    · exact hsaw c n h
    · exact hload c ha

/-- **Two clients break the join.** Client 1 pushes a task; it is executed and
counted as completed before client 1 counts it as submitted. Client 0 submits a
task and waits: it reads one completed, one submitted, and returns while its own
task is still queued. -/
theorem not_waitAllJoins {cfg : Config} (nodes : 1 ≤ cfg.numaNodes)
    (threads : 1 ≤ cfg.threadsPerNode) (clients : 2 ≤ cfg.clients) : ¬ WaitAllJoins cfg := by
  intro joins
  let t : Task := { taskId := 0, preferredNumaNode := 0 }
  have hnode : cfg.nodeOf t = 0 := Nat.zero_mod _
  let other : Job := ⟨0, 1, t⟩
  let own : Job := ⟨1, 0, t⟩
  have run : ∃ s, Run (Step cfg) State.init
      [.push 1 t, .pop (0, 0), .execute (0, 0), .release (0, 0), .complete (0, 0),
        .push 0 t, .count 0, .callWait 0, .loadCompleted 0] s ∧
      s.clients 0 = .sawCompleted 1 ∧ s.totalSubmitted = 1 ∧ own ∈ s.pushed ∧
      own ∉ s.executed := by
    refine ⟨_, .cons (.push (by omega) rfl) (.cons (.pop (j := other) (r := []) nodes threads rfl
      (by simp [hnode, State.init, other])) (.cons (.execute (j := other) (by simp))
      (.cons (.release (j := other) (by simp)) (.cons (.complete (j := other) (by simp))
      (.cons (.push (by omega) (by simp [State.init]))
      (.cons (.count (j := own) (by simp [State.init, own]))
      (.cons (.callWait (by omega) (by simp)) (.cons (.loadCompleted (by simp)) (.nil _))))))))),
      ?_, ?_, ?_, ?_⟩
    · simp [State.init]
    · simp [State.init]
    · simp [State.init, own]
    · simp [State.init, own, other]
  obtain ⟨s, run, hpc, htotal, hpushed, hexecuted⟩ := run
  exact hexecuted (joins _ s run 0 _ (.submittedReturn hpc (by omega)) own hpushed rfl)

/-- **When `wait_all` is a join.** In every run, if and only if at most one thread
submits or nothing is ever executed. With several submitters it still joins in
every run that completes no task before its submission is counted and reads
`total_completed_` first. -/
theorem waitAllJoins_iff (cfg : Config) (nodes : 1 ≤ cfg.numaNodes) :
    (WaitAllJoins cfg ↔ cfg.clients ≤ 1 ∨ cfg.threadsPerNode = 0) ∧
    ∀ (ls : List Action) (s : State), Run (CountedStep cfg) State.init ls s →
      ∀ c t, CountedStep cfg s (.waitReturn c) t → OwnDone s c := by
  refine ⟨⟨fun joins => ?_, ?_⟩, ?_⟩
  · by_contra hneg
    obtain ⟨hclients, hthreads⟩ := not_or.mp hneg
    exact not_waitAllJoins nodes (Nat.pos_of_ne_zero hthreads) (Nat.not_le.mp hclients) joins
  · rintro (single | none)
    · exact joins_of_single single
    · exact joins_of_no_threads none
  · exact fun ls s run c t ret => joins_of_counted run ret

/-- The join of a single client, and a run of two clients in which client 0's task
is counted before it completes. -/
theorem waitAllJoins_iff_runs :
    WaitAllJoins ⟨1, 1, 1⟩ ∧
      ∃ s : State, (⟨0, 0, { taskId := 7, preferredNumaNode := 0 }⟩ : Job) ∈ s.pushed ∧
        OwnDone s 0 := by
  let t : Task := { taskId := 7, preferredNumaNode := 0 }
  let own : Job := ⟨0, 0, t⟩
  refine ⟨(waitAllJoins_iff ⟨1, 1, 1⟩ (Nat.le_refl 1)).1.mpr (Or.inl (Nat.le_refl 1)), ?_⟩
  have run : ∃ s, Run (CountedStep ⟨1, 1, 2⟩) State.init
      [.push 0 t, .count 0, .pop (0, 0), .execute (0, 0), .release (0, 0), .complete (0, 0),
        .callWait 0, .loadCompleted 0] s ∧
      s.clients 0 = .sawCompleted 1 ∧ s.totalSubmitted = 1 ∧ own ∈ s.pushed := by
    refine ⟨_, .cons ⟨.push (by decide) rfl, by simp⟩
      (.cons ⟨.count (j := own) (by simp [State.init, own]), by simp⟩
      (.cons ⟨.pop (j := own) (r := []) (by decide) (by decide) rfl
        (by simp [State.init, own, Config.nodeOf, Nat.mod_one]), by simp⟩
      (.cons ⟨.execute (j := own) (by simp), by simp⟩
      (.cons ⟨.release (j := own) (by simp), by simp⟩
      (.cons ⟨.complete (j := own) (by simp), fun p j hp hj => by
          cases hp
          simp only [Function.update_self, PoolPc.released.injEq] at hj
          simp [← hj], by simp⟩
      (.cons ⟨.callWait (by decide) (by simp), by simp⟩
      (.cons ⟨.loadCompleted (by simp), by simp⟩ (.nil _)))))))), ?_, ?_, ?_⟩
    · simp [State.init]
    · simp [State.init]
    · simp [State.init, own]
  obtain ⟨s, run, hpc, htotal, hpushed⟩ := run
  exact ⟨s, hpushed, (waitAllJoins_iff ⟨1, 1, 2⟩ (Nat.le_refl 1)).2 _ s run 0 _
    ⟨.submittedReturn hpc (by omega), by simp⟩⟩

/-- Two clients on one node with one thread. -/
theorem waitAllJoins_two_clients : ¬ WaitAllJoins ⟨1, 1, 2⟩ :=
  not_waitAllJoins (Nat.le_refl 1) (Nat.le_refl 1) (Nat.le_refl 2)

end Pregel.Scheduler
