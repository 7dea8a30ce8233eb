import Pregel.Lib.Range
import Pregel.Scheduler

/-!
What the counters of the scheduler count (`numa_scheduler.hpp`, `numa_scheduler.cpp`).

`active_tasks` goes up inside the lock of its queue, together with the push, and down
outside of it, after the task has run; `total_completed_` goes up after that. `Account`
states what the counters mean at every program point of every thread.

`ObservedStep` adds a history to the steps of the scheduler: what was appended to the
back of each queue and what was taken from its front, read off the queues themselves.

* `account_step`, `run_account`: every step keeps the account, and so does every run.
* `no_task_lost_or_repeated`: the jobs of a queue are queued, held or finished, in one
  of the three ways only, they are popped in push order and executed once, and the
  counters are exact.
* `leastLoadedNode`, `migrates_to_least_loaded`: the node with the fewest tasks.
-/

namespace Pregel.Scheduler

open Lts

/-- What has been pushed to and popped from each queue so far. -/
structure History where
  pushedTo : Nat → List Job := fun _ => []
  popped : Nat → List Job := fun _ => []

/-- A push adds what is new at the back of the queues, a pop what has left their front. -/
def observe (s : State) (a : Action) (t : State) (h : History) : History :=
  match a with
  | .push _ _ =>
      { pushedTo := fun k =>
          h.pushedTo k ++ (t.queues k).tasks.drop (s.queues k).tasks.length
        popped := h.popped }
  | .pop _ =>
      { pushedTo := h.pushedTo
        popped := fun k => h.popped k ++
          (s.queues k).tasks.take ((s.queues k).tasks.length - (t.queues k).tasks.length) }
  | _ => h

/-- A step of the scheduler, observed. -/
def ObservedStep (cfg : Config) (s : State × History) (a : Action) (t : State × History) : Prop :=
  Step cfg s.1 a t.1 ∧ t.2 = observe s.1 a t.1 s.2

theorem Step.observed {cfg : Config} {s t : State} {a : Action} (step : Step cfg s a t)
    (h : History) : ObservedStep cfg (s, h) a (t, observe s a t h) := ⟨step, rfl⟩

/-- Observing a run does not disturb it. -/
theorem observed_of_run {cfg : Config} {s t : State} {ls : List Action} (run : Run (Step cfg) s ls t)
    (h : History) : ∃ h', Run (ObservedStep cfg) (s, h) ls (t, h') := by
  induction run generalizing h with
  | nil s => exact ⟨h, .nil _⟩
  | cons hstep _ ih =>
      obtain ⟨h', rest⟩ := ih _
      exact ⟨h', .cons (hstep.observed h) rest⟩

/-- A thread with a task whose decrement of `active_tasks` is still to come. -/
def PoolPc.unreleased : PoolPc → Bool
  | .popped _ => true
  | .executed _ => true
  | _ => false

/-- The threads of node `k` whose decrement is still to come. -/
def unreleased (cfg : Config) (s : State) (k : Nat) : Nat :=
  (List.range cfg.threadsPerNode).countP fun i => (s.pool (k, i)).unreleased

/-- Every job is accounted for. -/
structure Account (cfg : Config) (s : State) (h : History) : Prop where
  pushed_nodup : s.pushed.Nodup
  placed : ∀ k, h.pushedTo k = s.pushed.filter fun j => cfg.nodeOf j.task = k
  order : ∀ k, h.popped k ++ (s.queues k).tasks = h.pushedTo k
  kept : ∀ j ∈ s.pushed, j ∈ (s.queues (cfg.nodeOf j.task)).tasks ∨
    (∃ i, (s.pool (cfg.nodeOf j.task, i)).job = some j) ∨ j ∈ s.completed
  node : ∀ p j, (s.pool p).job = some j → cfg.nodeOf j.task = p.1
  thread : ∀ p, s.pool p ≠ .idle → p.2 < cfg.threadsPerNode
  active : ∀ k, (s.queues k).activeTasks = (s.queues k).tasks.length + unreleased cfg s k

theorem account_init (cfg : Config) : Account cfg State.init {} := by
  constructor <;> simp [State.init, PoolPc.job, unreleased, PoolPc.unreleased]

section Steps

variable {cfg : Config} {s : State} {h : History} {p : Nat × Nat} {j : Job}

/-- A step that leaves the queues, the pool and the jobs alone. -/
theorem Account.frame (acc : Account cfg s h) (submitted total : Nat) (clients : Nat → ClientPc)
    (counted executed : List Job) :
    Account cfg { s with totalSubmitted := submitted, clients := clients, counted := counted,
                         executed := executed, totalCompleted := total } h :=
  ⟨acc.pushed_nodup, acc.placed, acc.order, acc.kept, acc.node, acc.thread, acc.active⟩

theorem Account.push (acc : Account cfg s h) (fresh : j ∉ s.pushed) (clients : Nat → ClientPc)
    {t : State} (ht : t = { s with
      queues := Function.update s.queues (cfg.nodeOf j.task)
        { tasks := (s.queues (cfg.nodeOf j.task)).tasks ++ [j]
          activeTasks := (s.queues (cfg.nodeOf j.task)).activeTasks + 1 }
      clients := clients
      pushed := s.pushed ++ [j] }) {c : Nat} :
    Account cfg t (observe s (.push c j.task) t h) := by
  have htasks : ∀ k, (t.queues k).tasks =
      (s.queues k).tasks ++ if cfg.nodeOf j.task = k then [j] else [] := by
    intro k
    subst ht
    rcases eq_or_ne k (cfg.nodeOf j.task) with rfl | hk
    · simp
    · simp [hk, hk.symm]
  have hnew : ∀ k, (observe s (.push c j.task) t h).pushedTo k =
      h.pushedTo k ++ if cfg.nodeOf j.task = k then [j] else [] := by
    intro k
    simp [observe, htasks k]
  have hpushed : t.pushed = s.pushed ++ [j] := by rw [ht]
  have hpool : t.pool = s.pool := by rw [ht]
  have hcompleted : t.completed = s.completed := by rw [ht]
  constructor
  case pushed_nodup =>
    rw [hpushed, ← List.concat_eq_append]
    exact acc.pushed_nodup.concat fresh
  case placed =>
    intro k
    rw [hnew, acc.placed, hpushed, List.filter_append, List.filter_singleton]
    congr 1
    by_cases hk : cfg.nodeOf j.task = k
    · simp [hk]
    · simp [hk]
  case order =>
    intro k
    rw [hnew, htasks, ← acc.order k, List.append_assoc]
    rfl
  case kept =>
    intro j' hj'
    rw [hpushed] at hj'
    rw [htasks, hpool, hcompleted]
    rcases List.mem_append.mp hj' with hj' | hj'
    · rcases acc.kept j' hj' with hq | hrest
      · exact Or.inl (List.mem_append_left _ hq)
      · exact Or.inr hrest
    · rw [List.mem_singleton.mp hj']
      exact Or.inl (by simp)
  case node => rw [hpool]; exact acc.node
  case thread => rw [hpool]; exact acc.thread
  case active =>
    intro k
    have hactive := acc.active k
    have hun : unreleased cfg t k = unreleased cfg s k := by simp [unreleased, hpool]
    rw [hun, htasks, List.length_append]
    subst ht
    rcases eq_or_ne k (cfg.nodeOf j.task) with rfl | hk
    · simp only [Function.update_self, if_true, List.length_singleton]
      omega
    · simp only [Function.update_of_ne hk, if_neg hk.symm, List.length_nil]
      omega

/-- One thread moves on: which threads still owe a decrement. -/
theorem unreleased_update (hp : p.2 < cfg.threadsPerNode) {t : State} {pc : PoolPc}
    (ht : t.pool = Function.update s.pool p pc) (k : Nat) :
    unreleased cfg t k + (if p.1 = k then (s.pool p).unreleased.toNat else 0) =
      unreleased cfg s k + if p.1 = k then pc.unreleased.toNat else 0 := by
  unfold unreleased
  rw [ht]
  by_cases hk : p.1 = k
  · have hcount := List.countP_range_update hp (p := fun i => (s.pool (k, i)).unreleased)
      (q := fun i => (Function.update s.pool p pc (k, i)).unreleased) (by
        intro i hi
        have hne : (k, i) ≠ p := fun heq => hi (by rw [← heq])
        simp only [Function.update_of_ne hne])
    have hself : (k, p.2) = p := by rw [← hk]
    simp only [hself, Function.update_self] at hcount
    simpa [hk] using hcount
  · have hsame : ∀ i, Function.update s.pool p pc (k, i) = s.pool (k, i) := by
      intro i
      have hne : (k, i) ≠ p := fun heq => hk (by rw [← heq])
      rw [Function.update_of_ne hne]
    simp [hsame, hk]

theorem Account.pop (acc : Account cfg s h) {r : List Job} (hnode : cfg.nodeOf j.task = p.1)
    (thread : p.2 < cfg.threadsPerNode) (pc : s.pool p = .idle)
    (queue : (s.queues p.1).tasks = j :: r) {t : State} (ht : t = { s with
      queues := Function.update s.queues p.1 { s.queues p.1 with tasks := r }
      pool := Function.update s.pool p (.popped j) }) :
    Account cfg t (observe s (.pop p) t h) := by
  have htasks : ∀ k, (s.queues k).tasks = (if p.1 = k then [j] else []) ++ (t.queues k).tasks := by
    intro k
    subst ht
    rcases eq_or_ne k p.1 with rfl | hk
    · simp [queue]
    · simp [hk, hk.symm]
  have hnew : ∀ k, (observe s (.pop p) t h).popped k =
      h.popped k ++ if p.1 = k then [j] else [] := by
    intro k
    show h.popped k ++ _ = _
    rw [htasks k]
    simp
  have hpool : t.pool = Function.update s.pool p (.popped j) := by rw [ht]
  have hpushed : t.pushed = s.pushed := by rw [ht]
  have hcompleted : t.completed = s.completed := by rw [ht]
  constructor
  case pushed_nodup => rw [hpushed]; exact acc.pushed_nodup
  case placed => intro k; rw [hpushed]; exact acc.placed k
  case order =>
    intro k
    rw [hnew, List.append_assoc, ← htasks k]
    exact acc.order k
  case kept =>
    intro j' hj'
    rw [hpushed] at hj'
    rw [hpool, hcompleted]
    rcases acc.kept j' hj' with hq | ⟨i, hi⟩ | hc
    · rw [htasks, List.mem_append] at hq
      rcases hq with hq | hq
      · -- the job that leaves the queue is the thread's now
        split at hq
        · rw [List.mem_singleton] at hq
          subst hq
          exact Or.inr (Or.inl ⟨p.2, by simp [hnode, PoolPc.job]⟩)
        · cases hq
      · exact Or.inl hq
    · have hne : (cfg.nodeOf j'.task, i) ≠ p := by
        rintro rfl
        simp [pc, PoolPc.job] at hi
      exact Or.inr (Or.inl ⟨i, by rwa [Function.update_of_ne hne]⟩)
    · exact Or.inr (Or.inr hc)
  case node =>
    intro q j' hq
    rw [hpool] at hq
    rcases eq_or_ne q p with rfl | hne
    · simp only [Function.update_self, PoolPc.job, Option.some.injEq] at hq
      exact hq ▸ hnode
    · rw [Function.update_of_ne hne] at hq
      exact acc.node q j' hq
  case thread =>
    intro q hq
    rw [hpool] at hq
    rcases eq_or_ne q p with rfl | hne
    · exact thread
    · rw [Function.update_of_ne hne] at hq
      exact acc.thread q hq
  case active =>
    intro k
    have hactive := acc.active k
    have hun := unreleased_update (s := s) thread hpool k
    have hsame : (t.queues k).activeTasks = (s.queues k).activeTasks := by
      subst ht
      rcases eq_or_ne k p.1 with rfl | hk
      · simp
      · simp [hk]
    rw [htasks k, List.length_append] at hactive
    rw [hsame]
    by_cases hk : p.1 = k
    · simp only [hk, if_true, pc, PoolPc.unreleased, Bool.toNat_false, Bool.toNat_true,
        List.length_singleton] at hun hactive
      omega
    · simp only [hk, if_false, List.length_nil] at hun hactive
      omega

/-- A thread goes on with its job; its queue may lose the active task it stood for. -/
theorem Account.move (acc : Account cfg s h) {pc : PoolPc} (hbusy : s.pool p ≠ .idle)
    (hjob : pc.job = (s.pool p).job) {t : State} (hpool : t.pool = Function.update s.pool p pc)
    (hpushed : t.pushed = s.pushed) (hcompleted : t.completed = s.completed)
    (htasks : ∀ k, (t.queues k).tasks = (s.queues k).tasks)
    (hactive : ∀ k, (t.queues k).activeTasks +
      (if p.1 = k then (s.pool p).unreleased.toNat else 0 : Nat) =
        (s.queues k).activeTasks + (if p.1 = k then pc.unreleased.toNat else 0 : Nat)) :
    Account cfg t h := by
  have hsame : ∀ q, (t.pool q).job = (s.pool q).job := by
    intro q
    rw [hpool]
    exact job_update_same hjob q
  constructor
  case pushed_nodup => rw [hpushed]; exact acc.pushed_nodup
  case placed => rw [hpushed]; exact acc.placed
  case order => intro k; rw [htasks]; exact acc.order k
  case kept =>
    intro j hj
    simp only [hsame, htasks, hcompleted]
    exact acc.kept j (hpushed ▸ hj)
  case node => intro q j hq; exact acc.node q j (hsame q ▸ hq)
  case thread =>
    intro q hq
    rcases eq_or_ne q p with rfl | hne
    · exact acc.thread q hbusy
    · rw [hpool, Function.update_of_ne hne] at hq
      exact acc.thread q hq
  case active =>
    intro k
    have hk := acc.active k
    have hak := hactive k
    have hun := unreleased_update (s := s) (acc.thread p hbusy) hpool k
    rw [htasks]
    omega

theorem Account.complete (acc : Account cfg s h) (pc : s.pool p = .released j) (total : Nat) :
    Account cfg { s with
      totalCompleted := total
      pool := Function.update s.pool p .idle
      completed := s.completed ++ [j] } h := by
  have hbusy : s.pool p ≠ .idle := by simp [pc]
  have hother : ∀ {q}, Function.update s.pool p .idle q ≠ .idle → q ≠ p := by
    rintro q hq rfl
    simp at hq
  constructor
  case pushed_nodup => exact acc.pushed_nodup
  case placed => exact acc.placed
  case order => exact acc.order
  case kept =>
    intro j' hj'
    rcases acc.kept j' hj' with hq | ⟨i, hi⟩ | hc
    · exact Or.inl hq
    · rcases eq_or_ne (cfg.nodeOf j'.task, i) p with heq | hne
      · rw [heq, pc, PoolPc.job, Option.some.injEq] at hi
        exact Or.inr (Or.inr (by simp [hi]))
      · exact Or.inr (Or.inl ⟨i, by rwa [job_update_ne hne]⟩)
    · exact Or.inr (Or.inr (List.mem_append_left _ hc))
  case node =>
    intro q j' hq
    rcases eq_or_ne q p with rfl | hne
    · simp [PoolPc.job] at hq
    · rw [job_update_ne hne] at hq
      exact acc.node q j' hq
  case thread =>
    intro q hq
    have hne := hother hq
    simp only [Function.update_of_ne hne] at hq
    exact acc.thread q hq
  case active =>
    intro k
    have hk := acc.active k
    have hun := unreleased_update (s := s) (acc.thread p hbusy)
      (t := { s with
        totalCompleted := total
        pool := Function.update s.pool p .idle
        completed := s.completed ++ [j] }) rfl k
    simp only [pc, PoolPc.unreleased, Bool.toNat_false, ite_self, Nat.add_zero] at hun
    rw [hun]
    exact hk

end Steps

/-- **One step keeps the account.** -/
theorem account_step {cfg : Config} {s t : State} {h : History} {a : Action} (inv : Inv cfg s)
    (acc : Account cfg s h) (step : Step cfg s a t) : Account cfg t (observe s a t h) := by
  cases step with
  | push client pc => exact acc.push (j := ⟨_, _, _⟩) inv.clients.fresh _ rfl
  | pop node thread pc queue =>
      exact acc.pop (inv.pool.queued _ _ (by simp [queue])).1 thread pc queue rfl
  | @execute p j pc =>
      exact acc.move (p := p) (by simp [pc]) (by simp [pc, PoolPc.job]) rfl rfl rfl (fun _ => rfl)
        (fun k => by simp [pc, PoolPc.unreleased])
  | @release p j pc =>
      refine acc.move (p := p) (by simp [pc]) (by simp [pc, PoolPc.job]) rfl rfl rfl ?_ ?_
      · intro k
        rcases eq_or_ne k p.1 with rfl | hk
        · simp
        · simp [hk]
      · intro k
        rcases eq_or_ne k p.1 with rfl | hk
        · simp [pc, PoolPc.unreleased]
        · simp [hk, hk.symm]
  | complete pc => exact acc.complete pc _
  | count pc => exact acc.frame _ _ _ _ _
  | callWait => exact acc.frame _ _ _ _ _
  | loadCompleted => exact acc.frame _ _ _ _ _
  | loadSubmitted => exact acc.frame _ _ _ _ _
  | submittedAgain => exact acc.frame _ _ _ _ _
  | submittedReturn => exact acc.frame _ _ _ _ _
  | completedAgain => exact acc.frame _ _ _ _ _
  | completedReturn => exact acc.frame _ _ _ _ _

theorem run_account {cfg : Config} {ls : List Action} {s : State} {h : History}
    (run : Run (ObservedStep cfg) (State.init, {}) ls (s, h)) : Inv cfg s ∧ Account cfg s h := by
  refine run.invariant (fun x => Inv cfg x.1 ∧ Account cfg x.1 x.2) ?_
    ⟨inv_init cfg, account_init cfg⟩
  rintro ⟨s, h⟩ a ⟨t, h'⟩ ⟨inv, acc⟩ ⟨step, hobserved⟩
  have hobserved : h' = observe s a t h := hobserved
  subst hobserved
  exact ⟨inv_step inv step, account_step inv acc step⟩

/-! ### Nothing lost and nothing done twice -/

/-- A pool thread of node `k` has popped the job and not yet counted it as completed. -/
def Held (s : State) (k : Nat) (j : Job) : Prop := ∃ i, (s.pool (k, i)).job = some j

/-- The job belongs to node `k` and is counted in `total_completed_`. -/
def Finished (cfg : Config) (s : State) (k : Nat) (j : Job) : Prop :=
  cfg.nodeOf j.task = k ∧ j ∈ s.completed

/-- The queue of node `k`: its jobs and its counters. -/
structure Accounted (cfg : Config) (s : State) (h : History) (k : Nat) : Prop where
  placed : ∀ j, j ∈ h.pushedTo k ↔ j ∈ s.pushed ∧ j.task.preferredNumaNode % cfg.numaNodes = k
  union : ∀ j, j ∈ h.pushedTo k ↔ j ∈ (s.queues k).tasks ∨ Held s k j ∨ Finished cfg s k j
  queued_not_held : ∀ j ∈ (s.queues k).tasks, ¬ Held s k j
  queued_not_finished : ∀ j ∈ (s.queues k).tasks, ¬ Finished cfg s k j
  held_not_finished : ∀ j, Held s k j → ¬ Finished cfg s k j
  held_once : ∀ i i' j, (s.pool (k, i)).job = some j → (s.pool (k, i')).job = some j → i = i'
  distinct : (h.pushedTo k).Nodup
  popped_in_order : h.popped k ++ (s.queues k).tasks = h.pushedTo k
  active : (s.queues k).activeTasks = (s.queues k).tasks.length + unreleased cfg s k
  active_nonneg : 0 ≤ (s.queues k).activeTasks
  decrement : ∀ i t, Step cfg s (.release (k, i)) t → 0 < (s.queues k).activeTasks

theorem Account.union {cfg : Config} {s : State} {h : History} (inv : Inv cfg s)
    (acc : Account cfg s h) {k : Nat} {j : Job} :
    j ∈ h.pushedTo k ↔ j ∈ (s.queues k).tasks ∨ Held s k j ∨ Finished cfg s k j := by
  rw [acc.placed, List.mem_filter, decide_eq_true_eq]
  constructor
  · rintro ⟨hpushed, rfl⟩
    rcases acc.kept j hpushed with hq | hheld | hc
    · exact Or.inl hq
    · exact Or.inr (Or.inl hheld)
    · exact Or.inr (Or.inr ⟨rfl, hc⟩)
  · rintro (hq | ⟨i, hi⟩ | ⟨hnode, hc⟩)
    · obtain ⟨hnode, hpushed, -, -⟩ := inv.pool.queued k j hq
      exact ⟨hpushed, hnode⟩
    · exact ⟨(inv.pool.held _ j hi).1, acc.node _ j hi⟩
    · exact ⟨inv.pool.executed_sub j (inv.pool.completed_sub j hc), hnode⟩

/-- A thread that still owes the decrement is counted in `active_tasks`. -/
theorem Account.active_pos {cfg : Config} {s : State} {h : History} (acc : Account cfg s h)
    {p : Nat × Nat} (hp : (s.pool p).unreleased = true) : 0 < (s.queues p.1).activeTasks := by
  have hbusy : s.pool p ≠ .idle := by
    intro hidle
    simp [hidle, PoolPc.unreleased] at hp
  have hpos : 0 < unreleased cfg s p.1 :=
    List.countP_pos_iff.mpr ⟨p.2, List.mem_range.mpr (acc.thread p hbusy), hp⟩
  rw [acc.active]
  omega

/-- **The scheduler neither loses nor repeats a task.** In every reachable state, for
every queue: the jobs pushed to it are those that prefer its node, and each of them is
queued, held by one thread, or finished; they were popped in push order; and
`active_tasks` is the number of those queued or popped with the decrement still to come.
Every job is executed at most once, and no more are completed than were pushed. -/
theorem no_task_lost_or_repeated {cfg : Config} {ls : List Action} {s : State} {h : History}
    (run : Run (ObservedStep cfg) (State.init, {}) ls (s, h)) :
    (∀ k, Accounted cfg s h k) ∧ s.executed.Nodup ∧ s.totalCompleted ≤ s.pushed.length := by
  obtain ⟨inv, acc⟩ := run_account run
  refine ⟨fun k => ?_, inv.pool.executed_nodup, ?_⟩
  · constructor
    case placed =>
      intro j
      rw [acc.placed, List.mem_filter, decide_eq_true_eq]
      rfl
    case union => exact fun j => acc.union inv
    case queued_not_held =>
      rintro j hq ⟨i, hi⟩
      exact (inv.pool.queued k j hq).2.2.2 _ hi
    case queued_not_finished =>
      rintro j hq ⟨-, hc⟩
      exact (inv.pool.queued k j hq).2.2.1 (inv.pool.completed_sub j hc)
    case held_not_finished =>
      rintro j ⟨i, hi⟩ ⟨-, hc⟩
      exact (inv.pool.held _ j hi).2 hc
    case held_once =>
      intro i i' j hi hi'
      exact congrArg Prod.snd (inv.pool.held_once _ _ j hi hi')
    case distinct =>
      rw [acc.placed]
      exact acc.pushed_nodup.filter _
    case popped_in_order => exact acc.order k
    case active => exact acc.active k
    case active_nonneg =>
      rw [acc.active]
      omega
    case decrement =>
      intro i t step
      cases step with
      | release pc => exact acc.active_pos (p := (k, i)) (by simp [pc, PoolPc.unreleased])
  · have hsub : s.completed.Subperm s.pushed := inv.pool.completed_nodup.subperm fun j hj =>
      inv.pool.executed_sub j (inv.pool.completed_sub j hj)
    rw [inv.pool.completed_count]
    exact hsub.length_le

/-- Of two clients' tasks on one node, the first is being executed. -/
theorem no_task_lost_or_repeated_two : ∃ s h,
    Run (ObservedStep ⟨1, 1, 2⟩) (State.init, {})
      [.push 0 ⟨7, 0, 50⟩, .push 1 ⟨8, 3, 50⟩, .pop (0, 0), .execute (0, 0)] (s, h) ∧
    h.popped 0 = [⟨0, 0, ⟨7, 0, 50⟩⟩] ∧ (s.queues 0).activeTasks = 2 ∧
    (∀ k, Accounted ⟨1, 1, 2⟩ s h k) := by
  let first : Job := ⟨0, 0, ⟨7, 0, 50⟩⟩
  let second : Job := ⟨1, 1, ⟨8, 3, 50⟩⟩
  have run : ∃ s h, Run (ObservedStep ⟨1, 1, 2⟩) (State.init, {})
      [.push 0 ⟨7, 0, 50⟩, .push 1 ⟨8, 3, 50⟩, .pop (0, 0), .execute (0, 0)] (s, h) ∧
      h.popped 0 = [first] ∧ (s.queues 0).activeTasks = 2 :=
    ⟨_, _, .cons (Step.observed (.push (by decide) rfl) _) <|
      .cons (Step.observed (.push (by decide) rfl) _) <|
      .cons (Step.observed (.pop (j := first) (r := [second]) (by decide) (by decide) rfl rfl) _) <|
      .one (Step.observed (.execute (j := first) rfl) _), rfl, rfl⟩
  obtain ⟨s, h, run, hpopped, hactive⟩ := run
  exact ⟨s, h, run, hpopped, hactive, (no_task_lost_or_repeated run).1⟩

/-! ### The least loaded node -/

/-- One round of the loop of `least_loaded_node`, with `best` and `min_load`. -/
def leastStep (s : State) (acc : Nat × Int) (i : Nat) : Nat × Int :=
  if (s.queues i).activeTasks < acc.2 then (i, (s.queues i).activeTasks) else acc

/-- `NumaScheduler::least_loaded_node`, when no counter moves while it reads them. -/
def leastLoadedNode (cfg : Config) (s : State) : Nat :=
  ((List.range' 1 (cfg.numaNodes - 1)).foldl (leastStep s) (0, (s.queues 0).activeTasks)).1

/-- `NumaScheduler::migrate_vertex`: the new `current_numa_node`, and what is added to
`migrate_count_`. -/
def migrateVertex (cfg : Config) (s : State) (currentNumaNode : Nat) : Nat × Nat :=
  let newNode := leastLoadedNode cfg s
  if newNode ≠ currentNumaNode then (newNode, 1) else (currentNumaNode, 0)

/-- The tasks of a node that are queued, or popped with the decrement still to come. -/
def nodeLoad (cfg : Config) (s : State) (k : Nat) : Nat :=
  (s.queues k).tasks.length + unreleased cfg s k

/-- `best` is the first of the `n` first nodes that have the fewest active tasks. -/
def Least (s : State) (n best : Nat) : Prop :=
  best < n ∧ ∀ k < n, (s.queues best).activeTasks < (s.queues k).activeTasks ∨
    (s.queues best).activeTasks = (s.queues k).activeTasks ∧ best ≤ k

theorem least_succ {s : State} {n best : Nat} (h : Least s n best) :
    ∃ best', leastStep s (best, (s.queues best).activeTasks) n =
      (best', (s.queues best').activeTasks) ∧ Least s (n + 1) best' := by
  obtain ⟨hbest, hleast⟩ := h
  unfold leastStep
  split
  · rename_i hless
    refine ⟨n, rfl, Nat.lt_succ_self n, fun k hk => ?_⟩
    rcases Nat.lt_succ_iff_lt_or_eq.mp hk with hk | rfl
    · rcases hleast k hk with hlt | ⟨heq, -⟩
      · exact .inl (hless.trans hlt)
      · exact .inl (heq ▸ hless)
    · exact .inr ⟨rfl, Nat.le_refl _⟩
  · rename_i hmore
    refine ⟨best, rfl, Nat.lt_succ_of_lt hbest, fun k hk => ?_⟩
    rcases Nat.lt_succ_iff_lt_or_eq.mp hk with hk | rfl
    · exact hleast k hk
    · exact (Int.not_lt.mp hmore).lt_or_eq.imp_right fun heq => ⟨heq, hbest.le⟩

theorem least_range (s : State) (n : Nat) :
    ∃ best, (List.range' 1 n).foldl (leastStep s) (0, (s.queues 0).activeTasks) =
      (best, (s.queues best).activeTasks) ∧ Least s (n + 1) best := by
  induction n with
  | zero =>
      refine ⟨0, rfl, Nat.one_pos, fun k hk => ?_⟩
      rw [Nat.lt_one_iff.mp hk]
      exact .inr ⟨rfl, Nat.le_refl 0⟩
  | succ n ih =>
      obtain ⟨best, hfold, hleast⟩ := ih
      rw [List.range'_1_concat, List.foldl_append, hfold, List.foldl_cons, List.foldl_nil,
        Nat.add_comm 1 n]
      exact least_succ hleast

theorem leastLoadedNode_spec {cfg : Config} (s : State) (nodes : 0 < cfg.numaNodes) :
    Least s cfg.numaNodes (leastLoadedNode cfg s) := by
  obtain ⟨best, hfold, hleast⟩ := least_range s (cfg.numaNodes - 1)
  rw [Nat.sub_add_cancel nodes] at hleast
  have hnode : leastLoadedNode cfg s = best := congrArg Prod.fst hfold
  rwa [hnode]

/-- **Where a vertex migrates to.** In every reachable state, the node that `migrate_vertex`
leaves a vertex on is the first of those with the fewest tasks queued or running, and one
migration is counted if it is another one than before, and none if not. -/
theorem migrates_to_least_loaded {cfg : Config} {ls : List Action} {s : State}
    (nodes : 0 < cfg.numaNodes) (run : Run (Step cfg) State.init ls s) (current : Nat) :
    (migrateVertex cfg s current).1 < cfg.numaNodes ∧
      (∀ k < cfg.numaNodes, nodeLoad cfg s (migrateVertex cfg s current).1 < nodeLoad cfg s k ∨
        nodeLoad cfg s (migrateVertex cfg s current).1 = nodeLoad cfg s k ∧
          (migrateVertex cfg s current).1 ≤ k) ∧
      (migrateVertex cfg s current).2 =
        if (migrateVertex cfg s current).1 = current then 0 else 1 := by
  obtain ⟨h, observed⟩ := observed_of_run run {}
  obtain ⟨-, acc⟩ := run_account observed
  have hload : ∀ k, (s.queues k).activeTasks = nodeLoad cfg s k := by
    intro k
    have hactive := acc.active k
    unfold nodeLoad
    omega
  obtain ⟨hnode, hleast⟩ := leastLoadedNode_spec s nodes
  have hmigrate : (migrateVertex cfg s current).1 = leastLoadedNode cfg s := by
    unfold migrateVertex
    dsimp only
    split
    · rfl
    · rename_i hsame
      exact (not_not.mp hsame).symm
  refine ⟨hmigrate ▸ hnode, fun k hk => ?_, ?_⟩
  · have hk := hleast k hk
    rw [hload, hload] at hk
    rw [hmigrate]
    omega
  · rw [hmigrate]
    unfold migrateVertex
    dsimp only
    by_cases hsame : leastLoadedNode cfg s = current
    · rw [if_neg (not_not.mpr hsame), if_pos hsame]
    · rw [if_pos hsame, if_neg hsame]

/-- With a task on node 0 a vertex migrates to node 1. -/
theorem migrates_to_least_loaded_two : ∃ s, Run (Step ⟨2, 1, 1⟩) State.init
    [.push 0 ⟨7, 0, 50⟩] s ∧ (migrateVertex ⟨2, 1, 1⟩ s 0).1 = 1 ∧
    nodeLoad ⟨2, 1, 1⟩ s 1 < nodeLoad ⟨2, 1, 1⟩ s 0 := by
  have run : ∃ s, Run (Step ⟨2, 1, 1⟩) State.init [.push 0 ⟨7, 0, 50⟩] s ∧
      (migrateVertex ⟨2, 1, 1⟩ s 0).1 = 1 :=
    ⟨_, .one (.push (by decide) rfl), by decide⟩
  obtain ⟨s, run, hnode⟩ := run
  refine ⟨s, run, hnode, ?_⟩
  have hleast := (migrates_to_least_loaded (by decide) run 0).2.1 0 (by decide)
  rw [hnode] at hleast
  omega

end Pregel.Scheduler
