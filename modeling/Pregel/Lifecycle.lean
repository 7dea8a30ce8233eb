import Mathlib.Algebra.BigOperators.Group.Finset.Basic
import Mathlib.Algebra.Order.BigOperators.Group.Finset
import Pregel.Accounting

/-!
The threads of the scheduler from `start` to `stop` (`numa_scheduler.cpp`).

`start` sets `running_` and creates the threads, one node after the other; `stop` clears it and
joins them. A thread tests `running_` at the head of its loop only: one that is past the test
when `stop` is called still takes a task, and runs it. Clients do not look at `running_` at all.

* `Inv`, `inv_step`: which threads are there, and what a thread does that is not in its loop.
* `sched_of_run`, `Up.follow`, `scheduler_iff`: the scheduler goes through the runs of
  `Scheduler.Step`, and through all of them, so that what is proved of those holds here.
* `stopping_cases`, `remaining_step`: once `stop` is called, every step of a thread brings it
  closer to its end.
* `stop_returns`, `stop_drops`, `wait_returns_iff`: that `stop` returns, what becomes of the
  tasks, and who can still get through `wait_all`.
-/

namespace Pregel

open Lts

namespace Scheduler

/-- The thread whose action it is. -/
def Action.thread : Action → Option (Nat × Nat)
  | .pop p => some p
  | .execute p => some p
  | .release p => some p
  | .complete p => some p
  | _ => none

/-- A thread changes nothing of the other threads, and a client of none. -/
theorem pool_step {cfg : Config} {s t : State} {a : Action} (step : Step cfg s a t) {q : Nat × Nat}
    (other : a.thread ≠ some q) : t.pool q = s.pool q := by
  cases step with
  | push => rfl
  | count => rfl
  | pop => exact Function.update_of_ne (fun h => other (congrArg some h.symm)) _ _
  | execute => exact Function.update_of_ne (fun h => other (congrArg some h.symm)) _ _
  | release => exact Function.update_of_ne (fun h => other (congrArg some h.symm)) _ _
  | complete => exact Function.update_of_ne (fun h => other (congrArg some h.symm)) _ _
  | callWait => rfl
  | loadCompleted => rfl
  | loadSubmitted => rfl
  | submittedAgain => rfl
  | submittedReturn => rfl
  | completedAgain => rfl
  | completedReturn => rfl

/-- The steps that a thread has before it, if it is inside its loop. -/
def PoolPc.rank : PoolPc → Nat
  | .idle => 5
  | .popped _ => 4
  | .executed _ => 3
  | .released _ => 2

theorem PoolPc.rank_le (pc : PoolPc) : pc.rank ≤ 5 := by
  cases pc <;> simp [PoolPc.rank]

/-- A thread goes through its task step by step. -/
theorem rank_work {cfg : Config} {s t : State} {a : Action} {p : Nat × Nat} (step : Step cfg s a t)
    (thread : a.thread = some p) (more : a ≠ .complete p) :
    t.pool p ≠ .idle ∧ (t.pool p).rank < (s.pool p).rank := by
  cases step <;> simp only [Action.thread, Option.some.injEq, reduceCtorEq] at thread
  case pop pc _ =>
    subst thread
    simp [pc, PoolPc.rank]
  case execute pc =>
    subst thread
    simp [pc, PoolPc.rank]
  case release pc =>
    subst thread
    simp [pc, PoolPc.rank]
  case complete =>
    subst thread
    exact absurd rfl more

/-- The number of threads, and the thread that is created after `n` others. -/
def Config.threads (cfg : Config) : Nat := cfg.numaNodes * cfg.threadsPerNode

def Config.thread (cfg : Config) (n : Nat) : Nat × Nat :=
  (n / cfg.threadsPerNode, n % cfg.threadsPerNode)

/-- All threads. -/
def Config.poolThreads (cfg : Config) : Finset (Nat × Nat) :=
  Finset.range cfg.numaNodes ×ˢ Finset.range cfg.threadsPerNode

theorem thread_mem {cfg : Config} {n : Nat} (hn : n < cfg.threads) :
    cfg.thread n ∈ cfg.poolThreads := by
  have hpos : 0 < cfg.threadsPerNode := Nat.pos_of_mul_pos_left (Nat.zero_lt_of_lt hn)
  rw [Config.poolThreads, Finset.mem_product, Finset.mem_range, Finset.mem_range]
  exact ⟨Nat.div_lt_of_lt_mul (Nat.mul_comm .. ▸ hn), Nat.mod_lt _ hpos⟩

theorem thread_injective (cfg : Config) : Function.Injective cfg.thread := by
  intro m n h
  obtain ⟨hnode, hthread⟩ := Prod.mk.inj h
  rw [← Nat.div_add_mod m cfg.threadsPerNode, hnode, hthread, Nat.div_add_mod]

theorem exists_thread {cfg : Config} {p : Nat × Nat} (hp : p ∈ cfg.poolThreads) :
    ∃ n < cfg.threads, cfg.thread n = p := by
  rw [Config.poolThreads, Finset.mem_product, Finset.mem_range, Finset.mem_range] at hp
  obtain ⟨hnode, hthread⟩ := hp
  refine ⟨p.2 + cfg.threadsPerNode * p.1, ?_, ?_⟩
  · calc p.2 + cfg.threadsPerNode * p.1 < cfg.threadsPerNode + cfg.threadsPerNode * p.1 :=
          Nat.add_lt_add_right hthread _
      _ = (p.1 + 1) * cfg.threadsPerNode := by
          rw [Nat.succ_mul, Nat.mul_comm, Nat.add_comm]
      _ ≤ cfg.threads := Nat.mul_le_mul_right _ hnode
  · have hpos := Nat.zero_lt_of_lt hthread
    rw [Config.thread, Nat.add_mul_div_left _ _ hpos, Nat.add_mul_mod_self_left,
      Nat.div_eq_of_lt hthread, Nat.mod_eq_of_lt hthread, Nat.zero_add]

end Scheduler

namespace Lifecycle

open Scheduler (Config Action)

/-- Where a thread stands in `worker_thread`: not created, at the test of `running_`, inside the
loop, and at its end. -/
inductive LoopPc where
  | unstarted
  | test
  | inside
  | left
  deriving DecidableEq

/-- Where the owner of the scheduler stands: before `start`, in it or after it with `n` threads
created, and in `stop` or after it with `n` threads joined. -/
inductive OwnerPc where
  | fresh
  | starting (n : Nat)
  | stopping (n : Nat)

structure State where
  sched : Scheduler.State
  running : Bool
  loops : Nat × Nat → LoopPc
  owner : OwnerPc

def State.init : State where
  sched := Scheduler.State.init
  running := false
  loops := fun _ => .unstarted
  owner := .fresh

inductive Event where
  | start
  | spawn
  | stop
  | join
  | test (p : Nat × Nat)
  | skip (p : Nat × Nat)
  | act (a : Action)
  deriving DecidableEq

/-- The thread whose step it is. -/
def Event.thread : Event → Option (Nat × Nat)
  | .test p => some p
  | .skip p => some p
  | .act a => a.thread
  | _ => none

/-- The action of the scheduler. -/
def Event.action : Event → Option Action
  | .act a => some a
  | _ => none

/-- The steps of `start`, `stop` and `worker_thread`, and those of the clients. -/
inductive Step (cfg : Config) : State → Event → State → Prop where
  | start {s : State} (owner : s.owner = .fresh) :
      Step cfg s .start { s with running := true, owner := .starting 0 }
  | spawn {s : State} {n : Nat} (owner : s.owner = .starting n) (more : n < cfg.threads) :
      Step cfg s .spawn
        { s with
          loops := Function.update s.loops (cfg.thread n) .test
          owner := .starting (n + 1) }
  | enter {s : State} {p : Nat × Nat} (pc : s.loops p = .test) (running : s.running = true) :
      Step cfg s (.test p) { s with loops := Function.update s.loops p .inside }
  | leave {s : State} {p : Nat × Nat} (pc : s.loops p = .test) (stopped : s.running = false) :
      Step cfg s (.test p) { s with loops := Function.update s.loops p .left }
  -- `wait_for` has timed out, or has seen that `running_` is false
  | skip {s : State} {p : Nat × Nat} (pc : s.loops p = .inside) (idle : s.sched.pool p = .idle)
      (empty : (s.sched.queues p.1).tasks = []) :
      Step cfg s (.skip p) { s with loops := Function.update s.loops p .test }
  | work {s : State} {p : Nat × Nat} {a : Action} {sched : Scheduler.State}
      (pc : s.loops p = .inside) (thread : a.thread = some p) (more : a ≠ .complete p)
      (step : Scheduler.Step cfg s.sched a sched) :
      Step cfg s (.act a) { s with sched := sched }
  | complete {s : State} {p : Nat × Nat} {sched : Scheduler.State} (pc : s.loops p = .inside)
      (step : Scheduler.Step cfg s.sched (.complete p) sched) :
      Step cfg s (.act (.complete p))
        { s with
          sched := sched
          loops := Function.update s.loops p .test }
  | client {s : State} {a : Action} {sched : Scheduler.State} (thread : a.thread = none)
      (step : Scheduler.Step cfg s.sched a sched) :
      Step cfg s (.act a) { s with sched := sched }
  | stop {s : State} (owner : s.owner = .starting cfg.threads) :
      Step cfg s .stop { s with running := false, owner := .stopping 0 }
  | join {s : State} {n : Nat} (owner : s.owner = .stopping n) (more : n < cfg.threads)
      (left : s.loops (cfg.thread n) = .left) :
      Step cfg s .join { s with owner := .stopping (n + 1) }

variable {cfg : Config} {s t : State} {ev : Event} {evs : List Event} {p : Nat × Nat} {n : Nat}

/-! ### The scheduler in it -/

/-- **The scheduler in a run** goes through a run of its own. -/
theorem sched_of_run (run : Run (Step cfg) s evs t) :
    Run (Scheduler.Step cfg) s.sched (evs.filterMap Event.action) t.sched := by
  induction run with
  | nil s => exact .nil _
  | cons hstep _ ih =>
      cases hstep with
      | start => exact ih
      | spawn => exact ih
      | enter => exact ih
      | leave => exact ih
      | skip => exact ih
      | work _ _ _ step => exact .cons step ih
      | complete _ step => exact .cons step ih
      | client _ step => exact .cons step ih
      | stop => exact ih
      | join => exact ih

/-! ### Which threads are there -/

structure Inv (cfg : Config) (s : State) : Prop where
  idle : ∀ p, s.loops p ≠ .inside → s.sched.pool p = .idle
  known : ∀ p, s.loops p ≠ .unstarted → p ∈ cfg.poolThreads
  left : ∀ p, s.loops p = .left → s.running = false
  fresh : s.owner = .fresh → ∀ p, s.loops p = .unstarted
  starting : ∀ n, s.owner = .starting n →
    s.running = true ∧ ∀ m, s.loops (cfg.thread m) = .unstarted ↔ n ≤ m
  stopping : ∀ n, s.owner = .stopping n → n ≤ cfg.threads ∧ s.running = false ∧
    (∀ p ∈ cfg.poolThreads, s.loops p ≠ .unstarted) ∧ ∀ m < n, s.loops (cfg.thread m) = .left

theorem inv_init (cfg : Config) : Inv cfg State.init := by
  constructor <;> simp [State.init, Scheduler.State.init]

/-- A thread that is there moves on. -/
theorem Inv.move (inv : Inv cfg s) {pc : LoopPc} {sched : Scheduler.State}
    (here : s.loops p ≠ .unstarted) (more : s.loops p ≠ .left) (now : pc ≠ .unstarted)
    (others : ∀ q, q ≠ p → sched.pool q = s.sched.pool q)
    (idle : pc ≠ .inside → sched.pool p = .idle) (ended : pc = .left → s.running = false) :
    Inv cfg { s with sched := sched, loops := Function.update s.loops p pc } where
  idle q hq := by
    by_cases hqp : q = p
    · subst hqp
      exact idle (by simpa using hq)
    · rw [others q hqp]
      exact inv.idle q (by simpa [hqp] using hq)
  known q hq := by
    by_cases hqp : q = p
    · exact hqp ▸ inv.known p here
    · exact inv.known q (by simpa [hqp] using hq)
  left q hq := by
    by_cases hqp : q = p
    · exact ended (by simpa [hqp] using hq)
    · exact inv.left q (by simpa [hqp] using hq)
  fresh hfresh := absurd (inv.fresh hfresh p) here
  starting n hn := by
    obtain ⟨running, created⟩ := inv.starting n hn
    refine ⟨running, fun m => ?_⟩
    by_cases hmp : cfg.thread m = p
    · have hlt : ¬ n ≤ m := fun hle => here (hmp ▸ (created m).mpr hle)
      simp [hmp, now, hlt]
    · simpa [hmp] using created m
  stopping n hn := by
    obtain ⟨bound, stopped, created, joined⟩ := inv.stopping n hn
    refine ⟨bound, stopped, fun q hq => ?_, fun m hm => ?_⟩
    · by_cases hqp : q = p
      · simpa [hqp] using now
      · simpa [hqp] using created q hq
    · have hmp : cfg.thread m ≠ p := by
        rintro rfl
        exact more (joined m hm)
      simpa [hmp] using joined m hm

/-- **Every step** keeps the invariant. -/
theorem inv_step (inv : Inv cfg s) (step : Step cfg s ev t) : Inv cfg t := by
  cases step with
  | start owner =>
      have hnone := inv.fresh owner
      refine ⟨inv.idle, inv.known, fun p hp => (by simp [hnone] at hp), fun h => (by cases h),
        fun n hn => ?_, fun n hn => (by cases hn)⟩
      cases hn
      exact ⟨rfl, fun m => by simp [hnone]⟩
  | @spawn n owner more =>
      obtain ⟨running, created⟩ := inv.starting n owner
      have hnew : s.loops (cfg.thread n) = .unstarted := (created n).mpr (Nat.le_refl n)
      refine ⟨fun q hq => ?_, fun q hq => ?_, fun q hq => ?_, fun h => (by cases h), fun m hm => ?_,
        fun m hm => (by cases hm)⟩
      · by_cases hqp : q = cfg.thread n
        · exact inv.idle q (by simp [hqp, hnew])
        · exact inv.idle q (by simpa [hqp] using hq)
      · by_cases hqp : q = cfg.thread n
        · exact hqp ▸ Scheduler.thread_mem more
        · exact inv.known q (by simpa [hqp] using hq)
      · by_cases hqp : q = cfg.thread n
        · simp [hqp] at hq
        · exact inv.left q (by simpa [hqp] using hq)
      · cases hm
        refine ⟨running, fun m => ?_⟩
        by_cases hmn : m = n
        · simp [hmn]
        · have hne := fun h => hmn (Scheduler.thread_injective cfg h)
          simp only [Function.update_of_ne hne, created m]
          omega
  | enter pc _ =>
      exact inv.move (by simp [pc]) (by simp [pc]) (by simp) (fun _ _ => rfl) (by simp) (by simp)
  | leave pc stopped =>
      exact inv.move (by simp [pc]) (by simp [pc]) (by simp) (fun _ _ => rfl)
        (fun _ => inv.idle _ (by simp [pc])) fun _ => stopped
  | skip pc idle _ =>
      exact inv.move (by simp [pc]) (by simp [pc]) (by simp) (fun _ _ => rfl) (fun _ => idle)
        (by simp)
  | @work p a sched pc thread _ step =>
      have hmove : Inv cfg
          { s with sched := sched, loops := Function.update s.loops p .inside } :=
        inv.move (by simp [pc]) (by simp [pc]) (by simp)
          (fun q hq => Scheduler.pool_step step fun h => hq (by simpa [h] using thread)) (by simp)
          (by simp)
      rwa [← pc, Function.update_eq_self] at hmove
  | complete pc step =>
      refine inv.move (by simp [pc]) (by simp [pc]) (by simp)
        (fun q hq => Scheduler.pool_step step fun h => hq (Option.some.inj h).symm) (fun _ => ?_)
        (by simp)
      cases step with
      | complete => exact Function.update_self ..
  | client thread step =>
      refine ⟨fun q hq => ?_, inv.known, inv.left, inv.fresh, inv.starting, inv.stopping⟩
      exact (Scheduler.pool_step step (by simp [thread])).trans (inv.idle q hq)
  | stop owner =>
      obtain ⟨-, created⟩ := inv.starting _ owner
      refine ⟨inv.idle, inv.known, fun _ _ => rfl, fun h => (by cases h), fun n hn => (by cases hn),
        fun n hn => ⟨?_, rfl, fun q hq hnone => ?_, ?_⟩⟩
      · cases hn
        exact Nat.zero_le _
      · obtain ⟨m, hm, rfl⟩ := Scheduler.exists_thread hq
        exact absurd ((created m).mp hnone) (Nat.not_le.mpr hm)
      · cases hn
        simp
  | @join n owner more left =>
      obtain ⟨-, stopped, created, joined⟩ := inv.stopping n owner
      refine ⟨inv.idle, inv.known, inv.left, fun h => (by cases h), fun m hm => (by cases hm),
        fun m hm => ⟨?_, stopped, created, ?_⟩⟩
      · cases hm
        exact more
      cases hm
      intro m hm
      rcases Nat.lt_succ_iff_lt_or_eq.mp hm with hlt | rfl
      · exact joined m hlt
      · exact left

theorem inv_run (run : Run (Step cfg) State.init evs s) : Inv cfg s :=
  run.invariant (Inv cfg) (fun _ _ _ inv step => inv_step inv step) (inv_init cfg)

/-! ### Between `start` and `stop` -/

/-- All threads are created, and `stop` is not called. -/
structure Up (cfg : Config) (s : State) : Prop where
  inv : Inv cfg s
  owner : s.owner = .starting cfg.threads

/-- `start` gets there. -/
theorem exists_up (cfg : Config) : ∃ evs s, Run (Step cfg) State.init evs s ∧
    evs.filterMap Event.action = [] ∧ s.sched = Scheduler.State.init ∧ Up cfg s := by
  have hspawned : ∀ n ≤ cfg.threads, ∃ evs s, Run (Step cfg) State.init evs s ∧
      evs.filterMap Event.action = [] ∧ s.sched = Scheduler.State.init ∧ s.owner = .starting n := by
    intro n hn
    induction n with
    | zero => exact ⟨_, _, .one (.start rfl), rfl, rfl, rfl⟩
    | succ n ih =>
        obtain ⟨evs, s, run, hacts, hsched, owner⟩ := ih (Nat.le_of_succ_le hn)
        refine ⟨_, _, run.append (.one (.spawn owner hn)), ?_, hsched, rfl⟩
        rw [List.filterMap_append, hacts]
        rfl
  obtain ⟨evs, s, run, hacts, hsched, owner⟩ := hspawned _ (Nat.le_refl _)
  exact ⟨evs, s, run, hacts, hsched, inv_run run, owner⟩

/-- A thread of the pool is in its loop, or at the head of it. -/
theorem Up.pc (up : Up cfg s) (hp : p ∈ cfg.poolThreads) :
    s.loops p = .test ∨ s.loops p = .inside := by
  obtain ⟨running, created⟩ := up.inv.starting _ up.owner
  cases hpc : s.loops p with
  | test => exact .inl rfl
  | inside => exact .inr rfl
  | left => cases running.symm.trans (up.inv.left p hpc)
  | unstarted =>
      obtain ⟨n, hn, rfl⟩ := Scheduler.exists_thread hp
      exact absurd ((created n).mp hpc) (Nat.not_le.mpr hn)

/-- **The threads can do** whatever the scheduler allows. -/
theorem Up.follow (up : Up cfg s) {a : Action} {y : Scheduler.State}
    (step : Scheduler.Step cfg s.sched a y) : ∃ evs t, Run (Step cfg) s evs t ∧
      evs.filterMap Event.action = [a] ∧ t.sched = y ∧ Up cfg t := by
  have one : ∀ {t}, Step cfg s (.act a) t → t.sched = y → t.owner = s.owner →
      ∃ evs t, Run (Step cfg) s evs t ∧ evs.filterMap Event.action = [a] ∧ t.sched = y ∧ Up cfg t :=
    fun hstep hsched howner =>
      ⟨_, _, .one hstep, rfl, hsched, inv_step up.inv hstep, howner.trans up.owner⟩
  -- a thread with a task is in its loop
  have inside : ∀ p, s.sched.pool p ≠ .idle → s.loops p = .inside :=
    fun p hbusy => by_contra fun hpc => hbusy (up.inv.idle p hpc)
  cases hthread : a.thread with
  | none => exact one (.client hthread step) rfl rfl
  | some p =>
      cases step with
      | @pop p j r node thread idle queue =>
          have hmem : p ∈ cfg.poolThreads :=
            Finset.mem_product.mpr ⟨Finset.mem_range.mpr node, Finset.mem_range.mpr thread⟩
          rcases up.pc hmem with hpc | hpc
          · -- it passes the test first
            have henter : Step cfg s (.test p)
                { s with loops := Function.update s.loops p .inside } :=
              .enter hpc (up.inv.starting _ up.owner).1
            have hpop : Step cfg { s with loops := Function.update s.loops p .inside }
                (.act (.pop p)) _ :=
              .work (Function.update_self ..) rfl (by simp) (.pop node thread idle queue)
            exact ⟨_, _, .cons henter (.one hpop), rfl, rfl,
              inv_step (inv_step up.inv henter) hpop, up.owner⟩
          · exact one (.work hpc rfl (by simp) (.pop node thread idle queue)) rfl rfl
      | execute pc => exact one (.work (inside _ (by simp [pc])) rfl (by simp) (.execute pc)) rfl rfl
      | release pc => exact one (.work (inside _ (by simp [pc])) rfl (by simp) (.release pc)) rfl rfl
      | complete pc => exact one (.complete (inside _ (by simp [pc])) (.complete pc)) rfl rfl
      | push => cases hthread
      | count => cases hthread
      | callWait => cases hthread
      | loadCompleted => cases hthread
      | loadSubmitted => cases hthread
      | submittedAgain => cases hthread
      | submittedReturn => cases hthread
      | completedAgain => cases hthread
      | completedReturn => cases hthread

/-- Every run of the scheduler is one between `start` and `stop`. -/
theorem exists_of_run {ls : List Action} {x : Scheduler.State}
    (run : Run (Scheduler.Step cfg) Scheduler.State.init ls x) :
    ∃ evs s, Run (Step cfg) State.init evs s ∧ evs.filterMap Event.action = ls ∧ s.sched = x ∧
      Up cfg s := by
  obtain ⟨evs, s, start, hacts, hsched, up⟩ := exists_up cfg
  rw [← hsched] at run
  have hlift : ∀ y ls x, Run (Scheduler.Step cfg) y ls x → ∀ s, s.sched = y → Up cfg s →
      ∃ evs t, Run (Step cfg) s evs t ∧ evs.filterMap Event.action = ls ∧ t.sched = x ∧ Up cfg t := by
    intro y ls x run
    induction run with
    | nil y => exact fun s hs up => ⟨[], s, .nil s, rfl, hs, up⟩
    | cons hstep _ ih =>
        rintro s rfl up
        obtain ⟨evs, m, first, hfirst, hm, up⟩ := up.follow hstep
        obtain ⟨evs', t, rest, hrest, ht, up⟩ := ih m hm up
        refine ⟨evs ++ evs', t, first.append rest, ?_, ht, up⟩
        rw [List.filterMap_append, hfirst, hrest]
        rfl
  obtain ⟨evs', t, rest, hrest, ht, up⟩ := hlift _ _ _ run s rfl up
  refine ⟨evs ++ evs', t, start.append rest, ?_, ht, up⟩
  rw [List.filterMap_append, hacts, hrest]
  rfl

/-- **The scheduler without `start` and `stop` is the same scheduler.** What its threads and
clients can do, if the threads are always there, is exactly what they can do with threads that
`start` creates and that may be stopped. -/
theorem scheduler_iff (cfg : Config) (ls : List Action) (x : Scheduler.State) :
    Run (Scheduler.Step cfg) Scheduler.State.init ls x ↔
      ∃ evs s, Run (Step cfg) State.init evs s ∧ evs.filterMap Event.action = ls ∧ s.sched = x := by
  constructor
  · intro run
    obtain ⟨evs, s, run, hacts, hsched, -⟩ := exists_of_run run
    exact ⟨evs, s, run, hacts, hsched⟩
  · rintro ⟨evs, s, run, rfl, rfl⟩
    exact sched_of_run run

/-! ### After the call of `stop` -/

/-- `stop` has been called. -/
def Stopping (cfg : Config) (s : State) : Prop := Inv cfg s ∧ ∃ n, s.owner = .stopping n

/-- The steps that a thread has before it, once `running_` is false. -/
def rank (s : State) (p : Nat × Nat) : Nat :=
  match s.loops p with
  | .unstarted => 0
  | .test => 1
  | .inside => (s.sched.pool p).rank
  | .left => 0

theorem rank_le (s : State) (p : Nat × Nat) : rank s p ≤ 5 := by
  have hpool := (s.sched.pool p).rank_le
  unfold rank
  cases s.loops p <;> simp [hpool]

theorem rank_congr {q : Nat × Nat} (loops : t.loops q = s.loops q)
    (pool : t.sched.pool q = s.sched.pool q) : rank t q = rank s q := by
  rw [rank, rank, loops, pool]

/-- A step of thread `p` that brings it closer to its end. -/
structure Advances (s t : State) (p : Nat × Nat) : Prop where
  owner : t.owner = s.owner
  closer : rank t p < rank s p
  others : ∀ q, q ≠ p → rank t q = rank s q

/-- **What happens once `stop` is called**: a thread comes closer to its end, `stop` joins one,
or a client moves. -/
theorem stopping_cases (h : Stopping cfg s) (step : Step cfg s ev t) :
    (∃ p, ev.thread = some p ∧ Advances s t p) ∨
      (∃ n, ev = .join ∧ s.owner = .stopping n ∧ n < cfg.threads ∧ t.owner = .stopping (n + 1) ∧
        ∀ q, rank t q = rank s q) ∨
      (∃ a, ev = .act a ∧ a.thread = none ∧ t.owner = s.owner ∧
        Scheduler.Step cfg s.sched a t.sched ∧ ∀ q, rank t q = rank s q) := by
  obtain ⟨inv, n, owner⟩ := h
  cases step with
  | start hfresh => cases owner.symm.trans hfresh
  | spawn hstarting _ => cases owner.symm.trans hstarting
  | stop hstarting => cases owner.symm.trans hstarting
  | enter _ running => cases running.symm.trans (inv.stopping n owner).2.1
  | @leave p pc _ =>
      refine .inl ⟨p, rfl, rfl, ?_, fun q hq => rank_congr (Function.update_of_ne hq ..) rfl⟩
      simp [rank, pc]
  | @skip p pc idle _ =>
      refine .inl ⟨p, rfl, rfl, ?_, fun q hq => rank_congr (Function.update_of_ne hq ..) rfl⟩
      simp [rank, pc, idle, Scheduler.PoolPc.rank]
  | @work p a sched pc thread more step =>
      refine .inl ⟨p, thread, rfl, ?_, fun q hq => rank_congr rfl (Scheduler.pool_step step ?_)⟩
      · simpa [rank, pc] using (Scheduler.rank_work step thread more).2
      · rw [thread]
        exact fun h => hq (Option.some.inj h).symm
  | @complete p sched pc step =>
      refine .inl ⟨p, rfl, rfl, ?_, fun q hq => rank_congr (Function.update_of_ne hq ..)
        (Scheduler.pool_step step fun h => hq (Option.some.inj h).symm)⟩
      cases step with
      | complete released => simp [rank, pc, released, Scheduler.PoolPc.rank]
  | client thread step =>
      exact .inr (.inr ⟨_, rfl, thread, rfl, step, fun q =>
        rank_congr rfl (Scheduler.pool_step step (by simp [thread]))⟩)
  | join howner more _ => exact .inr (.inl ⟨_, rfl, howner, more, rfl, fun _ => rfl⟩)

theorem stopping_step (h : Stopping cfg s) (step : Step cfg s ev t) : Stopping cfg t := by
  obtain ⟨inv, n, owner⟩ := h
  refine ⟨inv_step inv step, ?_⟩
  rcases stopping_cases ⟨inv, n, owner⟩ step with
    ⟨p, -, adv⟩ | ⟨m, -, -, -, hjoined, -⟩ | ⟨a, -, -, hsame, -⟩
  · exact ⟨n, adv.owner.trans owner⟩
  · exact ⟨m + 1, hjoined⟩
  · exact ⟨n, hsame.trans owner⟩

/-- **Every step of a thread** brings it closer to its end, and no other step takes it back. -/
theorem rank_step (h : Stopping cfg s) (step : Step cfg s ev t) (q : Nat × Nat) :
    rank t q ≤ rank s q ∧ (ev.thread = some q → rank t q < rank s q) := by
  rcases stopping_cases h step with
    ⟨p, hp, adv⟩ | ⟨n, rfl, -, -, -, hsame⟩ | ⟨a, rfl, hnone, -, -, hsame⟩
  · by_cases hqp : q = p
    · subst hqp
      exact ⟨adv.closer.le, fun _ => adv.closer⟩
    · exact ⟨(adv.others q hqp).le, fun hq => absurd (Option.some.inj (hq.symm.trans hp)) hqp⟩
  · exact ⟨(hsame q).le, fun hq => by cases hq⟩
  · exact ⟨(hsame q).le, fun hq => by cases hq.symm.trans hnone⟩

/-- The threads that `stop` has still to join. -/
def OwnerPc.unjoined (threads : Nat) : OwnerPc → Nat
  | .stopping n => threads - n
  | _ => 0

/-- The steps that the threads and `stop` have before them. -/
def remaining (cfg : Config) (s : State) : Nat :=
  (∑ p ∈ cfg.poolThreads, rank s p) + s.owner.unjoined cfg.threads

theorem remaining_le (cfg : Config) (s : State) : remaining cfg s ≤ 6 * cfg.threads := by
  have hcard : cfg.poolThreads.card = cfg.threads := by
    rw [Config.poolThreads, Finset.card_product, Finset.card_range, Finset.card_range]
    rfl
  have hsum : ∑ p ∈ cfg.poolThreads, rank s p ≤ cfg.poolThreads.card * 5 :=
    (Finset.sum_le_sum fun p _ => rank_le s p).trans_eq (Finset.sum_const_nat fun _ _ => rfl)
  have hjoin : s.owner.unjoined cfg.threads ≤ cfg.threads := by
    unfold OwnerPc.unjoined
    cases s.owner <;> simp
  rw [hcard] at hsum
  unfold remaining
  omega

/-- A step of a thread or of `stop`. -/
def Event.own (ev : Event) : Bool := ev.thread.isSome || ev = .join

/-- **Only the clients** do not bring `stop` closer to its end. -/
theorem remaining_step (h : Stopping cfg s) (step : Step cfg s ev t) :
    (if ev.own then 1 else 0) + remaining cfg t ≤ remaining cfg s := by
  unfold remaining
  rcases stopping_cases h step with
    ⟨p, hp, adv⟩ | ⟨n, rfl, howner, more, hjoined, hsame⟩ | ⟨a, rfl, hnone, howner, -, hsame⟩
  · have hmem : p ∈ cfg.poolThreads := by
      refine h.1.known p fun hpc => ?_
      have hcloser := adv.closer
      rw [rank, rank, hpc] at hcloser
      exact absurd hcloser (Nat.not_lt_zero _)
    have hsum : ∑ p ∈ cfg.poolThreads, rank t p < ∑ p ∈ cfg.poolThreads, rank s p :=
      Finset.sum_lt_sum (fun q _ => (rank_step h step q).1) ⟨p, hmem, adv.closer⟩
    have hown : ev.own = true := by simp [Event.own, hp]
    rw [if_pos hown, adv.owner]
    omega
  · have hsum : ∑ p ∈ cfg.poolThreads, rank t p = ∑ p ∈ cfg.poolThreads, rank s p :=
      Finset.sum_congr rfl fun q _ => hsame q
    have hown : Event.own .join = true := rfl
    rw [if_pos hown, hsum, hjoined, howner]
    simp only [OwnerPc.unjoined]
    omega
  · have hsum : ∑ p ∈ cfg.poolThreads, rank t p = ∑ p ∈ cfg.poolThreads, rank s p :=
      Finset.sum_congr rfl fun q _ => hsame q
    have hown : Event.own (.act a) = false := by simp [Event.own, Event.thread, hnone]
    rw [hown, hsum, howner]
    simp

/-- **A thread takes one more task at most.** -/
theorem pops_run (h : Stopping cfg s) (run : Run (Step cfg) s evs t) (p : Nat × Nat) :
    evs.count (.act (.pop p)) + (if rank t p = 5 then 1 else 0) ≤ if rank s p = 5 then 1 else 0 := by
  induction run with
  | nil s => simp
  | @cons s m u ev evs hstep _ ih =>
      have hlater := ih (stopping_step h hstep)
      have hrank := rank_step h hstep p
      have hle := rank_le s p
      rw [List.count_cons]
      by_cases hpop : ev = .act (.pop p)
      · subst hpop
        have hless := hrank.2 rfl
        have hfive : rank s p = 5 := by
          cases hstep with
          | work pc thread _ step =>
              cases thread
              cases step with
              | pop _ _ idle _ => simp [rank, pc, idle, Scheduler.PoolPc.rank]
          | client thread _ => cases thread
        have hnot : rank m p ≠ 5 := by omega
        rw [if_neg hnot] at hlater
        simp only [beq_self_eq_true, if_true, hfive]
        omega
      · have hbeq : (ev == Event.act (.pop p)) = false := by simpa using hpop
        rw [hbeq]
        have hfive : rank m p = 5 → rank s p = 5 := fun hm => by omega
        by_cases hm : rank m p = 5
        · simpa [hm, hfive hm] using hlater
        · rw [if_neg hm] at hlater
          simp only [Bool.false_eq_true, if_false]
          omega

/-- As long as a thread is not joined, a thread can move, or `stop` can join it. -/
theorem exists_own_step (h : Stopping cfg s) (owner : s.owner = .stopping n)
    (more : n < cfg.threads) : ∃ ev t, Step cfg s ev t ∧ ev.own = true := by
  obtain ⟨inv, -⟩ := h
  obtain ⟨-, stopped, created, -⟩ := inv.stopping n owner
  have hmem := Scheduler.thread_mem more
  set p := cfg.thread n
  cases hpc : s.loops p with
  | unstarted => exact absurd hpc (created p hmem)
  | left => exact ⟨_, _, .join owner more hpc, rfl⟩
  | test => exact ⟨_, _, .leave hpc stopped, rfl⟩
  | inside =>
      cases hpool : s.sched.pool p with
      | popped j => exact ⟨_, _, .work hpc rfl (by simp) (.execute hpool), rfl⟩
      | executed j => exact ⟨_, _, .work hpc rfl (by simp) (.release hpool), rfl⟩
      | released j => exact ⟨_, _, .complete hpc (.complete hpool), rfl⟩
      | idle =>
          rw [Config.poolThreads, Finset.mem_product, Finset.mem_range, Finset.mem_range] at hmem
          cases hqueue : (s.sched.queues p.1).tasks with
          | nil => exact ⟨_, _, .skip hpc hpool hqueue, rfl⟩
          | cons j r =>
              exact ⟨_, _, .work hpc rfl (by simp) (.pop hmem.1 hmem.2 hpool hqueue), rfl⟩

theorem remaining_run (h : Stopping cfg s) (run : Run (Step cfg) s evs t) :
    evs.countP Event.own + remaining cfg t ≤ remaining cfg s := by
  induction run with
  | nil s => simp
  | cons hstep _ ih =>
      have hlater := ih (stopping_step h hstep)
      have hfirst := remaining_step h hstep
      rw [List.countP_cons]
      omega

/-- A step of a thread or of `stop`, and of nobody else. -/
def OwnStep (cfg : Config) (s : State) (ev : Event) (t : State) : Prop :=
  Step cfg s ev t ∧ ev.own = true

/-- The threads can be joined, whether the clients do anything or not. -/
theorem exists_joined (h : Stopping cfg s) :
    ∃ evs t, Run (OwnStep cfg) s evs t ∧ t.owner = .stopping cfg.threads := by
  have hclose : ∀ s, Stopping cfg s → ¬ s.owner = .stopping cfg.threads →
      ∃ evs t, Run (OwnStep cfg) s evs t ∧ Stopping cfg t ∧ remaining cfg t < remaining cfg s := by
    rintro s ⟨inv, m, howner⟩ hgoal
    have hm : m < cfg.threads := lt_of_le_of_ne (inv.stopping m howner).1
      fun h => hgoal (h ▸ howner)
    obtain ⟨ev, t, hstep, hown⟩ := exists_own_step ⟨inv, m, howner⟩ howner hm
    have hless := remaining_step ⟨inv, m, howner⟩ hstep
    rw [if_pos hown] at hless
    exact ⟨_, t, .one ⟨hstep, hown⟩, stopping_step ⟨inv, m, howner⟩ hstep, by omega⟩
  obtain ⟨evs, t, run, -, goal⟩ := exists_run_of_measure (Stopping cfg) _ _ hclose h
  exact ⟨evs, t, run, goal⟩

/-- **`stop` returns.** From wherever the threads and the clients are when it is called, the
threads can go on until all are joined. However they go on, and whatever the clients submit
meanwhile, they and `stop` take six steps for each thread at most; and each thread takes at most
one more task. -/
theorem stop_returns (run : Run (Step cfg) State.init evs s) (owner : s.owner = .stopping n) :
    (∃ evs' t, Run (Step cfg) s evs' t ∧ t.owner = .stopping cfg.threads) ∧
      ∀ evs' t, Run (Step cfg) s evs' t → evs'.countP Event.own ≤ 6 * cfg.threads ∧
        ∀ p, evs'.count (.act (.pop p)) ≤ 1 := by
  have stopping : Stopping cfg s := ⟨inv_run run, n, owner⟩
  constructor
  · obtain ⟨evs', t, rest, joined⟩ := exists_joined stopping
    exact ⟨evs', t, rest.mono fun _ _ _ h => h.1, joined⟩
  · intro evs' t rest
    have hremaining := remaining_run stopping rest
    have hbound := remaining_le cfg s
    refine ⟨by omega, fun p => ?_⟩
    have hpops := pops_run stopping rest p
    split at hpops <;> split at hpops <;> omega

/-- One thread, at the head of its loop, and a task that it has not taken. -/
theorem exists_stopping : ∃ evs s, Run (Step ⟨1, 1, 1⟩) State.init evs s ∧
    s.owner = .stopping 0 ∧ (s.sched.queues 0).tasks = [⟨0, 0, ⟨7, 0, 50⟩⟩] ∧
    s.sched.pushed = [⟨0, 0, ⟨7, 0, 50⟩⟩] ∧ s.sched.completed = [] ∧
    s.sched.totalSubmitted = 1 ∧ s.sched.totalCompleted = 0 ∧ s.sched.clients 0 = .idle ∧
    s.running = false ∧ s.loops (Config.thread ⟨1, 1, 1⟩ 0) = .test :=
  ⟨_, _, .cons (.start rfl) <| .cons (.spawn rfl (by decide)) <|
    .cons (.client rfl (.push (c := 0) (t := ⟨7, 0, 50⟩) (by decide) rfl)) <|
    .cons (.client rfl (.count (c := 0) (j := ⟨0, 0, ⟨7, 0, 50⟩⟩) rfl)) <| .one (.stop rfl),
    rfl, rfl, rfl, rfl, rfl, rfl, rfl, rfl, rfl⟩

/-- It is joined in the end. -/
theorem stop_returns_one : ∃ evs s t, Run (Step ⟨1, 1, 1⟩) State.init evs s ∧
    s.owner = .stopping 0 ∧ t.owner = .stopping 1 ∧ ∃ evs', Run (Step ⟨1, 1, 1⟩) s evs' t := by
  obtain ⟨evs, s, run, owner, -⟩ := exists_stopping
  obtain ⟨⟨evs', t, rest, joined⟩, -⟩ := stop_returns run owner
  exact ⟨evs, s, t, run, owner, joined, evs', rest⟩

/-! ### After the return of `stop` -/

/-- When `stop` has returned, no thread is in its loop. -/
theorem left_of_joined (h : Inv cfg s) (owner : s.owner = .stopping cfg.threads) (p : Nat × Nat) :
    s.loops p = .left ∨ s.loops p = .unstarted := by
  by_cases hp : s.loops p = .unstarted
  · exact .inr hp
  · obtain ⟨m, hm, rfl⟩ := Scheduler.exists_thread (h.known p hp)
    exact .inl ((h.stopping _ owner).2.2.2 m hm)

/-- Then only clients move. -/
theorem client_of_joined (h : Inv cfg s) (owner : s.owner = .stopping cfg.threads)
    (step : Step cfg s ev t) : t.owner = .stopping cfg.threads ∧
      ∃ a, ev = .act a ∧ a.thread = none ∧ Scheduler.Step cfg s.sched a t.sched := by
  rcases stopping_cases ⟨h, _, owner⟩ step with
    ⟨p, -, adv⟩ | ⟨n, -, howner, more, -⟩ | ⟨a, hact, hnone, howner, hsched, -⟩
  · have hzero : rank s p = 0 := by
      rcases left_of_joined h owner p with hpc | hpc <;> simp [rank, hpc]
    exact absurd adv.closer (by simp [hzero])
  · cases owner.symm.trans howner
    exact absurd more (Nat.lt_irrefl _)
  · exact ⟨howner.trans owner, a, hact, hnone, hsched⟩

/-- What holds of the scheduler and is kept by its clients holds for good. -/
theorem client_run (Keeps : Scheduler.State → Prop) (Good : Action → Prop)
    (kept : ∀ s a t, a.thread = none → Keeps s → Scheduler.Step cfg s a t → Keeps t ∧ Good a)
    (h : Inv cfg s) (owner : s.owner = .stopping cfg.threads) (init : Keeps s.sched)
    (run : Run (Step cfg) s evs t) : Keeps t.sched ∧ ∀ a, .act a ∈ evs → Good a := by
  set Now : State → Prop := fun s => Inv cfg s ∧ s.owner = .stopping cfg.threads ∧ Keeps s.sched
  set Fine : Event → Prop := fun ev => ∀ a, ev = .act a → Good a
  have hstep : ∀ s ev t, Now s → Step cfg s ev t → Now t ∧ Fine ev := by
    rintro s ev t ⟨inv, owner, keeps⟩ step
    obtain ⟨howner, a, rfl, thread, hsched⟩ := client_of_joined inv owner step
    obtain ⟨hkeeps, hgood⟩ := kept _ _ _ thread keeps hsched
    exact ⟨⟨inv_step inv step, howner, hkeeps⟩, fun a' ha' => by cases ha'; exact hgood⟩
  have hnow : Now s := ⟨h, owner, init⟩
  have hkept : ∀ s ev t, Now s → Step cfg s ev t → Now t := fun s ev t now step =>
    (hstep s ev t now step).1
  have hfine : ∀ ev ∈ evs, Fine ev :=
    run.label_property Now hkept (fun s ev t now step => (hstep s ev t now step).2) hnow
  exact ⟨(run.invariant Now hkept hnow).2.2, fun a ha => hfine _ ha a rfl⟩

/-- Then no task is begun and not completed. -/
theorem completed_or_queued (run : Run (Step cfg) State.init evs s)
    (owner : s.owner = .stopping cfg.threads) {j : Scheduler.Job} (hj : j ∈ s.sched.pushed) :
    j ∈ s.sched.completed ∨
      j ∈ (s.sched.queues (cfg.nodeOf j.task)).tasks ∧ j ∉ s.sched.executed := by
  have inv := inv_run run
  obtain ⟨h, observed⟩ := Scheduler.observed_of_run (sched_of_run run) {}
  obtain ⟨sound, acc⟩ := Scheduler.run_account observed
  rcases acc.kept j hj with hqueued | ⟨i, hheld⟩ | hdone
  · exact .inr ⟨hqueued, (sound.pool.queued _ j hqueued).2.2.1⟩
  · have hidle : s.sched.pool (cfg.nodeOf j.task, i) = .idle := by
      refine inv.idle _ fun hinside => ?_
      rcases left_of_joined inv owner (cfg.nodeOf j.task, i) with hpc | hpc <;>
        cases hinside.symm.trans hpc
    rw [hidle] at hheld
    cases hheld
  · exact .inl hdone

/-- **What `stop` leaves behind.** When it has returned, every task that was submitted is either
completed or still in the queue of its node, not begun; and from then on none is ever begun,
whatever the clients do. -/
theorem stop_drops (run : Run (Step cfg) State.init evs s)
    (owner : s.owner = .stopping cfg.threads) :
    (∀ j ∈ s.sched.pushed, j ∈ s.sched.completed ∨
      j ∈ (s.sched.queues (cfg.nodeOf j.task)).tasks ∧ j ∉ s.sched.executed) ∧
      ∀ evs' t, Run (Step cfg) s evs' t → t.sched.executed = s.sched.executed ∧
        t.sched.completed = s.sched.completed := by
  refine ⟨fun j hj => completed_or_queued run owner hj, fun evs' t rest => ?_⟩
  refine (client_run (fun x => x.executed = s.sched.executed ∧
    x.completed = s.sched.completed) (fun _ => True) ?_ (inv_run run) owner ⟨rfl, rfl⟩ rest).1
  rintro x a y thread same step
  refine ⟨?_, trivial⟩
  cases step <;> first | exact same | cases thread

/-- Without submissions no task is new, and what is executed stays so. -/
theorem unsubmitted_run (run : Run (Step cfg) s evs t)
    (quiet : ∀ c task, .act (.push c task) ∉ evs) : t.sched.pushed = s.sched.pushed ∧
      ∀ j ∈ s.sched.executed, j ∈ t.sched.executed := by
  have hquiet : ∀ a ∈ evs.filterMap Event.action, ∀ c task, a ≠ .push c task := by
    rintro a ha c task rfl
    obtain ⟨ev, hev, hact⟩ := List.mem_filterMap.mp ha
    cases ev with
    | act a =>
        cases hact
        exact quiet c task hev
    | _ => cases hact
  have hstep : ∀ x a y, (∀ c task, a ≠ .push c task) →
      x.pushed = s.sched.pushed ∧ (∀ j ∈ s.sched.executed, j ∈ x.executed) →
      Scheduler.Step cfg x a y →
      y.pushed = s.sched.pushed ∧ ∀ j ∈ s.sched.executed, j ∈ y.executed := by
    rintro x a y hnot ⟨hpushed, hexecuted⟩ step
    cases step with
    | push => exact absurd rfl (hnot _ _)
    | execute => exact ⟨hpushed, fun j hj => List.mem_append_left _ (hexecuted j hj)⟩
    | _ => exact ⟨hpushed, hexecuted⟩
  exact (sched_of_run run).invariant_of_labels (fun x => x.pushed = s.sched.pushed ∧
    ∀ j ∈ s.sched.executed, j ∈ x.executed) hstep hquiet ⟨rfl, fun _ hj => hj⟩

/-- The thread has ended without having taken the task. -/
theorem exists_stopped : ∃ evs s, Run (Step ⟨1, 1, 1⟩) State.init evs s ∧
    s.owner = .stopping 1 ∧ s.sched.pushed = [⟨0, 0, ⟨7, 0, 50⟩⟩] ∧ s.sched.completed = [] ∧
    s.sched.totalSubmitted = 1 ∧ s.sched.totalCompleted = 0 ∧ s.sched.clients 0 = .idle := by
  obtain ⟨evs, s, run, owner, -, hpushed, hcompleted, hsubmitted, htotal, hclient, stopped, pc⟩ :=
    exists_stopping
  have rest : Run (Step ⟨1, 1, 1⟩) s [.test (Config.thread ⟨1, 1, 1⟩ 0), .join] _ :=
    .cons (.leave pc stopped) <| .one (.join owner (by decide) (by simp))
  exact ⟨_, _, run.append rest, rfl, hpushed, hcompleted, hsubmitted, htotal, hclient⟩

/-- The task is in its queue for good. -/
theorem stop_drops_one : ∃ evs s, Run (Step ⟨1, 1, 1⟩) State.init evs s ∧
    s.owner = .stopping 1 ∧ (⟨0, 0, ⟨7, 0, 50⟩⟩ : Scheduler.Job) ∈ (s.sched.queues 0).tasks ∧
    ∀ evs' t, Run (Step ⟨1, 1, 1⟩) s evs' t →
      (⟨0, 0, ⟨7, 0, 50⟩⟩ : Scheduler.Job) ∉ t.sched.executed := by
  obtain ⟨evs, s, run, owner, hpushed, hcompleted, -⟩ := exists_stopped
  obtain ⟨left, later⟩ := stop_drops run owner
  rcases left ⟨0, 0, ⟨7, 0, 50⟩⟩ (by simp [hpushed]) with hdone | ⟨hqueued, hnot⟩
  · rw [hcompleted] at hdone
    cases hdone
  · exact ⟨evs, s, run, owner, hqueued, fun evs' t rest => (later evs' t rest).1 ▸ hnot⟩

/-- No `wait_all` of client `c` can return. -/
structure Barred (c : Nat) (s : Scheduler.State) : Prop where
  short : s.totalCompleted < s.totalSubmitted
  completed : ∀ n, s.clients c = .sawCompleted n → n < s.totalSubmitted
  submitted : ∀ n, s.clients c = .sawSubmitted n → s.totalCompleted < n

theorem Barred.frame {c : Nat} {s t : Scheduler.State} (h : Barred c s)
    (completed : t.totalCompleted = s.totalCompleted)
    (submitted : s.totalSubmitted ≤ t.totalSubmitted)
    (client : t.clients c = s.clients c ∨
      (∀ n, t.clients c ≠ .sawCompleted n) ∧ ∀ n, t.clients c ≠ .sawSubmitted n) : Barred c t where
  short := completed ▸ h.short.trans_le submitted
  completed n hn := by
    rcases client with hsame | hother
    · exact (h.completed n (hsame ▸ hn)).trans_le submitted
    · exact absurd hn (hother.1 n)
  submitted n hn := by
    rcases client with hsame | hother
    · exact completed ▸ h.submitted n (hsame ▸ hn)
    · exact absurd hn (hother.2 n)

/-- A client that moves to a point where it has seen nothing. -/
theorem unseen_update {c c' : Nat} {clients : Nat → Scheduler.ClientPc} {pc : Scheduler.ClientPc}
    (hcompleted : ∀ n, pc ≠ .sawCompleted n) (hsubmitted : ∀ n, pc ≠ .sawSubmitted n) :
    Function.update clients c' pc c = clients c ∨
      (∀ n, Function.update clients c' pc c ≠ .sawCompleted n) ∧
        ∀ n, Function.update clients c' pc c ≠ .sawSubmitted n := by
  by_cases hc : c = c'
  · subst hc
    simpa using Or.inr ⟨hcompleted, hsubmitted⟩
  · exact .inl (Function.update_of_ne hc ..)

/-- The clients do not help one another. -/
theorem Barred.step {c : Nat} {s t : Scheduler.State} {a : Action} (h : Barred c s)
    (thread : a.thread = none) (step : Scheduler.Step cfg s a t) :
    Barred c t ∧ a ≠ .waitReturn c := by
  cases step with
  | push => exact ⟨h.frame rfl (Nat.le_refl _) (unseen_update (by simp) (by simp)), by simp⟩
  | count => exact ⟨h.frame rfl (Nat.le_succ _) (unseen_update (by simp) (by simp)), by simp⟩
  | pop => cases thread
  | execute => cases thread
  | release => cases thread
  | complete => cases thread
  | callWait => exact ⟨h.frame rfl (Nat.le_refl _) (unseen_update (by simp) (by simp)), by simp⟩
  | @loadCompleted c' pc =>
      refine ⟨?_, by simp⟩
      by_cases hc : c = c'
      · subst hc
        refine ⟨h.short, fun n hn => ?_, fun n hn => ?_⟩
        · simp only [Function.update_self] at hn
          cases hn
          exact h.short
        · simp only [Function.update_self] at hn
          cases hn
      · exact h.frame rfl (Nat.le_refl _) (.inl (Function.update_of_ne hc ..))
  | @loadSubmitted c' pc =>
      refine ⟨?_, by simp⟩
      by_cases hc : c = c'
      · subst hc
        refine ⟨h.short, fun n hn => ?_, fun n hn => ?_⟩
        · simp only [Function.update_self] at hn
          cases hn
        · simp only [Function.update_self] at hn
          cases hn
          exact h.short
      · exact h.frame rfl (Nat.le_refl _) (.inl (Function.update_of_ne hc ..))
  | submittedAgain =>
      exact ⟨h.frame rfl (Nat.le_refl _) (unseen_update (by simp) (by simp)), by simp⟩
  | completedAgain =>
      exact ⟨h.frame rfl (Nat.le_refl _) (unseen_update (by simp) (by simp)), by simp⟩
  | submittedReturn pc done =>
      refine ⟨h.frame rfl (Nat.le_refl _) (unseen_update (by simp) (by simp)), ?_⟩
      rintro ⟨⟩
      exact done (h.completed _ pc)
  | completedReturn pc done =>
      refine ⟨h.frame rfl (Nat.le_refl _) (unseen_update (by simp) (by simp)), ?_⟩
      rintro ⟨⟩
      exact done (h.submitted _ pc)

/-- **Who gets through `wait_all` after `stop`.** When `stop` has returned, a client that is
outside the scheduler can call `wait_all` and come back from it if and only if no fewer tasks are
completed than are counted as submitted; else it spins for good, whatever the others do. -/
theorem wait_returns_iff (run : Run (Step cfg) State.init evs s)
    (owner : s.owner = .stopping cfg.threads) {c : Nat} (client : c < cfg.clients)
    (outside : s.sched.clients c = .idle) :
    (∃ evs' t, Run (Step cfg) s evs' t ∧ .act (.waitReturn c) ∈ evs') ↔
      s.sched.totalSubmitted ≤ s.sched.totalCompleted := by
  constructor
  · rintro ⟨evs', t, rest, hreturn⟩
    by_contra hshort
    have barred : Barred c s.sched :=
      ⟨Nat.lt_of_not_le hshort, by simp [outside], by simp [outside]⟩
    exact (client_run (Barred c) (· ≠ .waitReturn c)
      (fun _ _ _ thread h step => h.step thread step) (inv_run run) owner barred rest).2 _ hreturn rfl
  · intro henough
    refine ⟨[.act (.callWait c), .act (.loadCompleted c), .act (.waitReturn c)], _,
      .cons (.client rfl (.callWait client outside)) <|
        .cons (.client rfl (.loadCompleted (by simp))) <|
        .one (.client rfl (.submittedReturn (n := s.sched.totalCompleted) (by simp) ?_)),
      by simp⟩
    exact Nat.not_lt.mpr henough

/-- With the task in its queue the client spins for good. -/
theorem wait_returns_iff_one : ∃ evs s, Run (Step ⟨1, 1, 1⟩) State.init evs s ∧
    s.owner = .stopping 1 ∧
    ¬ ∃ evs' t, Run (Step ⟨1, 1, 1⟩) s evs' t ∧ .act (.waitReturn 0) ∈ evs' := by
  obtain ⟨evs, s, run, owner, -, -, hsubmitted, htotal, outside⟩ := exists_stopped
  refine ⟨evs, s, run, owner, fun hreturn => ?_⟩
  have henough := (wait_returns_iff run owner (by decide) outside).mp hreturn
  omega

end Lifecycle

end Pregel
