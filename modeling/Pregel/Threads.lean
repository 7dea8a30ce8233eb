import Pregel.FaultInjection
import Pregel.Termination

/-!
The three threads of `Coordinator::run` together.

The loop, the injected fault and the monitor share the failure detector, and the monitor calls
back into the coordinator. None of this reaches the engine: a run of the three threads is, for
the coordinator, a run of its own with callbacks in between. And no thread can keep the loop
from going on.

* `projects`: the run of the coordinator in a run of the threads.
* `Rounds`, `rounds_of_run`: where the loop is, and how often it has sent each heartbeat.
* `outcome_unaffected`: what is left when the loop has ended.
* `loop_finishes`: the loop can be run to its end from anywhere.
-/

namespace Pregel.FaultInjection

open Lts
open HeartbeatDetector (ms)

variable {σ μ : Type} [Addressed μ] {compute : Compute σ μ}
  {computePhi : HeartbeatRecord → Timestamp → Rat}

/-! ### The run of the coordinator -/

/-- The traces of the supersteps in a run of the threads. -/
def traces (evs : List (Event μ)) : List (List (WorkerId × WorkerNode.Event μ)) :=
  evs.filterMap fun
    | .superstep _ tr => some tr
    | _ => none

/-- Callbacks are steps of the coordinator. -/
theorem notify_run (compute : Compute σ μ) (c : Coordinator σ μ) (fired : List Callback) :
    ∃ ls, Run (Coordinator.Step compute) c ls (notify c fired) ∧ Coordinator.traces ls = [] ∧
      (notify c fired).phase = c.phase ∧ (notify c fired).engine = c.engine := by
  induction fired generalizing c with
  | nil => exact ⟨[], .nil c, rfl, rfl, rfl⟩
  | cons cb fired ih =>
      cases cb with
      | failure w =>
          obtain ⟨ls, run, htraces, hphase, hengine⟩ := ih (c.onFailure w)
          exact ⟨.failure w :: ls, .cons (.failure c w) run, htraces, hphase, hengine⟩
      | recovery w => exact ih c

/-- **The threads, seen by the coordinator.** -/
theorem projects {s t : State σ μ} {evs : List (Event μ)}
    (run : Run (Step compute computePhi) s evs t) :
    ∃ ls, Run (Coordinator.Step compute) s.coordinator ls t.coordinator ∧
      Coordinator.traces ls = traces evs := by
  induction run with
  | nil s => exact ⟨[], .nil _, rfl⟩
  | cons hstep _ ih =>
      obtain ⟨ls, rest, htraces⟩ := ih
      cases hstep with
      | leave pc exhausted => exact ⟨_ :: ls, .cons exhausted rest, htraces⟩
      | superstep pc nomore superstep =>
          exact ⟨_ :: ls, .cons superstep rest, congrArg (List.cons _) htraces⟩
      | check pc record monotone₁ monotone₂ =>
          obtain ⟨ls', callbacks, hnone, -, -⟩ := notify_run compute _ _
          refine ⟨ls' ++ ls, callbacks.append rest, ?_⟩
          rw [Coordinator.traces, List.filterMap_append]
          change Coordinator.traces ls' ++ Coordinator.traces ls = _
          rw [hnone, htraces]
          rfl
      | _ => exact ⟨ls, rest, htraces⟩

/-! ### Where the loop is -/

/-- A heartbeat of worker `w`. -/
def isBeat (w : WorkerId) : Event μ → Bool
  | .beat v _ => v = w
  | _ => false

/-- The heartbeat of worker `w` has been sent in this round. -/
def LoopPc.passed (w : WorkerId) : LoopPc → Bool
  | .beating v => w < v
  | .stamped v _ => w < v
  | _ => false

/-- Where the loop can be. -/
def LoopPc.Within (workerCount : Nat) : LoopPc → Prop
  | .beating v => v ≤ workerCount
  | .stamped v _ => v < workerCount
  | _ => True

/-- The loop after the events `evs`. -/
structure Rounds (config : EngineConfig) (evs : List (Event μ)) (s : State σ μ) : Prop where
  settings : s.coordinator.engine.config = config
  pc : s.loop.Within config.workerCount
  left : s.loop = .left ↔ s.coordinator.phase.finished = true
  bounded : s.coordinator.phase.supersteps config.maxSupersteps ≤ config.maxSupersteps
  more : ∀ k, s.coordinator.phase = .running k → s.loop ≠ .head → k < config.maxSupersteps
  beats : ∀ w < config.workerCount, evs.countP (isBeat w) =
    s.coordinator.phase.supersteps config.maxSupersteps + if s.loop.passed w then 1 else 0

section Runs

variable {config : EngineConfig} {vertices : List (Vertex σ μ)} {now : WorkerId → Timestamp}
  {clock : Timestamp} {evs : List (Event μ)} {s t : State σ μ} {ev : Event μ}

omit [Addressed μ] in
theorem rounds_start : Rounds config [] (State.start config vertices now clock) where
  settings := GraphEngine.load_config _ _
  pc := trivial
  left := iff_of_false (fun h => by cases h) fun h => by cases h
  bounded := Nat.zero_le _
  more _ _ hpc := absurd rfl hpc
  beats _ _ := rfl

omit [Addressed μ] in
/-- A step in which neither the loop nor the coordinator goes on. -/
theorem Rounds.idle (h : Rounds config evs s) (loop : t.loop = s.loop)
    (phase : t.coordinator.phase = s.coordinator.phase)
    (engine : t.coordinator.engine = s.coordinator.engine)
    (silent : ∀ w, isBeat w ev = false) : Rounds config (evs ++ [ev]) t where
  settings := engine ▸ h.settings
  pc := loop ▸ h.pc
  left := by rw [loop, phase]; exact h.left
  bounded := phase ▸ h.bounded
  more k := by rw [loop, phase]; exact h.more k
  beats w hw := by
    rw [loop, phase, List.countP_append, List.countP_singleton, silent, ← h.beats w hw]
    rfl

theorem rounds_step (h : Rounds config evs s) (step : Step compute computePhi s ev t) :
    Rounds config (evs ++ [ev]) t := by
  have hcount : ∀ w, (evs ++ [ev]).countP (isBeat w) =
      evs.countP (isBeat w) + if isBeat w ev then 1 else 0 := by
    intro w
    rw [List.countP_append, List.countP_singleton]
  cases step with
  | tick => exact h.idle rfl rfl rfl fun _ => rfl
  | inject => exact h.idle rfl rfl rfl fun _ => rfl
  | wake => exact h.idle rfl rfl rfl fun _ => rfl
  | unlock => exact h.idle rfl rfl rfl fun _ => rfl
  | check =>
      obtain ⟨-, -, -, hphase, hengine⟩ := notify_run compute s.coordinator _
      exact h.idle rfl hphase hengine fun _ => rfl
  | @enter step pc running more =>
      have hbeats := h.beats
      rw [pc] at hbeats
      refine ⟨h.settings, Nat.zero_le _, ?_, h.bounded, fun k hk _ => ?_, fun w hw => ?_⟩
      · exact iff_of_false (fun hleft => by cases hleft) fun hfinished => by
          change s.coordinator.phase.finished = true at hfinished
          rw [running] at hfinished
          cases hfinished
      · obtain rfl := Coordinator.Phase.running.inj (running.symm.trans hk)
        rwa [h.settings] at more
      · rw [hcount]
        exact hbeats w hw
  | @leave c pc exhausted =>
      have hbeats := h.beats
      have hbounded := h.bounded
      cases exhausted with
      | @exhausted k running nomore =>
          rw [h.settings] at nomore
          rw [running] at hbeats hbounded
          have hlast : config.maxSupersteps = k := Nat.le_antisymm (not_lt.mp nomore) hbounded
          refine ⟨h.settings, trivial, iff_of_true rfl rfl, Nat.le_refl _, ?_, fun w hw => ?_⟩
          · intro k hk
            cases hk
          · rw [hcount, hbeats w hw, pc]
            exact hlast.symm
  | @stamp w pc more =>
      have hbeats := h.beats
      have hleft := h.left
      rw [pc] at hbeats hleft
      refine ⟨h.settings, by rwa [h.settings] at more, ?_, h.bounded, fun k hk _ => ?_,
        fun v hv => ?_⟩
      · exact iff_of_false (fun hleft => by cases hleft) fun hfinished => by
          cases hleft.mpr hfinished
      · exact h.more k hk (by simp [pc])
      · rw [hcount]
        exact hbeats v hv
  | @beat w now pc lock =>
      have hbeats := h.beats
      have hleft := h.left
      have hpc := h.pc
      rw [pc] at hbeats hleft hpc
      refine ⟨h.settings, hpc, ?_, h.bounded, fun k hk _ => ?_, fun v hv => ?_⟩
      · exact iff_of_false (fun hleft => by cases hleft) fun hfinished => by
          cases hleft.mpr hfinished
      · exact h.more k hk (by simp [pc])
      · -- the heartbeat of `w` is the one that is sent now
        have hone : (if v < w then 1 else 0) + (if w = v then 1 else 0) =
            if v < w + 1 then 1 else 0 := by
          rcases Nat.lt_trichotomy v w with hlt | rfl | hgt
          · rw [if_pos hlt, if_neg (Nat.ne_of_gt hlt), if_pos (Nat.lt_succ_of_lt hlt)]
          · rw [if_neg (Nat.lt_irrefl v), if_pos rfl, if_pos (Nat.lt_succ_self v)]
          · rw [if_neg (Nat.lt_asymm hgt), if_neg (Nat.ne_of_lt hgt),
              if_neg (Nat.not_lt_of_le hgt)]
        have hsent := hbeats v hv
        simp only [LoopPc.passed, decide_eq_true_eq] at hsent
        simp only [hcount, LoopPc.passed, isBeat, decide_eq_true_eq]
        rw [hsent, Nat.add_assoc, hone]
  | @superstep w timing tr c pc nomore superstep =>
      have hbeats := h.beats
      have hpc := h.pc
      have hmore := h.more
      rw [pc] at hbeats hpc hmore
      rw [h.settings] at nomore
      cases superstep with
      | @superstep k _ _ e running _ run =>
          rw [running] at hbeats
          have hlt := hmore k running (by simp)
          have hsettings : e.config = config := by
            obtain ⟨ws, -, -, rfl⟩ := run
            exact h.settings
          have hround : ∀ v < config.workerCount, evs.countP (isBeat v) = k + 1 := by
            intro v hv
            have hpassed : v < w := Nat.lt_of_lt_of_le hv (not_lt.mp nomore)
            rw [hbeats v hv]
            simp [LoopPc.passed, hpassed, Coordinator.Phase.supersteps]
          by_cases hactive : e.totalActive = 0
          · simp only [hactive, if_true]
            refine ⟨hsettings, trivial, iff_of_true rfl rfl, hlt, ?_, fun v hv => ?_⟩
            · intro k hk
              cases hk
            · rw [hcount, hround v hv]
              rfl
          · simp only [hactive, if_false]
            refine ⟨hsettings, trivial, ?_, hlt, fun k _ hk => absurd rfl hk, fun v hv => ?_⟩
            · exact iff_of_false (fun hleft => by cases hleft) fun hfinished => by cases hfinished
            · rw [hcount, hround v hv]
              rfl

/-- After any run of the three threads. -/
theorem rounds_of_run
    (run : Run (Step compute computePhi) (State.start config vertices now clock) evs s) :
    Rounds config evs s :=
  run.invariant_history (Rounds config) (fun _ _ _ _ => rounds_step) rounds_start

/-! ### The end of the loop -/

/-- Everybody whom the monitor checks has a record. -/
structure Sound (config : EngineConfig) (s : State σ μ) : Prop where
  inv : Inv config s
  others : ∀ w < s.hb.workerCount, w ≠ s.hb.localId → (s.hb.records w).isSome
  checked : ∀ rest, s.monitor = .checking rest → ∀ w ∈ rest, (s.hb.records w).isSome

omit [Addressed μ] in
theorem sound_start (past : ∀ i, now i ≤ clock) :
    Sound config (State.start config vertices now clock) where
  inv := inv_start config vertices past
  others w hw hne := by
    change (if w < _ ∧ w ≠ _ then some _ else none).isSome
    rw [if_pos ⟨hw, hne⟩]
    rfl
  checked rest hpc := by cases hpc

theorem localId_call (d : HeartbeatDetector) (c : HeartbeatDetector.Call) :
    (d.call c).2.localId = d.localId := by
  cases c with
  | receive k now =>
      cases hrec : d.records k <;>
        simp [HeartbeatDetector.call, HeartbeatDetector.receiveHeartbeat, hrec,
          HeartbeatDetector.setRecord]
  | inject k =>
      cases hrec : d.records k <;>
        simp [HeartbeatDetector.call, HeartbeatDetector.injectFailure, hrec,
          HeartbeatDetector.setRecord]
  | check k phi now =>
      cases hrec : d.records k <;>
        simp [HeartbeatDetector.call, HeartbeatDetector.check, hrec, HeartbeatDetector.setRecord]

omit [Addressed μ] in
/-- A call of the detector. -/
theorem Sound.call (h : Sound config s) (c : HeartbeatDetector.Call) (inv : Inv config t)
    (hb : t.hb = (s.hb.call c).2)
    (checked : ∀ rest, t.monitor = .checking rest → ∀ w ∈ rest, (s.hb.records w).isSome) :
    Sound config t := by
  obtain ⟨-, -, -, hsome, -⟩ := HeartbeatDetector.call_frame h.inv.keyed c
  refine ⟨inv, ?_, ?_⟩
  · rw [hb, (HeartbeatDetector.call_records c).1, localId_call]
    exact fun w hw hne => hsome w (h.others w hw hne)
  · rw [hb]
    exact fun rest hpc w hw => hsome w (checked rest hpc w hw)

theorem sound_step (h : Sound config s) (step : Step compute computePhi s ev t) : Sound config t := by
  have inv := inv_step h.inv step
  cases step with
  | beat pc lock => exact h.call (.receive _ _) inv rfl h.checked
  | inject pc awake lock => exact h.call (.inject target) inv rfl h.checked
  | check pc record monotone₁ monotone₂ =>
      refine h.call (.check _ _ _) inv rfl fun rest hpc w hw => ?_
      cases hpc
      exact h.checked _ pc w (List.mem_cons_of_mem _ hw)
  | @wake order pc all =>
      refine ⟨inv, h.others, fun rest hpc w hw => ?_⟩
      cases hpc
      obtain ⟨hlt, hne⟩ := List.mem_filter.mp (all.mem_iff.mp hw)
      exact h.others w (List.mem_range.mp hlt) (of_decide_eq_true hne)
  | unlock => exact ⟨inv, h.others, fun rest hpc => by cases hpc⟩
  | _ => exact ⟨inv, h.others, h.checked⟩

theorem sound_run (h : Sound config s) (run : Run (Step compute computePhi) s evs t) :
    Sound config t :=
  run.invariant (Sound config) (fun _ _ _ => sound_step) h

theorem nodes_of_run (nodes : 0 < config.numaNodes)
    (run : Run (Step compute computePhi) (State.start config vertices now clock) evs s)
    (i : WorkerId) : 0 < (s.coordinator.engine.workers i).config.numaNodes := by
  obtain ⟨ls, projected, -⟩ := projects run
  obtain ⟨exec, -⟩ := Coordinator.outcome_of_run projected
  exact Coordinator.nodes_of_execution nodes exec i

section Continuations

variable (compute computePhi)

/-- **The monitor gives its lock back**, and the loop is where it was. -/
theorem unlocks (h : Sound config s) : ∃ evs' t,
    Run (Step compute computePhi) s evs' t ∧ t.monitor = .sleeping ∧ t.loop = s.loop ∧
      t.coordinator.phase = s.coordinator.phase ∧ t.coordinator.engine = s.coordinator.engine := by
  cases hmonitor : s.monitor with
  | sleeping => exact ⟨[], s, .nil s, hmonitor, rfl, rfl, rfl⟩
  | checking rest =>
      induction rest generalizing s with
      | nil => exact ⟨_, _, .one (.unlock hmonitor), rfl, rfl, rfl, rfl⟩
      | cons w rest ih =>
          obtain ⟨rec, hrec⟩ := Option.isSome_iff_exists.mp
            (h.checked _ hmonitor w List.mem_cons_self)
          have hstep : Step compute computePhi s _ _ :=
            .check hmonitor hrec (Int.le_refl s.clock) (Int.le_refl s.clock)
          obtain ⟨-, -, -, hphase, hengine⟩ := notify_run compute s.coordinator
            (s.hb.check w (computePhi rec s.clock) s.clock).1
          obtain ⟨evs', t, run, hsleeping, hloop, hphase', hengine'⟩ := ih (sound_step h hstep) rfl
          exact ⟨_, t, .cons hstep run, hsleeping, hloop, hphase'.trans hphase,
            hengine'.trans hengine⟩

/-- The heartbeats of a round from worker `w` on. -/
theorem beats_all (h : Sound config s) {w : WorkerId} (pc : s.loop = .beating w)
    (within : w ≤ s.coordinator.engine.config.workerCount) : ∃ evs' t,
      Run (Step compute computePhi) s evs' t ∧
      t.loop = .beating s.coordinator.engine.config.workerCount ∧
      t.coordinator.phase = s.coordinator.phase ∧ t.coordinator.engine = s.coordinator.engine := by
  obtain ⟨n, hn⟩ := Nat.exists_eq_add_of_le within
  induction n generalizing s w with
  | zero => exact ⟨[], s, .nil s, by rw [pc, hn, Nat.add_zero], rfl, rfl⟩
  | succ n ih =>
      have more : w < s.coordinator.engine.config.workerCount := by
        rw [hn]
        exact Nat.lt_add_of_pos_right (Nat.succ_pos n)
      have hstamp : Step compute computePhi s _ _ := .stamp pc more
      obtain ⟨evs₁, s₁, run₁, hsleeping, hloop, hphase, hengine⟩ :=
        unlocks compute computePhi (sound_step h hstamp)
      have hbeat : Step compute computePhi s₁ _ _ := .beat hloop hsleeping
      have run := (Run.cons hstamp run₁).append (.one hbeat)
      have hsame : s₁.coordinator.engine.config = s.coordinator.engine.config :=
        congrArg GraphEngine.config hengine
      obtain ⟨evs₂, t, rest, hpc, hphase', hengine'⟩ := ih (sound_run h run) rfl
        (by rw [hsame]; exact more) (by rw [hsame, hn]; omega)
      rw [hsame] at hpc
      exact ⟨_, t, run.append rest, hpc, hphase'.trans hphase, hengine'.trans hengine⟩

/-- The rest of a round, once the heartbeat of worker `w` is due. -/
theorem round_ends (h : Sound config s) (rounds : Rounds config evs s) {w : WorkerId}
    (pc : s.loop = .beating w) {k : Superstep} (running : s.coordinator.phase = .running k)
    (nodes : ∀ i < config.workerCount, 0 < (s.coordinator.engine.workers i).config.numaNodes) :
    ∃ evs' t, Run (Step compute computePhi) s evs' t ∧
      (t.loop = .left ∨ (t.loop = .head ∧ t.coordinator.phase = .running (k + 1))) := by
  have within : w ≤ s.coordinator.engine.config.workerCount := by
    have hpc := rounds.pc
    rw [pc] at hpc
    rwa [rounds.settings]
  obtain ⟨evs₁, s₁, run₁, hpc, hphase, hengine⟩ := beats_all compute computePhi h pc within
  have hsettings : s₁.coordinator.engine.config = config := by rw [hengine, rounds.settings]
  have more : k < s₁.coordinator.engine.config.maxSupersteps := by
    rw [hsettings]
    exact rounds.more k running (by rw [pc]; simp)
  obtain ⟨tr, superstep⟩ := GraphEngine.exists_superstepRun compute k (fun _ _ => 0)
    (e := s₁.coordinator.engine) (by rw [hsettings, hengine]; exact nodes)
  have hstep := Coordinator.Step.superstep (hphase.trans running) more superstep
  refine ⟨_, _, run₁.append (.one (.superstep hpc ?_ hstep)), ?_⟩
  · rw [hengine]
    exact Nat.lt_irrefl _
  · by_cases hactive : (s₁.coordinator.engine.superstep compute k fun _ _ => 0).totalActive = 0
    · exact .inl (by simp [hactive])
    · exact .inr (by simp [hactive])

/-- The rounds that are left. -/
theorem rounds_end (past : ∀ i, now i ≤ clock) (nodes : 0 < config.numaNodes) {k n : Nat}
    (last : config.maxSupersteps ≤ k + n)
    (run : Run (Step compute computePhi) (State.start config vertices now clock) evs s)
    (pc : s.loop = .head) (running : s.coordinator.phase = .running k) :
    ∃ evs' t, Run (Step compute computePhi) s evs' t ∧ t.loop = .left := by
  induction n generalizing k evs s with
  | zero =>
      have nomore : ¬ k < s.coordinator.engine.config.maxSupersteps := by
        rw [(rounds_of_run run).settings]
        exact Nat.not_lt_of_le last
      exact ⟨_, _, .one (.leave pc (.exhausted running nomore)), rfl⟩
  | succ n ih =>
      by_cases more : k < s.coordinator.engine.config.maxSupersteps
      · have henter : Step compute computePhi s _ _ := .enter pc running more
        have hrun := run.append (.one henter)
        obtain ⟨evs₁, t, round, hleft | ⟨hhead, hrunning⟩⟩ := round_ends compute computePhi
          (sound_run (sound_start past) hrun) (rounds_of_run hrun) rfl running
          fun i _ => nodes_of_run nodes run i
        · exact ⟨_, t, .cons henter round, hleft⟩
        · obtain ⟨evs₂, t', rest, hleft⟩ := ih (by omega) (hrun.append round) hhead hrunning
          exact ⟨_, t', .cons henter (round.append rest), hleft⟩
      · exact ⟨_, _, .one (.leave pc (.exhausted running more)), rfl⟩

end Continuations

/-- The loop can be left. -/
theorem exists_left (past : ∀ i, now i ≤ clock) (nodes : 0 < config.numaNodes)
    (run : Run (Step compute computePhi) (State.start config vertices now clock) evs s) :
    ∃ evs' t, Run (Step compute computePhi) s evs' t ∧ t.loop = .left := by
  have rounds := rounds_of_run run
  have sound := sound_run (sound_start past) run
  have hrunning : s.loop ≠ .left → ∃ k, s.coordinator.phase = .running k := fun hpc =>
    (Coordinator.finished_or_running _).resolve_left fun hfinished =>
      hpc (rounds.left.mpr hfinished)
  -- from the heartbeat of a worker on
  have hbeating : ∀ {evs s} (run : Run (Step compute computePhi)
      (State.start config vertices now clock) evs s) {w k}, s.loop = .beating w →
      s.coordinator.phase = .running k →
      ∃ evs' t, Run (Step compute computePhi) s evs' t ∧ t.loop = .left := by
    intro evs s run w k pc running
    obtain ⟨evs₁, t, round, hleft | ⟨hhead, hnext⟩⟩ := round_ends compute computePhi
      (sound_run (sound_start past) run) (rounds_of_run run) pc running
      fun i _ => nodes_of_run nodes run i
    · exact ⟨evs₁, t, round, hleft⟩
    · obtain ⟨evs₂, t', rest, hleft⟩ := rounds_end compute computePhi past nodes
        (Nat.le_add_left _ _) (run.append round) hhead hnext
      exact ⟨_, t', round.append rest, hleft⟩
  cases pc : s.loop with
  | head =>
      obtain ⟨k, running⟩ := hrunning (by rw [pc]; simp)
      exact rounds_end compute computePhi past nodes (Nat.le_add_left _ _) run pc running
  | beating w =>
      obtain ⟨k, running⟩ := hrunning (by rw [pc]; simp)
      exact hbeating run pc running
  | stamped w stamp =>
      obtain ⟨k, running⟩ := hrunning (by rw [pc]; simp)
      obtain ⟨evs₁, s₁, run₁, hsleeping, hloop, hphase, -⟩ := unlocks compute computePhi sound
      have hbeat : Step compute computePhi s₁ _ _ := .beat (hloop.trans pc) hsleeping
      have hnext := run₁.append (.one hbeat)
      obtain ⟨evs₂, t, rest, hleft⟩ :=
        hbeating (run.append hnext) rfl (hphase.trans running)
      exact ⟨_, t, hnext.append rest, hleft⟩
  | left => exact ⟨[], s, .nil s, pc⟩

/-- **One heartbeat a round, and an end.** Take any run of the three threads, whatever the other
two have done and wherever the monitor is. The loop has sent a heartbeat for every worker, failed
or not, once in each superstep so far, and once more if this round has come past the worker. It
is left exactly when the coordinator has converged or has run all its supersteps, which are
`max_supersteps` at most; and the run can be continued until it is. -/
theorem loop_finishes (past : ∀ i, now i ≤ clock) (nodes : 0 < config.numaNodes)
    (run : Run (Step compute computePhi) (State.start config vertices now clock) evs s) :
    Rounds config evs s ∧ (traces evs).length ≤ config.maxSupersteps ∧
      ∃ evs' t, Run (Step compute computePhi) s evs' t ∧ t.loop = .left := by
  have rounds := rounds_of_run run
  refine ⟨rounds, ?_, exists_left past nodes run⟩
  obtain ⟨ls, projected, htraces⟩ := projects run
  obtain ⟨exec, -⟩ := Coordinator.outcome_of_run projected
  rw [← htraces, exec.length_eq]
  exact rounds.bounded

end Runs

/-- The fault is injected and found, and the monitor is about to check worker 2. -/
theorem loop_finishes_detected : ∃ (evs evs' : List (Event Message)) (s t : State Nat Message),
    Run (Step idle noSuspicion) faultStart evs s ∧ s.hb.stateOf target = .failed ∧
      s.monitor = .checking [2] ∧ Run (Step idle noSuspicion) s evs' t ∧ t.loop = .left := by
  have run : ∃ evs s, Run (Step idle noSuspicion) faultStart evs s ∧
      s.hb.stateOf target = .failed ∧ s.monitor = .checking [2] := by
    have start : Step idle noSuspicion faultStart (.tick (ms 500)) _ := .tick (by decide)
    refine ⟨_, _, .cons start <| .cons (.inject rfl (by decide) rfl) <|
      .cons (.wake rfl (.refl [1, 2])) <|
      .one (.check rfl rfl (Int.le_refl _) (Int.le_refl _)), by decide +kernel, rfl⟩
  obtain ⟨evs, s, run, hfailed, hmonitor⟩ := run
  obtain ⟨-, -, evs', t, rest, hleft⟩ := loop_finishes (fun _ => Int.le_refl _) Nat.two_pos run
  exact ⟨evs, evs', s, t, run, hfailed, hmonitor, rest, hleft⟩

/-! ### The outcome -/

/-- **What the detector finds out changes nothing.** Take two runs of the three threads over a
graph, on the same number of workers and with the same limit of supersteps: with the transport or
without, with any heartbeat interval and timeout, any suspicion levels, with an injected fault or
without, and in any interleaving. When both loops have ended, they have ended in the same way and
after the same superstep, they have counted the same, and every worker has the same vertices. -/
theorem outcome_unaffected {config₁ config₂ : EngineConfig} {vertices : List (Vertex σ μ)}
    (workers : config₁.workerCount = config₂.workerCount)
    (limit : config₁.maxSupersteps = config₂.maxSupersteps)
    {now₁ now₂ : WorkerId → Timestamp} {clock₁ clock₂ : Timestamp}
    {phi₁ phi₂ : HeartbeatRecord → Timestamp → Rat} {evs₁ evs₂ : List (Event μ)}
    {s₁ s₂ : State σ μ}
    (run₁ : Run (Step compute phi₁) (State.start config₁ vertices now₁ clock₁) evs₁ s₁)
    (run₂ : Run (Step compute phi₂) (State.start config₂ vertices now₂ clock₂) evs₂ s₂)
    (finished₁ : s₁.coordinator.phase.finished = true)
    (finished₂ : s₂.coordinator.phase.finished = true) :
    s₁.coordinator.phase = s₂.coordinator.phase ∧
      s₁.coordinator.totalVerticesProcessed = s₂.coordinator.totalVerticesProcessed ∧
      ∀ i < config₁.workerCount, (s₁.coordinator.engine.workers i).vertices =
        (s₂.coordinator.engine.workers i).vertices := by
  obtain ⟨ls₁, projected₁, -⟩ := projects run₁
  obtain ⟨ls₂, projected₂, -⟩ := projects run₂
  exact Coordinator.outcome_unique workers limit projected₁ projected₂ finished₁ finished₂

/-- With the transport and the injected fault, and without them. -/
theorem outcome_unaffected_idle : ∃ s₁ s₂ : State Nat Message, s₁.loop = .left ∧
    s₁.coordinator.phase = s₂.coordinator.phase ∧
    s₁.coordinator.totalVerticesProcessed = s₂.coordinator.totalVerticesProcessed := by
  have start : ∀ config : EngineConfig, 0 < config.numaNodes → ∃ evs s,
      Run (Step idle noSuspicion)
        (State.start config [⟨0, .order, 0, false, [], [], 0⟩] (fun _ => 0) 0) evs s ∧
      s.loop = .left := by
    intro config nodes
    have run : Run (Step idle noSuspicion)
        (State.start config [⟨0, .order, 0, false, [], [], 0⟩] (fun _ => 0) 0) [] _ := .nil _
    obtain ⟨evs, s, rest, hleft⟩ := exists_left (fun _ => Int.le_refl 0) nodes run
    exact ⟨evs, s, rest, hleft⟩
  obtain ⟨evs₁, s₁, run₁, hleft₁⟩ := start faultConfig Nat.two_pos
  obtain ⟨evs₂, s₂, run₂, hleft₂⟩ := start { workerCount := 3, enableRdmaSim := false } Nat.two_pos
  obtain ⟨hphase, htotal, -⟩ := outcome_unaffected (by rfl) (by rfl) run₁ run₂
    ((rounds_of_run run₁).left.mp hleft₁) ((rounds_of_run run₂).left.mp hleft₂)
  exact ⟨s₁, s₂, hleft₁, hphase, htotal⟩

end Pregel.FaultInjection
