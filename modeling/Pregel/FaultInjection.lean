import Pregel.Coordinator
import Pregel.Heartbeat

/-!
`Coordinator::run` with its three threads (`coordinator.cpp`, `heartbeat.cpp`).

The loop of the coordinator sends the heartbeats of all workers itself, before each
superstep. A second thread sleeps for half a second and then sets back the time at which
worker 1 was last seen; a third one, the monitor, checks all records again and again.
All three lock the failure detector, the monitor for a whole round. `receive_heartbeat`
reads the clock before it locks. `Step` has one transition for each of these sections, and
the clock may go on at any time. `compute_phi` is a parameter: it is a function of the
record and the clock, in floating point.

The shutdown is left out: the monitor goes on after the loop, as it may until `stop` has
joined it.

* `Inv`, `inv_step`: no worker was seen later than now.
* `Waiting`, `waiting_step`: the record of worker 1 from the injection to the next check.
* `injected_fault_detected`: the next check reports worker 1 if and only if the injected
  time is still in its record, or the worker is overdue anyhow.
-/

namespace Pregel.FaultInjection

open Lts
open HeartbeatDetector (ms)

/-- `target` in `Coordinator::run`. -/
def target : WorkerId := 1

/-- Where the loop of `run` is: at its test, before the heartbeat of a worker, in
`receive_heartbeat` after the clock was read, and after the loop. -/
inductive LoopPc where
  | head
  | beating (w : WorkerId)
  | stamped (w : WorkerId) (now : Timestamp)
  | left
  deriving DecidableEq, Repr

/-- The detached thread that injects the failure, if there is one. -/
inductive InjectorPc where
  | absent
  | sleeping (wakes : Timestamp)
  | finished
  deriving DecidableEq, Repr

/-- The monitor sleeps, or holds the lock and has these workers to check. -/
inductive MonitorPc where
  | sleeping
  | checking (rest : List WorkerId)
  deriving DecidableEq, Repr

structure State (σ μ : Type) where
  coordinator : Coordinator σ μ
  hb : HeartbeatDetector
  clock : Timestamp
  loop : LoopPc := .head
  injector : InjectorPc
  monitor : MonitorPc := .sleeping

inductive Event (μ : Type) where
  | tick (now : Timestamp)
  | enter
  | leave
  | stamp (w : WorkerId)
  | beat (w : WorkerId) (now : Timestamp)
  | superstep (timing : WorkerId → WorkerId → Nat) (tr : List (WorkerId × WorkerNode.Event μ))
  | inject
  | wake (order : List WorkerId)
  | check (w : WorkerId) (now₁ now₂ : Timestamp) (fired : List Callback)
  | unlock

variable {σ μ : Type}

/-- The coordinator and its detector as the constructor leaves them, at the start of
`run`; `now i` is the clock at the construction of record `i`. -/
def State.start (config : EngineConfig) (vertices : List (Vertex σ μ))
    (now : WorkerId → Timestamp) (clock : Timestamp) : State σ μ where
  coordinator := { engine := GraphEngine.load config vertices }
  hb := (HeartbeatDetector.new 0 config.workerCount config.heartbeatIntervalMs
    config.failureTimeoutMs 8 now).onFailure
  clock := clock
  injector :=
    if config.enableFaultInjection ∧ config.workerCount > 2 then .sleeping (clock + ms 500)
    else .absent

/-- The failure callback, for every failure that a check reports. -/
def notify (c : Coordinator σ μ) (fired : List Callback) : Coordinator σ μ :=
  fired.foldl (fun c cb =>
    match cb with
    | .failure w => c.onFailure w
    | .recovery _ => c) c

section Steps

variable [Addressed μ] (compute : Compute σ μ) (computePhi : HeartbeatRecord → Timestamp → Rat)

/-- The sections of the three threads. -/
inductive Step : State σ μ → Event μ → State σ μ → Prop where
  | tick {s : State σ μ} {now : Timestamp} (monotone : s.clock ≤ now) :
      Step s (.tick now) { s with clock := now }
  | enter {s : State σ μ} {step : Superstep} (pc : s.loop = .head)
      (running : s.coordinator.phase = .running step)
      (more : step < s.coordinator.engine.config.maxSupersteps) :
      Step s .enter { s with loop := .beating 0 }
  | leave {s : State σ μ} {c : Coordinator σ μ} (pc : s.loop = .head)
      (exhausted : Coordinator.Step compute s.coordinator .exhausted c) :
      Step s .leave { s with coordinator := c, loop := .left }
  | stamp {s : State σ μ} {w : WorkerId} (pc : s.loop = .beating w)
      (more : w < s.coordinator.engine.config.workerCount) :
      Step s (.stamp w) { s with loop := .stamped w s.clock }
  | beat {s : State σ μ} {w : WorkerId} {now : Timestamp} (pc : s.loop = .stamped w now)
      (lock : s.monitor = .sleeping) :
      Step s (.beat w now)
        { s with
          hb := (s.hb.receiveHeartbeat w now).2
          loop := .beating (w + 1) }
  | superstep {s : State σ μ} {w : WorkerId} {timing : WorkerId → WorkerId → Nat}
      {tr : List (WorkerId × WorkerNode.Event μ)} {c : Coordinator σ μ} (pc : s.loop = .beating w)
      (nomore : ¬ w < s.coordinator.engine.config.workerCount)
      (superstep : Coordinator.Step compute s.coordinator (.superstep timing tr) c) :
      Step s (.superstep timing tr)
        { s with
          coordinator := c
          loop :=
            match c.phase with
            | .running _ => .head
            | _ => .left }
  | inject {s : State σ μ} {wakes : Timestamp} (pc : s.injector = .sleeping wakes)
      (awake : wakes ≤ s.clock) (lock : s.monitor = .sleeping) :
      Step s .inject { s with hb := s.hb.injectFailure target, injector := .finished }
  | wake {s : State σ μ} {order : List WorkerId} (pc : s.monitor = .sleeping)
      (all : order.Perm ((List.range s.hb.workerCount).filter fun w => w ≠ s.hb.localId)) :
      Step s (.wake order) { s with monitor := .checking order }
  | check {s : State σ μ} {w : WorkerId} {rest : List WorkerId} {rec : HeartbeatRecord}
      {now₁ now₂ : Timestamp} (pc : s.monitor = .checking (w :: rest))
      (record : s.hb.records w = some rec) (monotone₁ : s.clock ≤ now₁) (monotone₂ : now₁ ≤ now₂) :
      Step s (.check w now₁ now₂ (s.hb.check w (computePhi rec now₁) now₂).1)
        { s with
          coordinator := notify s.coordinator (s.hb.check w (computePhi rec now₁) now₂).1
          hb := (s.hb.check w (computePhi rec now₁) now₂).2
          clock := now₂
          monitor := .checking rest }
  | unlock {s : State σ μ} (pc : s.monitor = .checking []) :
      Step s .unlock { s with monitor := .sleeping }

end Steps

/-! ### The records and the clock -/

/-- No worker was seen, and no heartbeat stamped, later than now. -/
structure Inv (config : EngineConfig) (s : State σ μ) : Prop where
  seen : ∀ w rec, s.hb.records w = some rec → rec.lastSeen ≤ s.clock
  stamped : ∀ w now, s.loop = .stamped w now → now ≤ s.clock
  keyed : ∀ w rec, s.hb.records w = some rec → rec.workerId = w
  failureCb : s.hb.failureCb = true
  timeoutMs : s.hb.timeoutMs = config.failureTimeoutMs

theorem inv_start (config : EngineConfig) (vertices : List (Vertex σ μ))
    {now : WorkerId → Timestamp} {clock : Timestamp} (past : ∀ i, now i ≤ clock) :
    Inv config (State.start config vertices now clock) := by
  have hrecord : ∀ w rec, (State.start config vertices now clock).hb.records w = some rec →
      rec.lastSeen = now w ∧ rec.workerId = w := by
    intro w rec hrec
    simp only [State.start, HeartbeatDetector.onFailure, HeartbeatDetector.new] at hrec
    split at hrec
    · rw [← Option.some.inj hrec]
      exact ⟨rfl, rfl⟩
    · cases hrec
  constructor
  case seen =>
    intro w rec hrec
    rw [(hrecord w rec hrec).1]
    exact past w
  case stamped =>
    intro w now hpc
    simp [State.start] at hpc
  case keyed => exact fun w rec hrec => (hrecord w rec hrec).2
  case failureCb => rfl
  case timeoutMs => rfl

/-- A call of the detector: where the records of all workers come from. -/
theorem Inv.call {config : EngineConfig} {s : State σ μ} (inv : Inv config s)
    (c : HeartbeatDetector.Call) {clock : Timestamp} (later : s.clock ≤ clock)
    (past : ∀ w now, c = .receive w now → now ≤ clock) :
    (∀ w rec, (s.hb.call c).2.records w = some rec → rec.lastSeen ≤ clock) ∧
      (∀ w rec, (s.hb.call c).2.records w = some rec → rec.workerId = w) ∧
      (s.hb.call c).2.failureCb = true ∧
      (s.hb.call c).2.timeoutMs = config.failureTimeoutMs := by
  obtain ⟨hfailure, -, hother, -, hkeyed, -⟩ := HeartbeatDetector.call_frame inv.keyed c
  refine ⟨fun w rec hrec => ?_, hkeyed, hfailure.trans inv.failureCb,
    (HeartbeatDetector.call_settings c).1.trans inv.timeoutMs⟩
  rcases eq_or_ne w c.worker with hw | hne
  · cases hold : s.hb.records w with
    | none =>
        -- a call about a worker without a record does nothing
        cases c <;> simp_all [HeartbeatDetector.call, HeartbeatDetector.receiveHeartbeat,
          HeartbeatDetector.injectFailure, HeartbeatDetector.check, HeartbeatDetector.Call.worker]
    | some old =>
        have hold' := (inv.seen w old hold).trans later
        cases c with
        | receive k now =>
            obtain rfl : w = k := hw
            simp only [HeartbeatDetector.call, HeartbeatDetector.receiveHeartbeat, hold,
              HeartbeatDetector.setRecord, Function.update_self, Option.some.injEq] at hrec
            rw [← hrec]
            exact past w now rfl
        | inject k =>
            obtain rfl : w = k := hw
            simp only [HeartbeatDetector.call, HeartbeatDetector.injectFailure, hold,
              HeartbeatDetector.setRecord, Function.update_self, Option.some.injEq] at hrec
            rw [← hrec]
            have hnonneg : 0 ≤ ms (s.hb.timeoutMs * 10 % 2 ^ 32) := by
              unfold ms
              omega
            exact (Int.sub_le_self _ hnonneg).trans hold'
        | check k phi now =>
            obtain rfl : w = k := hw
            simp only [HeartbeatDetector.call, HeartbeatDetector.check_of_record hold,
              HeartbeatDetector.setRecord, Function.update_self, Option.some.injEq] at hrec
            rw [← hrec, HeartbeatDetector.lastSeen_checkWorker]
            exact hold'
  · rw [hother w hne] at hrec
    exact (inv.seen w rec hrec).trans later

section Runs

variable [Addressed μ] {compute : Compute σ μ} {computePhi : HeartbeatRecord → Timestamp → Rat}
  {config : EngineConfig} {s t : State σ μ} {ev : Event μ}

theorem inv_step (inv : Inv config s) (step : Step compute computePhi s ev t) : Inv config t := by
  cases step with
  | tick monotone =>
      exact ⟨fun w rec hrec => (inv.seen w rec hrec).trans monotone,
        fun w now hpc => (inv.stamped w now hpc).trans monotone, inv.keyed, inv.failureCb,
        inv.timeoutMs⟩
  | enter => exact ⟨inv.seen, by simp, inv.keyed, inv.failureCb, inv.timeoutMs⟩
  | leave => exact ⟨inv.seen, by simp, inv.keyed, inv.failureCb, inv.timeoutMs⟩
  | stamp =>
      refine ⟨inv.seen, fun w now hpc => ?_, inv.keyed, inv.failureCb, inv.timeoutMs⟩
      cases hpc
      exact Int.le_refl _
  | beat pc lock =>
      obtain ⟨hseen, hkeyed, hfailure, htimeout⟩ := inv.call (.receive _ _) (Int.le_refl _)
        (fun w now heq => by cases heq; exact inv.stamped _ _ pc)
      exact ⟨hseen, by simp, hkeyed, hfailure, htimeout⟩
  | superstep pc nomore superstep =>
      refine ⟨inv.seen, fun w now hpc => ?_, inv.keyed, inv.failureCb, inv.timeoutMs⟩
      simp only at hpc
      split at hpc <;> cases hpc
  | inject pc awake lock =>
      obtain ⟨hseen, hkeyed, hfailure, htimeout⟩ := inv.call (.inject target) (Int.le_refl _)
        (fun w now heq => by cases heq)
      exact ⟨hseen, inv.stamped, hkeyed, hfailure, htimeout⟩
  | wake => exact ⟨inv.seen, inv.stamped, inv.keyed, inv.failureCb, inv.timeoutMs⟩
  | check pc record monotone₁ monotone₂ =>
      have later := monotone₁.trans monotone₂
      obtain ⟨hseen, hkeyed, hfailure, htimeout⟩ := inv.call (.check _ _ _) later
        (fun w now heq => by cases heq)
      exact ⟨hseen, fun w now hpc => (inv.stamped w now hpc).trans later, hkeyed, hfailure, htimeout⟩
  | unlock => exact ⟨inv.seen, inv.stamped, inv.keyed, inv.failureCb, inv.timeoutMs⟩

theorem clock_step (step : Step compute computePhi s ev t) : s.clock ≤ t.clock := by
  cases step with
  | tick monotone => exact monotone
  | check pc record monotone₁ monotone₂ => exact monotone₁.trans monotone₂
  | _ => exact Int.le_refl _

/-! ### From the injection to the next check -/

/-- Worker 1 sends no heartbeat. -/
def Silent (ls : List (Event μ)) : Prop := ∀ now, Event.beat target now ∉ ls

/-- Worker 1 is not checked. -/
def Unchecked (ls : List (Event μ)) : Prop :=
  ∀ now₁ now₂ fired, Event.check target now₁ now₂ fired ∉ ls

/-- The test of `check_worker`, on the record of worker 1 before the check. -/
def Overdue (computePhi : HeartbeatRecord → Timestamp → Rat) (s : State σ μ)
    (now₁ now₂ : Timestamp) : Prop :=
  ∃ rec, s.hb.records target = some rec ∧
    (computePhi rec now₁ ≥ s.hb.phiThreshold ∨ now₂ - rec.lastSeen > ms s.hb.timeoutMs)

/-- The check marks worker 1 FAILED, and the coordinator hears of it. -/
def Detected (s t : State σ μ) (fired : List Callback) : Prop :=
  t.hb.stateOf target = .failed ∧ fired = [.failure target] ∧
    t.coordinator = s.coordinator.onFailure target

/-- The record of worker 1 is touched by its heartbeats, by the injection and by its
checks only. -/
theorem record_step (inv : Inv config s) (step : Step compute computePhi s ev t)
    (beat : ∀ now, ev ≠ .beat target now) (inject : ev ≠ .inject)
    (check : ∀ now₁ now₂ fired, ev ≠ .check target now₁ now₂ fired) :
    t.hb.records target = s.hb.records target := by
  have hcall : ∀ c : HeartbeatDetector.Call, c.worker ≠ target →
      (s.hb.call c).2.records target = s.hb.records target := fun c hne =>
    (HeartbeatDetector.call_frame inv.keyed c).2.2.1 target hne.symm
  cases step with
  | @beat w now pc lock =>
      apply hcall (.receive w now)
      rintro rfl
      exact beat now rfl
  | inject => exact absurd rfl inject
  | @check w rest rec now₁ now₂ pc record monotone₁ monotone₂ =>
      apply hcall (.check w (computePhi rec now₁) now₂)
      rintro rfl
      exact check _ _ _ rfl
  | _ => rfl

/-- A heartbeat of worker 1 makes it ALIVE. -/
theorem beat_alive {now : Timestamp} (step : Step compute computePhi s (.beat target now) t) :
    t.hb.stateOf target = .alive := by
  cases step with
  | beat pc lock =>
      cases hrec : s.hb.records target with
      | none => simp [HeartbeatDetector.receiveHeartbeat, HeartbeatDetector.stateOf, hrec]
      | some rec =>
          simp [HeartbeatDetector.receiveHeartbeat, HeartbeatDetector.stateOf, hrec,
            HeartbeatDetector.setRecord, HeartbeatRecord.beat]

/-- Worker 1 since the injection in state `s₁`: nothing has touched its record, or it is
ALIVE again. -/
structure Waiting (config : EngineConfig) (s₁ : State σ μ) (ls : List (Event μ)) (s : State σ μ) :
    Prop where
  inv : Inv config s
  clock : s₁.clock ≤ s.clock
  injector : s.injector = .finished
  silent : Silent ls → s.hb.records target = (s₁.hb.injectFailure target).records target
  beaten : ¬ Silent ls → s.hb.stateOf target = .alive

theorem waiting_step {s₁ : State σ μ} {ls : List (Event μ)} (h : Waiting config s₁ ls s)
    (step : Step compute computePhi s ev t)
    (unchecked : ∀ now₁ now₂ fired, ev ≠ .check target now₁ now₂ fired) :
    Waiting config s₁ (ls ++ [ev]) t := by
  have inject : ev ≠ .inject := by
    rintro rfl
    cases step with
    | inject pc awake lock => simp [h.injector] at pc
  have hinjector : t.injector = .finished := by
    cases step with
    | inject => exact absurd rfl inject
    | _ => exact h.injector
  refine ⟨inv_step h.inv step, h.clock.trans (clock_step step), hinjector, ?_, ?_⟩
  · intro hsilent
    have hls : Silent ls := fun now hmem => hsilent now (List.mem_append_left _ hmem)
    have hev : ∀ now, ev ≠ .beat target now := by
      rintro now rfl
      exact hsilent now (by simp)
    rw [record_step h.inv step hev inject unchecked]
    exact h.silent hls
  · intro hnot
    by_cases hev : ∃ now, ev = .beat target now
    · obtain ⟨now, rfl⟩ := hev
      exact beat_alive step
    · push Not at hev
      have hls : ¬ Silent ls := by
        intro hls
        apply hnot
        intro now hmem
        rcases List.mem_append.mp hmem with hmem | hmem
        · exact hls now hmem
        · exact hev now (List.mem_singleton.mp hmem).symm
      have hrec := record_step h.inv step hev inject unchecked
      have hsame : t.hb.stateOf target = s.hb.stateOf target := by
        simp only [HeartbeatDetector.stateOf, hrec]
      exact hsame.trans (h.beaten hls)

theorem waiting_run {s₁ s₂ s₃ : State σ μ} {ls : List (Event μ)} (inv : Inv config s₁)
    (inject : Step compute computePhi s₁ .inject s₂)
    (run : Run (Step compute computePhi) s₂ ls s₃) (unchecked : Unchecked ls) :
    Waiting config s₁ ls s₃ := by
  have start : Waiting config s₁ [] s₂ := by
    have hinv := inv_step inv inject
    have hclock := clock_step inject
    cases inject with
    | inject => exact ⟨hinv, hclock, rfl, fun _ => rfl, fun h => absurd (by simp [Silent]) h⟩
  have hrun := run.invariant_history (fun ls s => Unchecked ls → Waiting config s₁ ls s)
    (fun ls s ev t h step hunchecked => waiting_step
      (h fun now₁ now₂ fired hmem => hunchecked now₁ now₂ fired (List.mem_append_left _ hmem)) step
      (by
        rintro now₁ now₂ fired rfl
        exact hunchecked now₁ now₂ fired (by simp))) (fun _ => start)
  exact hrun unchecked

omit [Addressed μ] in
/-- The injected time is overdue: it lies ten timeouts back, and the product does not
wrap. -/
theorem overdue_of_silent {s₁ s₃ : State σ μ} {ls : List (Event μ)} (inv : Inv config s₁)
    (positive : 1 ≤ config.failureTimeoutMs) (bounded : config.failureTimeoutMs ≤ 2 ^ 32 / 10)
    (h : Waiting config s₁ ls s₃) (silent : Silent ls) {rec : HeartbeatRecord}
    (hrec : s₃.hb.records target = some rec) {now : Timestamp} (later : s₃.clock ≤ now) :
    now - rec.lastSeen > ms s₃.hb.timeoutMs ∧
      ∃ old, s₁.hb.records target = some old ∧ rec.state = old.state := by
  rw [h.silent silent] at hrec
  cases hold : s₁.hb.records target with
  | none => simp [HeartbeatDetector.injectFailure, hold] at hrec
  | some old =>
      simp only [HeartbeatDetector.injectFailure, hold, HeartbeatDetector.setRecord,
        Function.update_self, Option.some.injEq] at hrec
      have hseen : old.lastSeen ≤ now :=
        (inv.seen target old hold).trans (h.clock.trans later)
      have hwrap : config.failureTimeoutMs * 10 % 2 ^ 32 = config.failureTimeoutMs * 10 :=
        Nat.mod_eq_of_lt (by omega)
      have harith : ∀ (k : Nat) (seen n : Int), 1 ≤ k → seen ≤ n →
          n - (seen - ms (k * 10)) > ms k := by
        intro k seen n hk hle
        simp only [ms]
        push_cast
        omega
      refine ⟨?_, old, rfl, by rw [← hrec]⟩
      rw [← hrec, h.inv.timeoutMs, inv.timeoutMs, hwrap]
      exact harith _ _ _ positive hseen

/-- One check of worker 1. -/
theorem detected_iff {now₁ now₂ : Timestamp} {fired : List Callback} (inv : Inv config s)
    (step : Step compute computePhi s (.check target now₁ now₂ fired) t) :
    ∃ rec, s.hb.records target = some rec ∧ s.clock ≤ now₂ ∧
      (Detected s t fired ↔ rec.state ≠ .failed ∧
        (computePhi rec now₁ ≥ s.hb.phiThreshold ∨ now₂ - rec.lastSeen > ms s.hb.timeoutMs)) := by
  cases step with
  | @check _ rest rec _ _ pc record monotone₁ monotone₂ =>
      refine ⟨rec, record, monotone₁.trans monotone₂, ?_⟩
      rw [← HeartbeatDetector.check_fires_iff record (inv.keyed _ _ record) inv.failureCb]
      constructor
      · rintro ⟨hstate, hfired, -⟩
        exact ⟨hstate, hfired⟩
      · rintro ⟨hstate, hfired⟩
        refine ⟨hstate, hfired, ?_⟩
        rw [hfired]
        rfl

/-- **When an injected fault is detected.** Take any run up to the injection, any steps of
the three threads after it, and the first check of worker 1. The check marks the worker
FAILED and fires the callback if and only if one of two things holds. If no heartbeat of
the worker was received since the injection: the worker was not FAILED already. If one
was received: the worker is suspected or overdue by its new record. -/
theorem injected_fault_detected {vertices : List (Vertex σ μ)} {now : WorkerId → Timestamp}
    {clock : Timestamp} (past : ∀ i, now i ≤ clock) (positive : 1 ≤ config.failureTimeoutMs)
    (bounded : config.failureTimeoutMs ≤ 2 ^ 32 / 10) {s₁ s₂ s₃ s₄ : State σ μ}
    {ls₁ ls : List (Event μ)} {now₁ now₂ : Timestamp} {fired : List Callback}
    (before : Run (Step compute computePhi) (State.start config vertices now clock) ls₁ s₁)
    (inject : Step compute computePhi s₁ .inject s₂)
    (after : Run (Step compute computePhi) s₂ ls s₃) (first : Unchecked ls)
    (check : Step compute computePhi s₃ (.check target now₁ now₂ fired) s₄) :
    Detected s₃ s₄ fired ↔
      (Silent ls → s₁.hb.stateOf target ≠ .failed) ∧
        (¬ Silent ls → Overdue computePhi s₃ now₁ now₂) := by
  have inv : Inv config s₁ := before.invariant (Inv config) (fun _ _ _ => inv_step)
    (inv_start config vertices past)
  have waiting := waiting_run inv inject after first
  obtain ⟨rec, record, later, hdetected⟩ := detected_iff waiting.inv check
  rw [hdetected]
  by_cases silent : Silent ls
  · obtain ⟨hover, old, hold, hstate⟩ := overdue_of_silent inv positive bounded waiting silent
      record later
    have hbefore : s₁.hb.stateOf target = rec.state := by
      simp [HeartbeatDetector.stateOf, hold, hstate]
    rw [hbefore]
    exact ⟨fun h => ⟨fun _ => h.1, fun h' => absurd silent h'⟩,
      fun h => ⟨h.1 silent, Or.inr hover⟩⟩
  · have halive : rec.state = .alive := by
      simpa [HeartbeatDetector.stateOf, record] using waiting.beaten silent
    refine ⟨fun h => ⟨fun h' => absurd h' silent, fun _ => ⟨rec, record, h.2⟩⟩, fun h => ?_⟩
    obtain ⟨rec', record', hover⟩ := h.2 silent
    obtain rfl : rec = rec' := Option.some.inj (record.symm.trans record')
    exact ⟨by simp [halive], hover⟩

end Runs

/-! ### Three workers and one vertex that never halts -/

def faultConfig : EngineConfig := { workerCount := 3, enableFaultInjection := true }

/-- A program that does nothing. -/
def idle : Compute Nat Message := fun v _ _ => v

/-- Nobody is suspected, as right after a heartbeat. -/
def noSuspicion : HeartbeatRecord → Timestamp → Rat := fun _ _ => 0

def faultStart : State Nat Message :=
  .start faultConfig [⟨0, .order, 0, false, [], [], 0⟩] (fun _ => 0) 0

/-- The fault is injected after half a second, and the monitor looks next. -/
theorem injected_fault_detected_next : ∃ (s₁ s₂ s₃ s₄ : State Nat Message) (fired : List Callback),
    Run (Step idle noSuspicion) faultStart [.tick (ms 500)] s₁ ∧
      Step idle noSuspicion s₁ .inject s₂ ∧
      Run (Step idle noSuspicion) s₂ [.wake [1, 2]] s₃ ∧
      Step idle noSuspicion s₃ (.check target (ms 501) (ms 502) fired) s₄ ∧
      Detected s₃ s₄ fired := by
  have run : ∃ s₁ s₂ s₃ s₄ fired, Run (Step idle noSuspicion) faultStart [.tick (ms 500)] s₁ ∧
      Step idle noSuspicion s₁ .inject s₂ ∧
      Run (Step idle noSuspicion) s₂ [.wake [1, 2]] s₃ ∧
      Step idle noSuspicion s₃ (.check target (ms 501) (ms 502) fired) s₄ ∧
      s₁.hb.stateOf target = .alive :=
    ⟨_, _, _, _, _, .one (.tick (by decide)), .inject rfl (by decide) rfl,
      .one (.wake rfl (by decide)), .check rfl rfl (by decide) (by decide), rfl⟩
  obtain ⟨s₁, s₂, s₃, s₄, fired, before, inject, after, check, halive⟩ := run
  refine ⟨s₁, s₂, s₃, s₄, fired, before, inject, after, check, ?_⟩
  have hiff := injected_fault_detected (fun _ => Int.le_refl _) (by decide) (by decide) before inject
    after (by simp [Unchecked]) check
  exact hiff.mpr ⟨fun _ => by simp [halive], fun h => absurd (by simp [Silent]) h⟩

/-- The fault is injected between two supersteps. The heartbeats of the second one come
before the monitor, which finds worker 1 alive. -/
theorem injected_fault_overwritten : ∃ (ls₁ : List (Event Message)) (s₁ s₂ s₃ s₄ : State Nat Message),
    Run (Step idle noSuspicion) faultStart ls₁ s₁ ∧
      s₁.coordinator.phase = .running 1 ∧
      Step idle noSuspicion s₁ .inject s₂ ∧
      Run (Step idle noSuspicion) s₂
        [.enter, .stamp 0, .beat 0 (ms 500), .stamp 1, .beat 1 (ms 500), .wake [1, 2]] s₃ ∧
      Step idle noSuspicion s₃ (.check target (ms 501) (ms 502) []) s₄ ∧
      s₄.hb.stateOf target = .alive ∧ ¬ Detected s₃ s₄ [] := by
  obtain ⟨tr, superstep⟩ := GraphEngine.exists_superstepRun idle 0 (fun _ _ => 0)
    (e := faultStart.coordinator.engine) (by decide)
  have run : ∃ ls₁ s₁ s₂ s₃ s₄ fired, Run (Step idle noSuspicion) faultStart ls₁ s₁ ∧
      s₁.coordinator.phase = .running 1 ∧
      Step idle noSuspicion s₁ .inject s₂ ∧
      Run (Step idle noSuspicion) s₂
        [.enter, .stamp 0, .beat 0 (ms 500), .stamp 1, .beat 1 (ms 500), .wake [1, 2]] s₃ ∧
      Step idle noSuspicion s₃ (.check target (ms 501) (ms 502) fired) s₄ ∧
      fired = [] ∧ s₄.hb.stateOf target = .alive :=
    ⟨_, _, _, _, _, _,
      .cons (.enter rfl rfl (by decide)) <| .cons (.stamp rfl (by decide)) <|
      .cons (.beat rfl rfl) <| .cons (.stamp rfl (by decide)) <| .cons (.beat rfl rfl) <|
      .cons (.stamp rfl (by decide)) <| .cons (.beat rfl rfl) <|
      .cons (.superstep rfl (by decide) (.superstep rfl (by decide) superstep)) <|
      .one (show Step idle noSuspicion _ (.tick (ms 500)) _ from .tick (by decide)),
      by decide +kernel, .inject rfl (by decide) rfl,
      .cons (.enter (by decide +kernel)
        (show _ = Coordinator.Phase.running 1 by decide +kernel) (by decide)) <|
      .cons (.stamp rfl (by decide)) <| .cons (.beat rfl rfl) <| .cons (.stamp rfl (by decide)) <|
      .cons (.beat rfl rfl) <| .one (.wake rfl (by decide)),
      .check rfl rfl (by decide) (by decide), by decide +kernel, by decide +kernel⟩
  obtain ⟨ls₁, s₁, s₂, s₃, s₄, fired, before, hphase, inject, after, check, rfl, halive⟩ := run
  refine ⟨ls₁, s₁, s₂, s₃, s₄, before, hphase, inject, after, check, halive, ?_⟩
  rintro ⟨-, hfired, -⟩
  cases hfired

end Pregel.FaultInjection
