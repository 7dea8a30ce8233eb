import Mathlib.Algebra.Order.Field.Rat
import Pregel.Lib.Lts
import Pregel.Types

/-!
The failure detector (`heartbeat.hpp`, `heartbeat.cpp`).

Time points and durations are integers, in nanoseconds, the resolution of the
source's clock. A suspicion level is a floating-point number that the code only
compares with the threshold and with half of it; it is a rational number here, and a
check takes it as an argument. `receive_heartbeat` does not use the time at which the
heartbeat was sent.

Each of the three operations locks the detector, so that calls from any number of
threads are a sequence of calls. `Step` has one transition for each call, labelled with
the callbacks that it makes.

* `checkWorker_cases`: what a check does to a record.
* `step_cases`, `fails_iff`: what one call does to the state of a worker.
* `run_failed_iff`: a worker is FAILED if and only if a failure callback was its last
  word.
* `callbacks_alternate`: failure callbacks and heartbeats of a worker.
-/

namespace Pregel

open Lts

abbrev Timestamp := Int

inductive NodeState where
  | alive
  | suspected
  | failed
  | recovered
  deriving DecidableEq, Repr

structure HeartbeatRecord where
  workerId : WorkerId
  lastSeen : Timestamp
  state : NodeState := .alive
  phi : Rat := 0
  beatCount : UInt64 := 0
  intervals : List Int
  deriving DecidableEq, Repr

/-- A call of `failure_cb_` or of `recovery_cb_`. -/
inductive Callback where
  | failure (failed : WorkerId)
  | recovery (recovered : WorkerId)
  deriving DecidableEq, Repr

/-- `HeartbeatDetector`. Of the two callbacks it matters here only whether they are
registered. -/
structure HeartbeatDetector where
  localId : WorkerId
  workerCount : Nat
  intervalMs : Nat
  timeoutMs : Nat
  phiThreshold : Rat
  records : WorkerId → Option HeartbeatRecord
  failureCb : Bool := false
  recoveryCb : Bool := false

namespace HeartbeatRecord

/-- `HeartbeatRecord::WINDOW`. -/
def window : Nat := 16

/-- The window of intervals after one more interval. -/
def pushInterval (intervals : List Int) (interval : Int) : List Int :=
  let intervals := intervals ++ [interval]
  if intervals.length > window then intervals.drop 1 else intervals

/-- What `receive_heartbeat` makes of a record. -/
def beat (rec : HeartbeatRecord) (now : Timestamp) : HeartbeatRecord :=
  { rec with
    intervals :=
      if rec.beatCount > 0 then pushInterval rec.intervals (now - rec.lastSeen) else rec.intervals
    lastSeen := now
    beatCount := rec.beatCount + 1
    state := .alive
    phi := 0 }

end HeartbeatRecord

namespace HeartbeatDetector

/-- A millisecond of the clock. -/
def ms (n : Nat) : Int := n * 1000000

/-- `HeartbeatDetector::HeartbeatDetector`; `now i` is the clock at round `i` of its
loop. -/
def new (localId : WorkerId) (workerCount intervalMs timeoutMs : Nat) (phiThreshold : Rat)
    (now : WorkerId → Timestamp) : HeartbeatDetector where
  localId := localId
  workerCount := workerCount
  intervalMs := intervalMs
  timeoutMs := timeoutMs
  phiThreshold := phiThreshold
  records := fun i =>
    if i < workerCount ∧ i ≠ localId then
      some { workerId := i, lastSeen := now i, intervals := List.replicate 8 (ms intervalMs) }
    else none

/-- `HeartbeatDetector::on_failure`. -/
def onFailure (d : HeartbeatDetector) : HeartbeatDetector := { d with failureCb := true }

/-- `HeartbeatDetector::on_recovery`. -/
def onRecovery (d : HeartbeatDetector) : HeartbeatDetector := { d with recoveryCb := true }

/-- `HeartbeatDetector::state_of`. -/
def stateOf (d : HeartbeatDetector) (w : WorkerId) : NodeState :=
  match d.records w with
  | none => .alive
  | some rec => rec.state

/-- `HeartbeatDetector::failed_workers`. -/
def failedWorkers (d : HeartbeatDetector) : List WorkerId :=
  (List.range d.workerCount).filter fun w => d.stateOf w = .failed

/-- The record of `w` is replaced. -/
def setRecord (d : HeartbeatDetector) (w : WorkerId) (rec : HeartbeatRecord) :
    HeartbeatDetector :=
  { d with records := Function.update d.records w (some rec) }

/-- `HeartbeatDetector::receive_heartbeat`, from the lock on. -/
def receiveHeartbeat (d : HeartbeatDetector) (w : WorkerId) (now : Timestamp) :
    List Callback × HeartbeatDetector :=
  match d.records w with
  | none => ([], d)
  | some rec =>
      (if (rec.state = .failed ∨ rec.state = .suspected) ∧ d.recoveryCb then [.recovery w] else [],
        d.setRecord w (rec.beat now))

/-- `HeartbeatDetector::inject_failure`. The product is a 32-bit unsigned one. -/
def injectFailure (d : HeartbeatDetector) (w : WorkerId) : HeartbeatDetector :=
  match d.records w with
  | none => d
  | some rec =>
      d.setRecord w { rec with lastSeen := rec.lastSeen - ms (d.timeoutMs * 10 % 2 ^ 32) }

/-- `HeartbeatDetector::check_worker`, with the suspicion level that `compute_phi`
returns and the clock at the second reading. -/
def checkWorker (d : HeartbeatDetector) (rec : HeartbeatRecord) (phi : Rat) (now : Timestamp) :
    List Callback × HeartbeatRecord :=
  if rec.state = .failed then ([], rec)
  else if phi ≥ d.phiThreshold ∨ now - rec.lastSeen > ms d.timeoutMs then
    (if d.failureCb then [.failure rec.workerId] else [], { rec with phi := phi, state := .failed })
  else if phi ≥ d.phiThreshold / 2 then ([], { rec with phi := phi, state := .suspected })
  else ([], { rec with phi := phi, state := .alive })

/-- The round of `monitor_loop` for worker `w`. -/
def check (d : HeartbeatDetector) (w : WorkerId) (phi : Rat) (now : Timestamp) :
    List Callback × HeartbeatDetector :=
  match d.records w with
  | none => ([], d)
  | some rec =>
      let (fired, rec') := d.checkWorker rec phi now
      (fired, d.setRecord w rec')

/-! ### Calls from any number of threads -/

inductive Call where
  | receive (w : WorkerId) (now : Timestamp)
  | inject (w : WorkerId)
  | check (w : WorkerId) (phi : Rat) (now : Timestamp)

/-- A call with the callbacks it makes. -/
abbrev Event := Call × List Callback

def call (d : HeartbeatDetector) : Call → List Callback × HeartbeatDetector
  | .receive w now => d.receiveHeartbeat w now
  | .inject w => ([], d.injectFailure w)
  | .check w phi now => d.check w phi now

def Step (d : HeartbeatDetector) (ev : Event) (d' : HeartbeatDetector) : Prop :=
  d.call ev.1 = (ev.2, d')

theorem step_call {d : HeartbeatDetector} {c : Call} {fired : List Callback}
    (h : (d.call c).1 = fired) : Step d (c, fired) (d.call c).2 := by
  rw [Step, ← h]

/-- The event reports worker `w` failed. -/
def Fails (w : WorkerId) (ev : Event) : Prop := Callback.failure w ∈ ev.2

/-- The event is a heartbeat of worker `w`. -/
def Beats (w : WorkerId) (ev : Event) : Prop := ∃ now, ev.1 = .receive w now

/-- A failure of `w` was reported, and no heartbeat of it was received since. -/
def FailedSince (w : WorkerId) (evs : List Event) : Prop :=
  ∃ before ev after, evs = before ++ ev :: after ∧ Fails w ev ∧ ∀ x ∈ after, ¬ Beats w x

/-- Worker `w` has a record, every record is under the id of its worker, and both
callbacks are registered. -/
structure Registered (w : WorkerId) (d : HeartbeatDetector) : Prop where
  failureCb : d.failureCb = true
  recoveryCb : d.recoveryCb = true
  record : (d.records w).isSome
  keyed : ∀ k rec, d.records k = some rec → rec.workerId = k

/-- The worker that a call is about. -/
def Call.worker : Call → WorkerId
  | .receive w _ => w
  | .inject w => w
  | .check w _ _ => w

section Steps

variable {d d' : HeartbeatDetector} {ev : Event} {w : WorkerId}

/-- **What a check does to a record**: nothing to a FAILED one; one that is suspected or overdue
fails with a callback; any other one does not. -/
theorem checkWorker_cases (d : HeartbeatDetector) (rec : HeartbeatRecord) (phi : Rat)
    (now : Timestamp) :
    (rec.state = .failed ∧ d.checkWorker rec phi now = ([], rec)) ∨
      (rec.state ≠ .failed ∧ (phi ≥ d.phiThreshold ∨ now - rec.lastSeen > ms d.timeoutMs) ∧
        d.checkWorker rec phi now = (if d.failureCb then [.failure rec.workerId] else [],
          { rec with phi := phi, state := .failed })) ∨
      (rec.state ≠ .failed ∧ ¬ (phi ≥ d.phiThreshold ∨ now - rec.lastSeen > ms d.timeoutMs) ∧
        ∃ state, state ≠ .failed ∧
          d.checkWorker rec phi now = ([], { rec with phi := phi, state := state })) := by
  unfold checkWorker
  by_cases hfailed : rec.state = .failed
  · exact Or.inl ⟨hfailed, if_pos hfailed⟩
  · rw [if_neg hfailed]
    by_cases hover : phi ≥ d.phiThreshold ∨ now - rec.lastSeen > ms d.timeoutMs
    · exact Or.inr (Or.inl ⟨hfailed, hover, if_pos hover⟩)
    · rw [if_neg hover]
      refine Or.inr (Or.inr ⟨hfailed, hover, ?_⟩)
      split
      · exact ⟨.suspected, by simp, rfl⟩
      · exact ⟨.alive, by simp, rfl⟩

/-- What a check leaves alone. -/
theorem checkWorker_frame (d : HeartbeatDetector) (rec : HeartbeatRecord) (phi : Rat)
    (now : Timestamp) :
    (d.checkWorker rec phi now).2.workerId = rec.workerId ∧
      (d.checkWorker rec phi now).2.lastSeen = rec.lastSeen ∧
      (d.checkWorker rec phi now).2.intervals = rec.intervals ∧
      (d.checkWorker rec phi now).2.beatCount = rec.beatCount := by
  obtain ⟨-, h⟩ | ⟨-, -, h⟩ | ⟨-, -, state, -, h⟩ := d.checkWorker_cases rec phi now
  · rw [h]
    exact ⟨rfl, rfl, rfl, rfl⟩
  · rw [h]
    exact ⟨rfl, rfl, rfl, rfl⟩
  · rw [h]
    exact ⟨rfl, rfl, rfl, rfl⟩

@[simp] theorem workerId_checkWorker (rec : HeartbeatRecord) (phi : Rat) (now : Timestamp) :
    (d.checkWorker rec phi now).2.workerId = rec.workerId :=
  (d.checkWorker_frame rec phi now).1

theorem check_of_record {rec : HeartbeatRecord} (hrec : d.records w = some rec) (phi : Rat)
    (now : Timestamp) : d.check w phi now =
      ((d.checkWorker rec phi now).1, d.setRecord w (d.checkWorker rec phi now).2) := by
  rw [check, hrec]

@[simp] theorem lastSeen_checkWorker (rec : HeartbeatRecord) (phi : Rat) (now : Timestamp) :
    (d.checkWorker rec phi now).2.lastSeen = rec.lastSeen :=
  (d.checkWorker_frame rec phi now).2.1

/-- A check calls back for the worker of the record only. -/
theorem fired_checkWorker {rec : HeartbeatRecord} {phi : Rat} {now : Timestamp} {cb : Callback}
    (hcb : cb ∈ (d.checkWorker rec phi now).1) : cb = .failure rec.workerId := by
  obtain ⟨-, h⟩ | ⟨-, -, h⟩ | ⟨-, -, state, -, h⟩ := d.checkWorker_cases rec phi now
  · rw [h] at hcb
    cases hcb
  · rw [h] at hcb
    dsimp only at hcb
    split at hcb
    · exact List.mem_singleton.mp hcb
    · cases hcb
  · rw [h] at hcb
    cases hcb

/-- A check reports a worker if and only if it is not FAILED yet and is suspected or
overdue. -/
theorem check_fires_iff {rec : HeartbeatRecord} (hrec : d.records w = some rec)
    (hid : rec.workerId = w) (registered : d.failureCb = true) (phi : Rat) (now : Timestamp) :
    (d.check w phi now).2.stateOf w = .failed ∧ (d.check w phi now).1 = [.failure w] ↔
      rec.state ≠ .failed ∧ (phi ≥ d.phiThreshold ∨ now - rec.lastSeen > ms d.timeoutMs) := by
  have hstate : (d.check w phi now).2.stateOf w = (d.checkWorker rec phi now).2.state := by
    simp [check_of_record hrec, stateOf, setRecord]
  rw [hstate, check_of_record hrec]
  obtain ⟨hfailed, h⟩ | ⟨hfailed, hover, h⟩ | ⟨hfailed, hover, state, hstate, h⟩ :=
    d.checkWorker_cases rec phi now
  · simp [h, hfailed]
  · simp only [h, registered, hid, if_true, and_self, true_iff]
    exact ⟨hfailed, hover⟩
  · rw [h]
    exact iff_of_false (fun hfires => hstate hfires.1) fun hboth => hover hboth.2

/-- A call adds no record. -/
theorem call_records (c : Call) : (d.call c).2.workerCount = d.workerCount ∧
    ∀ k, d.records k = none → (d.call c).2.records k = none := by
  have hset : ∀ k rec, d.records k = some rec → ∀ rec', (d.setRecord k rec').workerCount =
      d.workerCount ∧ ∀ j, d.records j = none → (d.setRecord k rec').records j = none := by
    intro k rec hrec rec'
    refine ⟨rfl, fun j hj => ?_⟩
    have hne : j ≠ k := by
      rintro rfl
      rw [hrec] at hj
      cases hj
    simp [setRecord, hne, hj]
  cases c with
  | receive k now =>
      cases hrec : d.records k with
      | none => simp [call, receiveHeartbeat, hrec]
      | some rec => simpa [call, receiveHeartbeat, hrec] using hset k rec hrec _
  | inject k =>
      cases hrec : d.records k with
      | none => simp [call, injectFailure, hrec]
      | some rec => simpa [call, injectFailure, hrec] using hset k rec hrec _
  | check k phi now =>
      cases hrec : d.records k with
      | none => simp [call, check, hrec]
      | some rec => simpa [call, check, hrec] using hset k rec hrec _

/-- A call leaves the settings of the detector alone. -/
theorem call_settings (c : Call) :
    (d.call c).2.timeoutMs = d.timeoutMs ∧ (d.call c).2.phiThreshold = d.phiThreshold := by
  cases c with
  | receive k now => cases hrec : d.records k <;> simp [call, receiveHeartbeat, hrec, setRecord]
  | inject k => cases hrec : d.records k <;> simp [call, injectFailure, hrec, setRecord]
  | check k phi now => cases hrec : d.records k <;> simp [call, check, hrec, setRecord]

/-- A call replaces at most the record of its worker, with one of the same worker, and
only its worker is in the callbacks. -/
theorem call_frame (keyed : ∀ k rec, d.records k = some rec → rec.workerId = k) (c : Call) :
    (d.call c).2.failureCb = d.failureCb ∧ (d.call c).2.recoveryCb = d.recoveryCb ∧
      (∀ k, k ≠ c.worker → (d.call c).2.records k = d.records k) ∧
      (∀ k, (d.records k).isSome → ((d.call c).2.records k).isSome) ∧
      (∀ k rec, (d.call c).2.records k = some rec → rec.workerId = k) ∧
      ∀ cb ∈ (d.call c).1, cb = .failure c.worker ∨ cb = .recovery c.worker := by
  have hset : ∀ k rec, d.records k = some rec → ∀ rec', rec'.workerId = rec.workerId →
      (∀ j, j ≠ k → (d.setRecord k rec').records j = d.records j) ∧
      (∀ j, (d.records j).isSome → ((d.setRecord k rec').records j).isSome) ∧
      ∀ j r, (d.setRecord k rec').records j = some r → r.workerId = j := by
    intro k rec hrec rec' hid
    refine ⟨fun j hj => by simp [setRecord, hj], fun j hj => ?_, fun j r hr => ?_⟩
    · rcases eq_or_ne j k with rfl | hne
      · simp [setRecord]
      · simpa [setRecord, hne] using hj
    · rcases eq_or_ne j k with rfl | hne
      · simp only [setRecord, Function.update_self, Option.some.injEq] at hr
        rw [← hr, hid, keyed j rec hrec]
      · simp only [setRecord, Function.update_of_ne hne] at hr
        exact keyed j r hr
  cases c with
  | receive k now =>
      cases hrec : d.records k with
      | none => simpa [call, receiveHeartbeat, hrec] using keyed
      | some rec =>
          obtain ⟨hother, hsome, hkeyed⟩ := hset k rec hrec (rec.beat now) rfl
          simp only [call, receiveHeartbeat, hrec]
          refine ⟨rfl, rfl, hother, hsome, hkeyed, fun cb hcb => ?_⟩
          split at hcb
          · exact Or.inr (List.mem_singleton.mp hcb)
          · cases hcb
  | inject k =>
      cases hrec : d.records k with
      | none => simpa [call, injectFailure, hrec] using keyed
      | some rec =>
          obtain ⟨hother, hsome, hkeyed⟩ := hset k rec hrec
            { rec with lastSeen := rec.lastSeen - ms (d.timeoutMs * 10 % 2 ^ 32) } rfl
          simp only [call, injectFailure, hrec]
          exact ⟨rfl, rfl, hother, hsome, hkeyed, fun cb hcb => by cases hcb⟩
  | check k phi now =>
      cases hrec : d.records k with
      | none => simpa [call, check, hrec] using keyed
      | some rec =>
          obtain ⟨hother, hsome, hkeyed⟩ := hset k rec hrec (d.checkWorker rec phi now).2
            (workerId_checkWorker rec phi now)
          simp only [call, check, hrec]
          refine ⟨rfl, rfl, hother, hsome, hkeyed, fun cb hcb => ?_⟩
          exact Or.inl (keyed k rec hrec ▸ fired_checkWorker hcb)

theorem registered_step (h : Registered w d) (step : Step d ev d') : Registered w d' := by
  obtain ⟨hfailure, hrecovery, -, hsome, hkeyed, -⟩ := call_frame h.keyed ev.1
  rw [step] at hfailure hrecovery hsome hkeyed
  exact ⟨hfailure.trans h.failureCb, hrecovery.trans h.recoveryCb, hsome w h.record, hkeyed⟩

/-- A call about another worker. -/
theorem other_step (h : Registered w d) (step : Step d ev d') (hne : w ≠ ev.1.worker) :
    d'.stateOf w = d.stateOf w ∧ Callback.failure w ∉ ev.2 ∧ Callback.recovery w ∉ ev.2 := by
  obtain ⟨-, -, hother, -, -, hcbs⟩ := call_frame h.keyed ev.1
  rw [step] at hother hcbs
  have hrec : d'.records w = d.records w := hother w hne
  refine ⟨by simp only [stateOf, hrec], fun hmem => ?_, fun hmem => ?_⟩
  · rcases hcbs _ hmem with heq | heq
    · cases heq
      exact hne rfl
    · cases heq
  · rcases hcbs _ hmem with heq | heq
    · cases heq
    · cases heq
      exact hne rfl

/-- A heartbeat of `w` makes it ALIVE, with a recovery callback unless it was. -/
theorem beat_step (h : Registered w d) (step : Step d ev d') (beats : Beats w ev) :
    d'.stateOf w = .alive ∧
      ev.2 = if d.stateOf w = .failed ∨ d.stateOf w = .suspected then [.recovery w] else [] := by
  obtain ⟨now, hcall⟩ := beats
  obtain ⟨rec, hrec⟩ := Option.isSome_iff_exists.mp h.record
  rw [Step, hcall, call, receiveHeartbeat, hrec, h.recoveryCb, Prod.mk.injEq] at step
  obtain ⟨hcbs, rfl⟩ := step
  refine ⟨by simp [stateOf, setRecord, HeartbeatRecord.beat], ?_⟩
  rw [← hcbs]
  simp [stateOf, hrec]

/-- A check of `w`: nothing happens to a FAILED worker, any other one fails with a
callback or stays out of FAILED without. -/
theorem check_step (h : Registered w d) {phi : Rat} {now : Timestamp} (step : Step d ev d')
    (hcall : ev.1 = .check w phi now) :
    (d.stateOf w = .failed ∧ d'.stateOf w = .failed ∧ ev.2 = []) ∨
      (d.stateOf w ≠ .failed ∧ d'.stateOf w = .failed ∧ ev.2 = [.failure w]) ∨
      (d.stateOf w ≠ .failed ∧ d'.stateOf w ≠ .failed ∧ ev.2 = []) := by
  obtain ⟨rec, hrec⟩ := Option.isSome_iff_exists.mp h.record
  rw [Step, hcall, call, check_of_record hrec, Prod.mk.injEq] at step
  obtain ⟨hcbs, rfl⟩ := step
  have hbefore : d.stateOf w = rec.state := by simp [stateOf, hrec]
  have hafter : (d.setRecord w (d.checkWorker rec phi now).2).stateOf w =
      (d.checkWorker rec phi now).2.state := by simp [stateOf, setRecord]
  rw [hbefore, hafter, ← hcbs]
  obtain ⟨hfailed, hcheck⟩ | ⟨hfailed, -, hcheck⟩ | ⟨hfailed, -, state, hstate, hcheck⟩ :=
    d.checkWorker_cases rec phi now
  · rw [hcheck]
    exact Or.inl ⟨hfailed, hfailed, rfl⟩
  · rw [hcheck, h.failureCb, h.keyed w rec hrec]
    exact Or.inr (Or.inl ⟨hfailed, rfl, rfl⟩)
  · rw [hcheck]
    exact Or.inr (Or.inr ⟨hfailed, hstate, rfl⟩)

theorem inject_step (h : Registered w d) (step : Step d ev d') (hcall : ev.1 = .inject w) :
    d'.stateOf w = d.stateOf w ∧ ev.2 = [] := by
  obtain ⟨rec, hrec⟩ := Option.isSome_iff_exists.mp h.record
  rw [Step, hcall, call, injectFailure, hrec, Prod.mk.injEq] at step
  obtain ⟨hcbs, rfl⟩ := step
  exact ⟨by simp [stateOf, setRecord, hrec], hcbs.symm⟩

/-- **What one call can do to worker `w`**: a heartbeat of `w`, a transition into FAILED
with its callback, or neither. -/
theorem step_cases (h : Registered w d) (step : Step d ev d') :
    (Beats w ev ∧ d'.stateOf w = .alive ∧ ¬ Fails w ev) ∨
      (¬ Beats w ev ∧ d.stateOf w ≠ .failed ∧ d'.stateOf w = .failed ∧ ev.2 = [.failure w]) ∨
      (¬ Beats w ev ∧ (d'.stateOf w = .failed ↔ d.stateOf w = .failed) ∧ ¬ Fails w ev) := by
  rcases eq_or_ne w ev.1.worker with hw | hne
  · cases hcall : ev.1 with
    | receive k now =>
        obtain rfl : w = k := by rw [hw, hcall, Call.worker]
        obtain ⟨hstate, hcbs⟩ := beat_step h step ⟨now, hcall⟩
        refine Or.inl ⟨⟨now, hcall⟩, hstate, ?_⟩
        rw [Fails, hcbs]
        split <;> simp
    | inject k =>
        obtain rfl : w = k := by rw [hw, hcall, Call.worker]
        obtain ⟨hstate, hcbs⟩ := inject_step h step hcall
        exact Or.inr (Or.inr ⟨by simp [Beats, hcall], by rw [hstate], by simp [Fails, hcbs]⟩)
    | check k phi now =>
        obtain rfl : w = k := by rw [hw, hcall, Call.worker]
        have hbeats : ¬ Beats w ev := by simp [Beats, hcall]
        rcases check_step h step hcall with ⟨hd, hd', hcbs⟩ | ⟨hd, hd', hcbs⟩ | ⟨hd, hd', hcbs⟩
        · exact Or.inr (Or.inr ⟨hbeats, by simp [hd, hd'], by simp [Fails, hcbs]⟩)
        · exact Or.inr (Or.inl ⟨hbeats, hd, hd', hcbs⟩)
        · exact Or.inr (Or.inr ⟨hbeats, by simp [hd, hd'], by simp [Fails, hcbs]⟩)
  · obtain ⟨hstate, hfailure, -⟩ := other_step h step hne
    refine Or.inr (Or.inr ⟨?_, by rw [hstate], hfailure⟩)
    rintro ⟨now, hcall⟩
    exact hne (by rw [hcall, Call.worker])

/-- The failure callback fires exactly on the transitions into FAILED, and once. -/
theorem count_failure (h : Registered w d) (step : Step d ev d') :
    ev.2.count (.failure w) =
      if d.stateOf w ≠ .failed ∧ d'.stateOf w = .failed then 1 else 0 := by
  rcases step_cases h step with ⟨-, hd', hnot⟩ | ⟨-, hd, hd', hcbs⟩ | ⟨-, hiff, hnot⟩
  · rw [List.count_eq_zero.mpr hnot, if_neg (by simp [hd'])]
  · simp [hcbs, hd, hd']
  · rw [List.count_eq_zero.mpr hnot, if_neg (by simp [hiff])]

theorem fails_iff (h : Registered w d) (step : Step d ev d') :
    Fails w ev ↔ d.stateOf w ≠ .failed ∧ d'.stateOf w = .failed := by
  rw [Fails, ← List.count_pos_iff, count_failure h step]
  split_ifs with hinto
  · simpa using hinto
  · simpa using hinto

end Steps

/-! ### Whole runs -/

section FailedSince

variable {w : WorkerId} {evs : List Event} {ev : Event}

theorem failedSince_of_fails (fails : Fails w ev) : FailedSince w (evs ++ [ev]) :=
  ⟨evs, ev, [], rfl, fails, by simp⟩

theorem not_failedSince_of_beats (beats : Beats w ev) (hnot : ¬ Fails w ev) :
    ¬ FailedSince w (evs ++ [ev]) := by
  rintro ⟨before, x, after, heq, hx, hafter⟩
  rcases List.eq_nil_or_concat after with rfl | ⟨after, y, rfl⟩
  · obtain ⟨-, hlast⟩ := List.append_inj' heq rfl
    rw [List.singleton_inj.mp hlast] at hnot
    exact hnot hx
  · rw [List.concat_eq_append, ← List.cons_append, ← List.append_assoc] at heq
    obtain ⟨-, hlast⟩ := List.append_inj' heq rfl
    rw [List.singleton_inj.mp hlast] at beats
    exact hafter y (by simp) beats

/-- An event that neither reports nor clears a failure. -/
theorem failedSince_append (hbeats : ¬ Beats w ev) (hnot : ¬ Fails w ev) :
    FailedSince w (evs ++ [ev]) ↔ FailedSince w evs := by
  constructor
  · rintro ⟨before, x, after, heq, hx, hafter⟩
    rcases List.eq_nil_or_concat after with rfl | ⟨after, y, rfl⟩
    · obtain ⟨-, hlast⟩ := List.append_inj' heq rfl
      rw [List.singleton_inj.mp hlast] at hnot
      exact absurd hx hnot
    · rw [List.concat_eq_append, ← List.cons_append, ← List.append_assoc] at heq
      obtain ⟨heq, -⟩ := List.append_inj' heq rfl
      exact ⟨before, x, after, heq, hx, fun z hz => hafter z (by simp [hz])⟩
  · rintro ⟨before, x, after, rfl, hx, hafter⟩
    refine ⟨before, x, after ++ [ev], by simp, hx, fun z hz => ?_⟩
    rcases List.mem_append.mp hz with hz | hz
    · exact hafter z hz
    · rw [List.mem_singleton.mp hz]
      exact hbeats

end FailedSince

/-- **A worker is FAILED if and only if its failure was reported and no heartbeat of it
was received since.** -/
theorem run_failed_iff {w : WorkerId} {d d' : HeartbeatDetector} {evs : List Event}
    (h : Registered w d) (start : d.stateOf w ≠ .failed) (run : Run Step d evs d') :
    Registered w d' ∧ (d'.stateOf w = .failed ↔ FailedSince w evs) := by
  refine run.invariant_history
    (fun evs x => Registered w x ∧ (x.stateOf w = .failed ↔ FailedSince w evs)) ?_ ⟨h, ?_⟩
  · rintro evs d₁ ev d₂ ⟨hreg, hiff⟩ step
    refine ⟨registered_step hreg step, ?_⟩
    rcases step_cases hreg step with ⟨hbeats, hd₂, hnot⟩ | ⟨-, -, hd₂, hcbs⟩ | ⟨hbeats, hsame, hnot⟩
    · simp [hd₂, not_failedSince_of_beats hbeats hnot]
    · have hsince : FailedSince w (evs ++ [ev]) := failedSince_of_fails (by simp [Fails, hcbs])
      simp [hd₂, hsince]
    · rw [hsame, hiff, failedSince_append hbeats hnot]
  · have hnone : ¬ FailedSince w [] := by
      rintro ⟨before, ev, after, heq, -⟩
      simp at heq
    simp [start, hnone]

/-- The callbacks and the heartbeats of worker `w` in a run. -/
structure Alternating (w : WorkerId) (d : HeartbeatDetector) (evs : List Event)
    (d' : HeartbeatDetector) : Prop where
  failed_iff : d'.stateOf w = .failed ↔ FailedSince w evs
  fires : ∀ before ev after d₁ d₂, evs = before ++ ev :: after → Run Step d before d₁ →
    Step d₁ ev d₂ → ev.2.count (.failure w) =
      if d₁.stateOf w ≠ .failed ∧ d₂.stateOf w = .failed then 1 else 0
  beat_between : ∀ before x mid y after, evs = before ++ x :: (mid ++ y :: after) →
    Fails w x → Fails w y → ∃ z ∈ mid, Beats w z
  recovers : ∀ before x mid y after, evs = before ++ x :: (mid ++ y :: after) →
    Fails w x → (∀ z ∈ mid, ¬ Beats w z) → Beats w y → y.2 = [.recovery w]

/-- A worker whose failure was reported is still FAILED when the next event comes, if no
heartbeat was received in between. -/
theorem failed_before {w : WorkerId} {d d' : HeartbeatDetector} (h : Registered w d)
    (start : d.stateOf w ≠ .failed) {before mid after : List Event} {x y : Event}
    (run : Run Step d (before ++ x :: (mid ++ y :: after)) d') (fails : Fails w x)
    (quiet : ∀ z ∈ mid, ¬ Beats w z) :
    ∃ d₁ d₂, Registered w d₁ ∧ d₁.stateOf w = .failed ∧ Step d₁ y d₂ := by
  rw [← List.cons_append, ← List.append_assoc, run_append_iff] at run
  obtain ⟨d₁, first, rest⟩ := run
  obtain ⟨d₂, step, -⟩ := run_cons_iff.mp rest
  obtain ⟨hreg, hiff⟩ := run_failed_iff h start first
  exact ⟨d₁, d₂, hreg, hiff.mpr ⟨before, x, mid, rfl, fails, quiet⟩, step⟩

/-- **Failure callbacks and heartbeats alternate.** Take any worker with a record and any
sequence of heartbeats, injected failures and checks, with any suspicion levels and clock
readings. The worker is FAILED if and only if its failure was reported and no heartbeat
of it was received since; the callback fires exactly on the transitions into FAILED;
between two of its failure callbacks there is a heartbeat; and the first heartbeat after
one fires one recovery callback. -/
theorem callbacks_alternate {localId : WorkerId} {workerCount intervalMs timeoutMs : Nat}
    {phiThreshold : Rat} {now : WorkerId → Timestamp} {w : WorkerId} (hw : w < workerCount)
    (hne : w ≠ localId) {evs : List Event} {d : HeartbeatDetector}
    (run : Run Step
      (new localId workerCount intervalMs timeoutMs phiThreshold now).onFailure.onRecovery evs d) :
    Alternating w
      (new localId workerCount intervalMs timeoutMs phiThreshold now).onFailure.onRecovery evs d := by
  set start := (new localId workerCount intervalMs timeoutMs phiThreshold now).onFailure.onRecovery
    with hstart
  have hreg : Registered w start := by
    refine ⟨rfl, rfl, by simp [hstart, onRecovery, onFailure, new, hw, hne], ?_⟩
    intro k rec hrec
    simp only [hstart, onRecovery, onFailure, new] at hrec
    split at hrec
    · rw [← Option.some.inj hrec]
    · cases hrec
  have halive : start.stateOf w ≠ .failed := by
    simp [hstart, stateOf, onRecovery, onFailure, new, hw, hne]
  constructor
  case failed_iff => exact (run_failed_iff hreg halive run).2
  case fires =>
    intro before ev after d₁ d₂ _ first step
    exact count_failure (run_failed_iff hreg halive first).1 step
  case beat_between =>
    intro before x mid y after heq hx hy
    by_contra hnone
    push Not at hnone
    rw [heq] at run
    obtain ⟨d₁, d₂, hreg₁, hfailed, step⟩ := failed_before hreg halive run hx hnone
    exact ((fails_iff hreg₁ step).mp hy).1 hfailed
  case recovers =>
    intro before x mid y after heq hx hquiet hy
    rw [heq] at run
    obtain ⟨d₁, d₂, hreg₁, hfailed, step⟩ := failed_before hreg halive run hx hquiet
    rw [(beat_step hreg₁ step hy).2, hfailed]
    simp

/-- Worker 1 is suspected, fails, is checked again and comes back. -/
theorem callbacks_alternate_one : ∃ d,
    Run Step (new 0 2 500 2000 8 fun _ => 0).onFailure.onRecovery
      [(.check 1 4 0, []), (.check 1 9 1, [.failure 1]), (.check 1 9 2, []),
        (.receive 1 3, [.recovery 1])] d ∧
    Alternating 1 (new 0 2 500 2000 8 fun _ => 0).onFailure.onRecovery
      [(.check 1 4 0, []), (.check 1 9 1, [.failure 1]), (.check 1 9 2, []),
        (.receive 1 3, [.recovery 1])] d := by
  have run : ∃ d, Run Step (new 0 2 500 2000 8 fun _ => 0).onFailure.onRecovery
      [(.check 1 4 0, []), (.check 1 9 1, [.failure 1]), (.check 1 9 2, []),
        (.receive 1 3, [.recovery 1])] d :=
    ⟨_, .cons (step_call (by decide +kernel)) (.cons (step_call (by decide +kernel))
      (.cons (step_call (by decide +kernel)) (.one (step_call (by decide +kernel)))))⟩
  obtain ⟨d, run⟩ := run
  exact ⟨d, run, callbacks_alternate (by decide) (by decide) run⟩

end HeartbeatDetector

end Pregel
