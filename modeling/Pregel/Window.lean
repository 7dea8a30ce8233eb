import Mathlib.Analysis.SpecialFunctions.Log.Base
import Mathlib.Data.List.DropRight
import Mathlib.MeasureTheory.Integral.IntervalIntegral.Basic
import Pregel.Heartbeat

/-!
The window of intervals of a worker, and `HeartbeatDetector::compute_phi` (`heartbeat.hpp`,
`heartbeat.cpp`).

The constructor seeds the window. A heartbeat that finds `beat_count` at 0 adds nothing to
it; any other one adds the time since `last_seen`, which `inject_failure` may have moved. The
counter has 64 bits, so that it is 0 at the first heartbeat and at every 2^64-th after it.

`compute_phi` is written for any ordered field and any functions `sqrt`, `erfc` and `log10`
on it; its divisions are checked. Rounding is left out.

* `computePhi_isSome`: over a window with something in it no division is by zero.
* `gaps`, `measured`: the times between the heartbeats of a worker, and those of them that
  are measured.
* `record_call`: what one call does to the window of a worker.
* `rolling_window`: the window after any calls.
-/

namespace Pregel

open Lts

namespace HeartbeatDetector

/-! ### The suspicion level -/

/-- The functions of `<cmath>` that `compute_phi` calls. -/
structure CMath (K : Type) [Field K] [LinearOrder K] where
  sqrt : K → K
  erfc : K → K
  log10 : K → K
  sqrt_pos : ∀ x, 0 < x → 0 < sqrt x

section Phi

variable {K : Type} [Field K] [LinearOrder K]

/-- `a / b`, if `b` is not zero. -/
def divide (a b : K) : Option K := if b = 0 then none else some (a / b)

/-- `std::chrono::duration<double, std::milli>`. -/
def millis (t : Int) : K := t / 1000000

/-- `HeartbeatDetector::compute_phi`, with the reading of the clock; `none` if it divides by
zero. -/
def computePhi (lib : CMath K) (rec : HeartbeatRecord) (now : Timestamp) : Option K :=
  if rec.intervals.isEmpty then some 0
  else do
    let elapsed : K := millis (now - rec.lastSeen)
    let size : K := rec.intervals.length
    let mean ← divide (rec.intervals.map millis).sum size
    let var ← divide (rec.intervals.map fun v => (millis v - mean) * (millis v - mean)).sum size
    let sigma := lib.sqrt (var + 1 / 10 ^ 9)
    let y ← divide (elapsed - mean) sigma
    let x ← divide (-y) (lib.sqrt 2)
    let cdf := 1 / 2 * lib.erfc x
    return -lib.log10 (max (1 - cdf) (1 / 10 ^ 15))

/-- `cdf` in `compute_phi`, over a window with something in it. -/
def cdf (lib : CMath K) (intervals : List Int) (elapsed : Int) : K :=
  let mean : K := (intervals.map millis).sum / intervals.length
  let var : K := (intervals.map fun v => (millis v - mean) * (millis v - mean)).sum / intervals.length
  let y := (millis elapsed - mean) / lib.sqrt (var + 1 / 10 ^ 9)
  1 / 2 * lib.erfc (-y / lib.sqrt 2)

/-- The level that goes with it. -/
def level (lib : CMath K) (intervals : List Int) (elapsed : Int) : K :=
  -lib.log10 (max (1 - cdf lib intervals elapsed) (1 / 10 ^ 15))

theorem divide_of_ne (a : K) {b : K} (hb : b ≠ 0) : divide a b = some (a / b) := if_neg hb

/-- **`compute_phi` does not divide by zero** if there is something in the window. -/
theorem computePhi_isSome [IsStrictOrderedRing K] (lib : CMath K) {rec : HeartbeatRecord}
    (hne : rec.intervals ≠ []) (now : Timestamp) : (computePhi lib rec now).isSome := by
  have hsize : (rec.intervals.length : K) ≠ 0 :=
    Nat.cast_ne_zero.mpr (List.length_eq_zero_iff.not.mpr hne)
  have hvar : ∀ mean : K, 0 ≤ (rec.intervals.map fun v =>
      (millis v - mean) * (millis v - mean)).sum / rec.intervals.length := by
    intro mean
    apply div_nonneg
    · apply List.sum_nonneg
      intro x hx
      obtain ⟨v, -, rfl⟩ := List.mem_map.mp hx
      exact mul_self_nonneg _
    · exact Nat.cast_nonneg _
  have hsigma : ∀ var : K, 0 ≤ var → lib.sqrt (var + 1 / 10 ^ 9) ≠ 0 := fun var hvar =>
    (lib.sqrt_pos _ (by positivity)).ne'
  have htwo : lib.sqrt 2 ≠ 0 := (lib.sqrt_pos 2 two_pos).ne'
  simp only [computePhi, List.isEmpty_iff, hne, if_false, Option.bind_eq_bind, divide_of_ne _ hsize,
    divide_of_ne _ (hsigma _ (hvar _)), divide_of_ne _ htwo, Option.bind_some]
  rfl

end Phi

/-- The functions that `<cmath>` approximates. -/
noncomputable def CMath.real : CMath ℝ where
  sqrt := Real.sqrt
  erfc x := 1 - 2 / Real.sqrt Real.pi * ∫ t in (0 : ℝ)..x, Real.exp (-t ^ 2)
  log10 := Real.logb 10
  sqrt_pos _ := Real.sqrt_pos.mpr

/-! ### What is measured -/

/-- The time since `last_seen` if the call is a heartbeat of `w` that is accepted. -/
def gap (w : WorkerId) (d : HeartbeatDetector) : Call → Option Int
  | .receive k now => if k = w then (d.records w).map fun rec => now - rec.lastSeen else none
  | _ => none

/-- The times since `last_seen` at the accepted heartbeats of `w`. -/
def gaps (w : WorkerId) (d : HeartbeatDetector) : List Call → List Int
  | [] => []
  | c :: cs => (gap w d c).toList ++ gaps w (d.call c).2 cs

/-- Those of them that are measured: not the first, and no 2^64-th after it. -/
def measured (gs : List Int) : List Int :=
  (gs.zipIdx.filter fun g => g.2 % 2 ^ 64 ≠ 0).map Prod.fst

/-- The detector after these calls. -/
def afterCalls (d : HeartbeatDetector) (cs : List Call) : HeartbeatDetector :=
  cs.foldl (fun d c => (d.call c).2) d

theorem gaps_concat (w : WorkerId) (d : HeartbeatDetector) (cs : List Call) (c : Call) :
    gaps w d (cs ++ [c]) = gaps w d cs ++ (gap w (d.afterCalls cs) c).toList := by
  induction cs generalizing d with
  | nil => simp [gaps, afterCalls]
  | cons x cs ih => simp only [List.cons_append, gaps, ih, List.append_assoc, afterCalls,
      List.foldl_cons]

theorem measured_concat (gs : List Int) (g : Int) :
    measured (gs ++ [g]) = measured gs ++ if gs.length % 2 ^ 64 ≠ 0 then [g] else [] := by
  unfold measured
  rw [List.zipIdx_append, List.filter_append, List.map_append]
  split <;> simp_all

/-- Before the counter wraps around, only the first heartbeat is not measured. -/
theorem measured_eq_tail {gs : List Int} (few : gs.length ≤ 2 ^ 64) : measured gs = gs.tail := by
  cases gs with
  | nil => rfl
  | cons g gs =>
      have hall : (gs.zipIdx 1).filter (fun g => g.2 % 2 ^ 64 ≠ 0) = gs.zipIdx 1 := by
        apply List.filter_eq_self.mpr
        intro x hx
        obtain ⟨hlow, hhigh, -⟩ := List.mem_zipIdx hx
        rw [List.length_cons] at few
        rw [Nat.mod_eq_of_lt (by omega)]
        exact decide_eq_true (by omega)
      unfold measured
      rw [List.zipIdx_cons, List.filter_cons_of_neg (by simp), hall]
      simp

theorem mem_of_mem_measured {gs : List Int} {x : Int} (hx : x ∈ measured gs) : x ∈ gs := by
  obtain ⟨⟨y, i⟩, hmem, rfl⟩ := List.mem_map.mp hx
  exact List.fst_mem_of_mem_zipIdx (List.mem_filter.mp hmem).1

/-! ### The window -/

open HeartbeatRecord (window pushInterval)

/-- One more interval in a window of the last ones. -/
theorem pushInterval_rtake (xs : List Int) (x : Int) :
    pushInterval (xs.rtake window) x = (xs ++ [x]).rtake window := by
  have hwindow : window = 16 := rfl
  have hlength : (xs.rtake window).length = min window xs.length := by
    rw [List.rtake, List.length_drop]
    omega
  unfold pushInterval
  dsimp only
  rw [List.length_append, hlength, List.length_singleton]
  by_cases hfull : window ≤ xs.length
  · -- the window is full: the first interval goes
    have hsize : xs.length + 1 - window = xs.length - window + 1 := by omega
    rw [if_pos (by omega), List.drop_append_of_le_length (by omega), List.rtake, List.rtake,
      List.drop_drop, List.length_append, List.length_singleton, hsize,
      List.drop_append_of_le_length (by omega)]
  · have hall : xs.rtake window = xs := by
      rw [List.rtake, Nat.sub_eq_zero_of_le (by omega), List.drop_zero]
    rw [if_neg (by omega), hall, List.rtake, List.length_append, List.length_singleton,
      Nat.sub_eq_zero_of_le (by omega), List.drop_zero]

theorem records_setRecord {d : HeartbeatDetector} {w k : WorkerId} {rec rec' : HeartbeatRecord}
    (h : (d.setRecord k rec).records w = some rec') :
    (k = w ∧ rec' = rec) ∨ (k ≠ w ∧ d.records w = some rec') := by
  rcases eq_or_ne k w with rfl | hne
  · simp only [setRecord, Function.update_self, Option.some.injEq] at h
    exact Or.inl ⟨rfl, h.symm⟩
  · simp only [setRecord, Function.update_of_ne hne.symm] at h
    exact Or.inr ⟨hne, h⟩

/-- **What one call does to the record of `w`**: an accepted heartbeat, or nothing to the
window and to the counter. -/
theorem record_call {d : HeartbeatDetector} {w : WorkerId} {c : Call} {rec' : HeartbeatRecord}
    (hrec' : (d.call c).2.records w = some rec') : ∃ rec, d.records w = some rec ∧
      ((∃ now, gap w d c = some (now - rec.lastSeen) ∧ rec' = rec.beat now) ∨
        (gap w d c = none ∧ rec'.intervals = rec.intervals ∧ rec'.beatCount = rec.beatCount)) := by
  cases c with
  | receive k now =>
      cases hk : d.records k with
      | none =>
          simp only [call, receiveHeartbeat, hk] at hrec'
          have hne : k ≠ w := by
            rintro rfl
            rw [hk] at hrec'
            cases hrec'
          exact ⟨rec', hrec', Or.inr ⟨by simp [gap, hne], rfl, rfl⟩⟩
      | some rec =>
          simp only [call, receiveHeartbeat, hk] at hrec'
          rcases records_setRecord hrec' with ⟨rfl, rfl⟩ | ⟨hne, hsame⟩
          · exact ⟨rec, hk, Or.inl ⟨now, by simp [gap, hk], rfl⟩⟩
          · exact ⟨rec', hsame, Or.inr ⟨by simp [gap, hne], rfl, rfl⟩⟩
  | inject k =>
      cases hk : d.records k with
      | none =>
          simp only [call, injectFailure, hk] at hrec'
          exact ⟨rec', hrec', Or.inr ⟨rfl, rfl, rfl⟩⟩
      | some rec =>
          simp only [call, injectFailure, hk] at hrec'
          rcases records_setRecord hrec' with ⟨rfl, rfl⟩ | ⟨hne, hsame⟩
          · exact ⟨rec, hk, Or.inr ⟨rfl, rfl, rfl⟩⟩
          · exact ⟨rec', hsame, Or.inr ⟨rfl, rfl, rfl⟩⟩
  | check k phi now =>
      cases hk : d.records k with
      | none =>
          simp only [call, check, hk] at hrec'
          exact ⟨rec', hrec', Or.inr ⟨rfl, rfl, rfl⟩⟩
      | some rec =>
          simp only [call, check_of_record hk] at hrec'
          rcases records_setRecord hrec' with ⟨rfl, rfl⟩ | ⟨hne, hsame⟩
          · exact ⟨rec, hk, Or.inr ⟨rfl, (d.checkWorker_frame rec phi now).2.2⟩⟩
          · exact ⟨rec', hsame, Or.inr ⟨rfl, rfl, rfl⟩⟩

/-- The window and the counter of a record after these gaps. -/
structure Rolling (seed : List Int) (gs : List Int) (rec : HeartbeatRecord) : Prop where
  beatCount : rec.beatCount = UInt64.ofNat gs.length
  intervals : rec.intervals = (seed ++ measured gs).rtake window

/-- One more heartbeat. -/
theorem Rolling.beat {seed gs : List Int} {rec : HeartbeatRecord} (rolling : Rolling seed gs rec)
    (now : Timestamp) : Rolling seed (gs ++ [now - rec.lastSeen]) (rec.beat now) where
  beatCount := by
    show rec.beatCount + 1 = _
    rw [rolling.beatCount, List.length_append, List.length_singleton, UInt64.ofNat_add]
    rfl
  intervals := by
    have hcount : rec.beatCount > 0 ↔ gs.length % 2 ^ 64 ≠ 0 := by
      rw [rolling.beatCount, gt_iff_lt, UInt64.lt_iff_toNat_lt, UInt64.toNat_ofNat',
        UInt64.toNat_zero, Nat.pos_iff_ne_zero]
    show (if rec.beatCount > 0 then _ else _) = _
    rw [measured_concat]
    by_cases hfirst : gs.length % 2 ^ 64 ≠ 0
    · rw [if_pos (hcount.mpr hfirst), if_pos hfirst, rolling.intervals, pushInterval_rtake,
        List.append_assoc]
    · rw [if_neg (hcount.not.mpr hfirst), if_neg hfirst, List.append_nil, rolling.intervals]

/-- **Any calls.** Every record keeps rolling on from its seed. -/
theorem rolling_run {start d : HeartbeatDetector} {evs : List Event} {seed : List Int}
    (run : Run Step start evs d) {w : WorkerId}
    (created : ∀ rec, start.records w = some rec → Rolling seed [] rec) :
    ∀ rec, d.records w = some rec → Rolling seed (gaps w start (evs.map Prod.fst)) rec := by
  have hinv := run.invariant_history (fun evs d => d = start.afterCalls (evs.map Prod.fst) ∧
    ∀ rec, d.records w = some rec → Rolling seed (gaps w start (evs.map Prod.fst)) rec) ?_
    ⟨rfl, created⟩
  · exact hinv.2
  rintro evs d₁ ev d₂ ⟨hd₁, rolling⟩ step
  have hd₂ : (d₁.call ev.1).2 = d₂ := by rw [step]
  refine ⟨?_, fun rec' hrec' => ?_⟩
  · rw [List.map_append, afterCalls, List.foldl_append, ← hd₂, hd₁]
    rfl
  · rw [← hd₂] at hrec'
    obtain ⟨rec, hrec, hcall⟩ := record_call hrec'
    have hbefore := rolling rec hrec
    rw [List.map_append, List.map_singleton, gaps_concat, ← hd₁]
    rcases hcall with ⟨now, hgap, rfl⟩ | ⟨hgap, hintervals, hcount⟩
    · rw [hgap]
      exact hbefore.beat now
    · rw [hgap, Option.toList_none, List.append_nil]
      exact ⟨hcount.trans hbefore.beatCount, hintervals.trans hbefore.intervals⟩

/-- A detector with these callbacks registered. -/
def withCallbacks (d : HeartbeatDetector) (failureCb recoveryCb : Bool) : HeartbeatDetector :=
  { d with failureCb := failureCb, recoveryCb := recoveryCb }

/-- The seed of a new record. -/
theorem rolling_new {localId : WorkerId} {workerCount intervalMs timeoutMs : Nat}
    {phiThreshold : Rat} {now : WorkerId → Timestamp} {w : WorkerId} {rec : HeartbeatRecord}
    (hrec : (new localId workerCount intervalMs timeoutMs phiThreshold now).records w = some rec) :
    Rolling (List.replicate 8 (ms intervalMs)) [] rec := by
  simp only [new] at hrec
  split at hrec
  · cases hrec
    exact ⟨rfl, rfl⟩
  · cases hrec

/-- **The window is a rolling window.** Take a new detector, with or without callbacks, and any
calls of `receive_heartbeat`, `inject_failure` and `check_worker`. The window of a worker is
the last 16 at most of the 8 seeds followed by what was measured; that is, as long as the
64-bit counter has not wrapped around, the time since `last_seen` at each accepted heartbeat
but the first. So there are always 8 to 16 intervals, and `compute_phi` neither returns early
nor divides by zero. -/
theorem rolling_window {localId : WorkerId} {workerCount intervalMs timeoutMs : Nat}
    {phiThreshold : Rat} {now : WorkerId → Timestamp} (failureCb recoveryCb : Bool)
    {evs : List Event} {d : HeartbeatDetector}
    (run : Run Step ((new localId workerCount intervalMs timeoutMs phiThreshold now).withCallbacks
      failureCb recoveryCb) evs d)
    {w : WorkerId} {rec : HeartbeatRecord} (hrec : d.records w = some rec)
    {K : Type} [Field K] [LinearOrder K] [IsStrictOrderedRing K] (lib : CMath K)
    (clock : Timestamp) :
    let gs := gaps w ((new localId workerCount intervalMs timeoutMs phiThreshold now).withCallbacks
      failureCb recoveryCb) (evs.map Prod.fst)
    rec.intervals = (List.replicate 8 (ms intervalMs) ++ measured gs).rtake
        (min window (8 + (measured gs).length)) ∧
      (gs.length ≤ 2 ^ 64 → measured gs = gs.tail) ∧
      8 ≤ rec.intervals.length ∧ rec.intervals.length ≤ window ∧
      rec.intervals.isEmpty = false ∧ (computePhi lib rec clock).isSome := by
  intro gs
  have hwindow : window = 16 := rfl
  have hseed : ∀ rec, (new localId workerCount intervalMs timeoutMs phiThreshold now).records w =
      some rec → Rolling (List.replicate 8 (ms intervalMs)) [] rec := fun _ => rolling_new
  have hintervals : rec.intervals =
      (List.replicate 8 (ms intervalMs) ++ measured gs).rtake window :=
    (rolling_run run hseed rec hrec).intervals
  have hlength : rec.intervals.length = min window (8 + (measured gs).length) := by
    rw [hintervals, List.rtake, List.length_drop, List.length_append, List.length_replicate]
    omega
  have hne : rec.intervals ≠ [] := by
    rw [← List.length_pos_iff]
    omega
  refine ⟨?_, measured_eq_tail, by omega, by omega, by simpa using hne,
    computePhi_isSome lib hne clock⟩
  rw [hintervals, List.rtake, List.rtake, List.length_append, List.length_replicate]
  congr 1
  omega

/-- The first heartbeat is not measured; the second one is, from where the injected failure
has put `last_seen`. -/
theorem rolling_window_one : ∃ d rec,
    Run Step (new 0 2 500 2000 8 fun _ => 0)
      [(.receive 1 3, []), (.inject 1, []), (.receive 1 5, []), (.check 1 0 6, [])] d ∧
    d.records 1 = some rec ∧ rec.intervals = List.replicate 8 500000000 ++ [20000000002] ∧
    (computePhi CMath.real rec 6).isSome := by
  obtain ⟨d, run, rec, hrec⟩ : ∃ d, Run Step (new 0 2 500 2000 8 fun _ => 0)
      [(.receive 1 3, []), (.inject 1, []), (.receive 1 5, []), (.check 1 0 6, [])] d ∧
      ∃ rec, d.records 1 = some rec :=
    ⟨_, .cons (step_call (by decide +kernel)) (.cons (step_call (by decide +kernel))
      (.cons (step_call (by decide +kernel)) (.one (step_call (by decide +kernel))))), _, rfl⟩
  have hcallbacks : new 0 2 500 2000 8 (fun _ => 0) =
      (new 0 2 500 2000 8 fun _ => 0).withCallbacks false false := rfl
  obtain ⟨hintervals, -, -, -, -, hphi⟩ :=
    rolling_window false false (hcallbacks ▸ run) hrec CMath.real 6
  exact ⟨d, rec, run, hrec, hintervals.trans (by decide +kernel), hphi⟩

/-! ### When the counter wraps around -/

/-- Any calls can be made. -/
theorem exists_run (d : HeartbeatDetector) (cs : List Call) :
    ∃ evs, evs.map Prod.fst = cs ∧ Run Step d evs (d.afterCalls cs) := by
  induction cs generalizing d with
  | nil => exact ⟨[], rfl, .nil d⟩
  | cons c cs ih =>
      obtain ⟨evs, hevs, run⟩ := ih (d.call c).2
      exact ⟨(c, (d.call c).1) :: evs, by rw [List.map_cons, hevs], .cons (step_call rfl) run⟩

/-- An accepted heartbeat. -/
theorem records_receive {d : HeartbeatDetector} {w : WorkerId} {rec : HeartbeatRecord}
    (hrec : d.records w = some rec) (t : Timestamp) :
    (d.call (.receive w t)).2.records w = some (rec.beat t) := by
  simp [call, receiveHeartbeat, hrec, setRecord]

/-- Heartbeats that come all at once. -/
theorem gaps_replicate {d : HeartbeatDetector} {w : WorkerId} {rec : HeartbeatRecord}
    (hrec : d.records w = some rec) (n : Nat) :
    gaps w d (List.replicate n (.receive w rec.lastSeen)) = List.replicate n 0 ∧
      ∃ rec', (d.afterCalls (List.replicate n (.receive w rec.lastSeen))).records w = some rec' ∧
        rec'.lastSeen = rec.lastSeen := by
  induction n generalizing d rec with
  | zero => exact ⟨rfl, rec, hrec, rfl⟩
  | succ n ih =>
      have hnext := records_receive hrec rec.lastSeen
      have hlast : (rec.beat rec.lastSeen).lastSeen = rec.lastSeen := rfl
      obtain ⟨hgaps, rec', hrec', hlast'⟩ := ih hnext
      rw [hlast] at hgaps hrec' hlast'
      refine ⟨?_, rec', hrec', hlast'⟩
      rw [List.replicate_succ, gaps, hgaps, List.replicate_succ]
      simp [gap, hrec]

theorem mem_rtake_concat {xs : List Int} {x : Int} {n : Nat} (hn : 0 < n) :
    x ∈ (xs ++ [x]).rtake n := by
  obtain ⟨k, rfl⟩ := Nat.exists_eq_add_one_of_ne_zero hn.ne'
  rw [List.rtake_concat_succ]
  exact List.mem_append_right _ List.mem_cons_self

/-- After `n` heartbeats of worker 1 at time 0, one at time 7 is not measured if the counter is
at 0 again. -/
theorem unmeasured_of_wrapped {n : Nat} (hn : 0 < n) (hwrapped : n % 2 ^ 64 = 0) :
    ∃ evs d rec, evs.map Prod.fst = List.replicate n (.receive 1 0) ++ [.receive 1 7] ∧
      Run Step (new 0 2 500 2000 8 fun _ => 0) evs d ∧ d.records 1 = some rec ∧
      rec.intervals ≠ (List.replicate 8 (ms 500) ++
        (gaps 1 (new 0 2 500 2000 8 fun _ => 0) (evs.map Prod.fst)).tail).rtake
          (min window
            (8 + (gaps 1 (new 0 2 500 2000 8 fun _ => 0) (evs.map Prod.fst)).tail.length)) := by
  set start := new 0 2 500 2000 8 fun _ => 0 with hstart
  obtain ⟨rec₀, hrec₀, hlast₀⟩ : ∃ rec, start.records 1 = some rec ∧ rec.lastSeen = 0 :=
    ⟨_, rfl, rfl⟩
  obtain ⟨hgaps, rec, hrec, hlast⟩ := gaps_replicate hrec₀ n
  rw [hlast₀] at hgaps hrec hlast
  obtain ⟨evs, hevs, run⟩ :=
    exists_run start (List.replicate n (.receive 1 0) ++ [.receive 1 7])
  have hend : (start.afterCalls (List.replicate n (.receive 1 0) ++ [.receive 1 7])).records 1 =
      some (rec.beat 7) := by
    rw [afterCalls, List.foldl_append]
    exact records_receive hrec 7
  have hall : gaps 1 start (List.replicate n (.receive 1 0) ++ [.receive 1 7]) =
      List.replicate n 0 ++ [7] := by
    rw [gaps_concat, hgaps]
    simp [gap, hrec, hlast]
  have hintervals := (rolling_run run (fun _ => rolling_new) _ hend).intervals
  have hmeasured : measured (List.replicate n 0 ++ [7]) = measured (List.replicate n 0) := by
    rw [measured_concat, List.length_replicate, if_neg (not_not.mpr hwrapped), List.append_nil]
  refine ⟨evs, _, rec.beat 7, hevs, run, hend, fun hsame => ?_⟩
  rw [hevs, hall] at hsame hintervals
  have hlast : (7 : Int) ∈ (rec.beat 7).intervals := by
    have htail : (List.replicate n (0 : Int) ++ [7]).tail = (List.replicate n 0).tail ++ [7] :=
      List.tail_append_of_ne_nil (by simp; omega)
    rw [hsame, htail, ← List.append_assoc]
    apply mem_rtake_concat
    have hwindow : window = 16 := rfl
    omega
  rw [hintervals, hmeasured] at hlast
  rcases List.mem_append.mp (List.mem_of_mem_drop hlast) with hseed | hzero
  · exact absurd (List.eq_of_mem_replicate hseed) (by decide)
  · exact absurd (List.eq_of_mem_replicate (mem_of_mem_measured hzero)) (by decide)

/-- The heartbeat after the first 2^64 ones is not measured. -/
theorem wrapped_heartbeat_unmeasured :
    ∃ evs d rec, evs.map Prod.fst = List.replicate (2 ^ 64) (.receive 1 0) ++ [.receive 1 7] ∧
      Run Step (new 0 2 500 2000 8 fun _ => 0) evs d ∧ d.records 1 = some rec ∧
      rec.intervals ≠ (List.replicate 8 (ms 500) ++
        (gaps 1 (new 0 2 500 2000 8 fun _ => 0) (evs.map Prod.fst)).tail).rtake
          (min window
            (8 + (gaps 1 (new 0 2 500 2000 8 fun _ => 0) (evs.map Prod.fst)).tail.length)) :=
  unmeasured_of_wrapped (Nat.two_pow_pos 64) (Nat.mod_self _)

end HeartbeatDetector

end Pregel
