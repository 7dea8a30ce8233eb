import Pregel.Threads
import Pregel.Window

/-!
How suspicion grows.

`compute_phi` is monotone in the time since the last heartbeat, and only a heartbeat makes that
time shorter; an injected fault makes it longer. So the checks of the monitor take a worker from
ALIVE over SUSPECTED to FAILED and never back, until the worker is heard of.

* `level_mono`, `accrues_computePhi`: the suspicion level.
* `Grown`, `grown_step`: what the state of a record says about its level.
* `suspicion_accrues`: the states of a worker between two heartbeats.
* `Heard`, `heard_step`: what the times of the heartbeats say about a record.
* `check_by_times`: what a check finds, in terms of these times.
-/

namespace Pregel

open Lts
open HeartbeatDetector (ms)

/-! ### The suspicion level -/

namespace HeartbeatDetector

variable {K : Type} [Field K] [LinearOrder K] [IsStrictOrderedRing K] (lib : CMath K)

theorem sigma_pos (intervals : List Int) (mean : K) :
    0 < lib.sqrt ((intervals.map fun v => (millis v - mean) * (millis v - mean)).sum /
      intervals.length + 1 / 10 ^ 9) := by
  have hvar : 0 ≤ (intervals.map fun v =>
      (millis v - mean) * (millis v - mean)).sum / intervals.length := by
    apply div_nonneg
    · apply List.sum_nonneg
      intro x hx
      obtain ⟨v, -, rfl⟩ := List.mem_map.mp hx
      exact mul_self_nonneg _
    · exact Nat.cast_nonneg _
  exact lib.sqrt_pos _ (by positivity)

theorem computePhi_eq_level {rec : HeartbeatRecord} (hne : rec.intervals ≠ []) (now : Timestamp) :
    computePhi lib rec now = some (level lib rec.intervals (now - rec.lastSeen)) := by
  have hsize : (rec.intervals.length : K) ≠ 0 :=
    Nat.cast_ne_zero.mpr (List.length_eq_zero_iff.not.mpr hne)
  have htwo : lib.sqrt 2 ≠ 0 := (lib.sqrt_pos 2 two_pos).ne'
  simp only [computePhi, List.isEmpty_iff, hne, if_false, Option.bind_eq_bind, divide_of_ne _ hsize,
    divide_of_ne _ (sigma_pos lib rec.intervals _).ne', divide_of_ne _ htwo, Option.bind_some]
  rfl

theorem cdf_mono (erfc : Antitone lib.erfc) (intervals : List Int) : Monotone (cdf lib intervals) := by
  intro elapsed elapsed' hle
  have hsigma := sigma_pos lib intervals ((intervals.map millis).sum / intervals.length)
  have htwo : 0 < lib.sqrt 2 := lib.sqrt_pos 2 two_pos
  have hmillis : (millis elapsed : K) ≤ millis elapsed' := by
    unfold millis
    gcongr
  unfold cdf
  apply mul_le_mul_of_nonneg_left (erfc ?_) (by positivity)
  gcongr

/-- **The level grows with the time since the last heartbeat.** -/
theorem level_mono (erfc : Antitone lib.erfc) (log10 : MonotoneOn lib.log10 (Set.Ioi 0))
    (intervals : List Int) : Monotone (level lib intervals) := by
  intro elapsed elapsed' hle
  have htail : max (1 - cdf lib intervals elapsed') (1 / 10 ^ 15) ≤
      max (1 - cdf lib intervals elapsed) (1 / 10 ^ 15) :=
    max_le_max_right _ (sub_le_sub_left (cdf_mono lib erfc intervals hle) 1)
  have hpos : ∀ x : K, 0 < max x (1 / 10 ^ 15) := fun x => lt_max_of_lt_right (by positivity)
  exact neg_le_neg (log10 (hpos _) (hpos _) htail)

end HeartbeatDetector

/-- A worker in a worse state has a higher rank. -/
def NodeState.rank : NodeState → Nat
  | .alive => 0
  | .suspected => 1
  | .failed => 2
  | .recovered => 0

namespace FaultInjection

/-- A level that looks at the window and grows with the time since the last heartbeat. -/
def Accrues (computePhi : HeartbeatRecord → Timestamp → Rat) : Prop :=
  ∀ rec rec' now now', rec'.intervals = rec.intervals → rec'.lastSeen ≤ rec.lastSeen → now ≤ now' →
    computePhi rec now ≤ computePhi rec' now'

/-- `compute_phi` with a library whose `erfc` falls and whose `log10` rises. -/
theorem accrues_computePhi {lib : HeartbeatDetector.CMath Rat} (erfc : Antitone lib.erfc)
    (log10 : MonotoneOn lib.log10 (Set.Ioi 0)) :
    Accrues fun rec now => (HeartbeatDetector.computePhi lib rec now).getD 0 := by
  intro rec rec' now now' hwindow hseen hle
  by_cases hne : rec.intervals = []
  · have hne' : rec'.intervals = [] := hwindow.trans hne
    simp [HeartbeatDetector.computePhi, hne, hne']
  · have hne' : rec'.intervals ≠ [] := hwindow ▸ hne
    simp only [HeartbeatDetector.computePhi_eq_level lib hne,
      HeartbeatDetector.computePhi_eq_level lib hne', Option.getD_some, hwindow]
    exact HeartbeatDetector.level_mono lib erfc log10 _ (Int.sub_le_sub hle hseen)

/-! ### The record of a worker -/

/-- A suspected worker is still suspicious. -/
def Suspicious (computePhi : HeartbeatRecord → Timestamp → Rat) (threshold : Rat)
    (rec : HeartbeatRecord) (clock : Timestamp) : Prop :=
  rec.state = .suspected → threshold / 2 ≤ computePhi rec clock

/-- A check takes a worker no step back. -/
theorem rank_checkWorker {computePhi : HeartbeatRecord → Timestamp → Rat}
    (accrues : Accrues computePhi) {d : HeartbeatDetector} {rec : HeartbeatRecord}
    {clock now₁ now₂ : Timestamp} (h : Suspicious computePhi d.phiThreshold rec clock)
    (monotone₁ : clock ≤ now₁) (monotone₂ : now₁ ≤ now₂) :
    rec.state.rank ≤ (d.checkWorker rec (computePhi rec now₁) now₂).2.state.rank ∧
      Suspicious computePhi d.phiThreshold (d.checkWorker rec (computePhi rec now₁) now₂).2 now₂ := by
  have hlater := accrues rec rec clock now₁ rfl (Int.le_refl _) monotone₁
  unfold HeartbeatDetector.checkWorker
  by_cases hfailed : rec.state = .failed
  · rw [if_pos hfailed]
    refine ⟨Nat.le_refl _, fun hsuspected => ?_⟩
    rw [hfailed] at hsuspected
    cases hsuspected
  · rw [if_neg hfailed]
    split
    · refine ⟨?_, fun hsuspected => by cases hsuspected⟩
      cases rec.state <;> simp [NodeState.rank]
    · split
      · next hhalf =>
          refine ⟨?_, fun _ => hhalf.le.trans (accrues _ _ _ _ rfl (Int.le_refl _) monotone₂)⟩
          cases hstate : rec.state with
          | failed => exact absurd hstate hfailed
          | _ => simp [NodeState.rank]
      · next hlow =>
          -- a level that low was never suspected
          refine ⟨?_, fun hsuspected => by cases hsuspected⟩
          cases hstate : rec.state with
          | failed => exact absurd hstate hfailed
          | suspected => exact absurd ((h hstate).trans hlater) hlow
          | _ => simp [NodeState.rank]

section Runs

variable {σ μ : Type} [Addressed μ] {compute : Compute σ μ}
  {computePhi : HeartbeatRecord → Timestamp → Rat} {config : EngineConfig}
  {s t : State σ μ} {ev : Event μ} {w : WorkerId}

/-- **What a step does to a record**: nothing, a heartbeat, an injected fault or a check. -/
theorem record_cases (inv : Inv config s) (step : Step compute computePhi s ev t)
    {rec : HeartbeatRecord} (hrec : s.hb.records w = some rec) :
    ∃ rec', t.hb.records w = some rec' ∧ (rec' = rec ∨
      (∃ now, ev = .beat w now ∧ rec'.state = .alive) ∨
      (∃ n : Int, 0 ≤ n ∧ rec' = { rec with lastSeen := rec.lastSeen - n }) ∨
      ∃ now, s.clock ≤ now ∧ now ≤ t.clock ∧
        rec' = (s.hb.checkWorker rec (computePhi rec now) t.clock).2) := by
  have hother : ∀ c : HeartbeatDetector.Call, w ≠ c.worker →
      (s.hb.call c).2.records w = some rec := fun c hne =>
    ((HeartbeatDetector.call_frame inv.keyed c).2.2.1 w hne).trans hrec
  cases step with
  | @beat v now pc lock =>
      rcases eq_or_ne w v with rfl | hne
      · refine ⟨rec.beat now, ?_, .inr (.inl ⟨now, rfl, rfl⟩)⟩
        simp [HeartbeatDetector.receiveHeartbeat, hrec, HeartbeatDetector.setRecord]
      · exact ⟨rec, hother (.receive v now) hne, .inl rfl⟩
  | inject pc awake lock =>
      rcases eq_or_ne w target with rfl | hne
      · refine ⟨_, ?_, .inr (.inr (.inl ⟨HeartbeatDetector.ms (s.hb.timeoutMs * 10 % 2 ^ 32),
          ?_, rfl⟩))⟩
        · simp [HeartbeatDetector.injectFailure, hrec, HeartbeatDetector.setRecord]
        · unfold HeartbeatDetector.ms
          omega
      · exact ⟨rec, hother (.inject target) hne, .inl rfl⟩
  | @check v rest rec' now₁ now₂ pc record monotone₁ monotone₂ =>
      rcases eq_or_ne w v with rfl | hne
      · obtain rfl : rec = rec' := Option.some.inj (hrec.symm.trans record)
        refine ⟨_, ?_, .inr (.inr (.inr ⟨now₁, monotone₁, monotone₂, rfl⟩))⟩
        simp [HeartbeatDetector.check_of_record hrec, HeartbeatDetector.setRecord]
      · exact ⟨rec, hother (.check v _ now₂) hne, .inl rfl⟩
  | _ => exact ⟨rec, hrec, .inl rfl⟩

theorem threshold_step (step : Step compute computePhi s ev t) :
    t.hb.phiThreshold = s.hb.phiThreshold := by
  cases step with
  | beat => exact (HeartbeatDetector.call_settings (.receive _ _)).2
  | inject => exact (HeartbeatDetector.call_settings (.inject _)).2
  | check => exact (HeartbeatDetector.call_settings (.check _ _ _)).2
  | _ => rfl

theorem record_none (step : Step compute computePhi s ev t) (hrec : s.hb.records w = none) :
    t.hb.records w = none := by
  cases step with
  | beat => exact (HeartbeatDetector.call_records (.receive _ _)).2 w hrec
  | inject => exact (HeartbeatDetector.call_records (.inject _)).2 w hrec
  | check => exact (HeartbeatDetector.call_records (.check _ _ _)).2 w hrec
  | _ => exact hrec

/-! ### Between two heartbeats -/

/-- If worker `w` is suspected, its level is still that high. -/
def Grown (computePhi : HeartbeatRecord → Timestamp → Rat) (w : WorkerId) (s : State σ μ) : Prop :=
  ∀ rec, s.hb.records w = some rec → Suspicious computePhi s.hb.phiThreshold rec s.clock

omit [Addressed μ] in
theorem grown_start {vertices : List (Vertex σ μ)} {now : WorkerId → Timestamp} {clock : Timestamp} :
    Grown computePhi w (State.start config vertices now clock) := by
  intro rec hrec hsuspected
  simp only [State.start, HeartbeatDetector.onFailure, HeartbeatDetector.new] at hrec
  split at hrec
  · rw [← Option.some.inj hrec] at hsuspected
    cases hsuspected
  · cases hrec

/-- A step keeps the level, and takes the worker no step back unless it is a heartbeat. -/
theorem grown_step (accrues : Accrues computePhi) (inv : Inv config s) (h : Grown computePhi w s)
    (step : Step compute computePhi s ev t) :
    Grown computePhi w t ∧
      ((∀ now, ev ≠ .beat w now) → (s.hb.stateOf w).rank ≤ (t.hb.stateOf w).rank) := by
  have hclock := clock_step step
  have hthreshold := threshold_step step
  cases hrec : s.hb.records w with
  | none =>
      have hnone := record_none step hrec
      refine ⟨fun rec hsome => ?_, fun _ => ?_⟩
      · rw [hnone] at hsome
        cases hsome
      · simp [HeartbeatDetector.stateOf, hrec, hnone]
  | some rec =>
      have hold := h rec hrec
      obtain ⟨rec', hrec', hcase⟩ := record_cases inv step hrec
      have hrank : (s.hb.stateOf w).rank ≤ (t.hb.stateOf w).rank ↔
          rec.state.rank ≤ rec'.state.rank := by
        simp only [HeartbeatDetector.stateOf, hrec, hrec']
      have hgrown : Grown computePhi w t ↔
          Suspicious computePhi s.hb.phiThreshold rec' t.clock := by
        rw [← hthreshold]
        exact ⟨fun hall => hall rec' hrec', fun hone r hr =>
          Option.some.inj (hrec'.symm.trans hr) ▸ hone⟩
      rw [hgrown, hrank]
      rcases hcase with rfl | ⟨now, rfl, halive⟩ | ⟨n, hn, rfl⟩ | ⟨now, monotone₁, monotone₂, rfl⟩
      · exact ⟨fun hs => (hold hs).trans (accrues _ _ _ _ rfl (Int.le_refl _) hclock),
          fun _ => Nat.le_refl _⟩
      · refine ⟨fun hs => ?_, fun silent => absurd rfl (silent now)⟩
        rw [halive] at hs
        cases hs
      · exact ⟨fun hs => (hold hs).trans (accrues _ _ _ _ rfl (Int.sub_le_self _ hn) hclock),
          fun _ => Nat.le_refl _⟩
      · obtain ⟨hle, hsuspicious⟩ := rank_checkWorker (d := s.hb) accrues hold monotone₁ monotone₂
        exact ⟨hsuspicious, fun _ => hle⟩

/-- `compute_phi` with this library. -/
def suspicion (lib : HeartbeatDetector.CMath Rat) (rec : HeartbeatRecord) (now : Timestamp) : Rat :=
  (HeartbeatDetector.computePhi lib rec now).getD 0

/-- **Suspicion accrues.** Take any run of the three threads, with the suspicion levels that
`compute_phi` computes with an `erfc` that falls and a `log10` that rises, and any part of it in
which no heartbeat of worker `w` is received. Whatever is injected and whoever is checked when,
the worker goes from ALIVE over SUSPECTED to FAILED and never back. -/
theorem suspicion_accrues {lib : HeartbeatDetector.CMath Rat} (erfc : Antitone lib.erfc)
    (log10 : MonotoneOn lib.log10 (Set.Ioi 0)) {vertices : List (Vertex σ μ)}
    {now : WorkerId → Timestamp} {clock : Timestamp} (past : ∀ i, now i ≤ clock)
    {evs₁ evs : List (Event μ)}
    (before : Run (Step compute (suspicion lib)) (State.start config vertices now clock) evs₁ s)
    (run : Run (Step compute (suspicion lib)) s evs t) (silent : ∀ now, Event.beat w now ∉ evs) :
    (s.hb.stateOf w).rank ≤ (t.hb.stateOf w).rank := by
  have accrues : Accrues (suspicion lib) := accrues_computePhi erfc log10
  have hsteps : ∀ s ev t, Inv config s ∧ Grown (suspicion lib) w s →
      Step compute (suspicion lib) s ev t → Inv config t ∧ Grown (suspicion lib) w t :=
    fun s ev t h step => ⟨inv_step h.1 step, (grown_step accrues h.1 h.2 step).1⟩
  have hbefore := before.invariant _ hsteps ⟨inv_start config vertices past, grown_start⟩
  have hrank := run.invariant_of_labels
    (fun x => (Inv config x ∧ Grown (suspicion lib) w x) ∧
      (s.hb.stateOf w).rank ≤ (x.hb.stateOf w).rank)
    (fun x ev y silent h step => ⟨hsteps x ev y h.1 step,
      h.2.trans ((grown_step accrues h.1.1 h.1.2 step).2 silent)⟩)
    (fun ev hev now heq => silent now (heq ▸ hev)) ⟨hbefore, Nat.le_refl _⟩
  exact hrank.2

end Runs

/-- A library that is right about extreme values: far from zero `erfc` is 2 or 0, and `log10` is
-15 at 10^-15 and 0 at 1. -/
def coarse : HeartbeatDetector.CMath Rat where
  sqrt x := if x < 1 then 1 / 31623 else 99 / 70
  erfc x := if x < 0 then 2 else 0
  log10 x := if x < 1 then -15 else 0
  sqrt_pos x _ := by split <;> norm_num

/-- Worker 1 is checked at once, and again 600 ms later. -/
theorem suspicion_accrues_late : ∃ s t : State Nat Message, s.hb.stateOf 1 = .alive ∧
    t.hb.stateOf 1 = .failed ∧ (s.hb.stateOf 1).rank ≤ (t.hb.stateOf 1).rank := by
  have run : ∃ evs₁ s evs t, Run (Step idle (suspicion coarse)) faultStart evs₁ s ∧
      Run (Step idle (suspicion coarse)) s evs t ∧ (∀ now, Event.beat 1 now ∉ evs) ∧
      s.hb.stateOf 1 = .alive ∧ t.hb.stateOf 1 = .failed := by
    have first : Step idle (suspicion coarse) faultStart (.wake [1, 2]) _ := .wake rfl (.refl _)
    refine ⟨_, _, _, _, .cons first <| .cons (.check rfl rfl (Int.le_refl _) (Int.le_refl _)) <|
        .one (.check rfl rfl (Int.le_refl _) (Int.le_refl _)),
      .cons (.unlock rfl) <|
        .cons (show Step idle _ _ (.tick (ms 600)) _ from .tick (by decide)) <|
        .cons (.wake rfl (.refl [1, 2])) <|
        .one (.check rfl rfl (Int.le_refl _) (Int.le_refl _)), by simp, ?_, ?_⟩
    · decide +kernel
    · decide +kernel
  obtain ⟨evs₁, s, evs, t, before, run, silent, halive, hfailed⟩ := run
  have erfc : Antitone coarse.erfc := by
    intro x y hxy
    simp only [coarse]
    split <;> split <;> linarith
  have log10 : MonotoneOn coarse.log10 (Set.Ioi 0) := by
    intro x _ y _ hxy
    simp only [coarse]
    split <;> split <;> linarith
  exact ⟨s, t, halive, hfailed,
    suspicion_accrues erfc log10 (fun _ => Int.le_refl _) before run silent⟩

/-! ### The times of the heartbeats -/

/-- When a worker was last seen, and how long after that each of its heartbeats came. -/
structure Heard where
  lastSeen : Timestamp
  gaps : List Int := []
  deriving DecidableEq, Repr

namespace Heard

variable {μ : Type}

/-- One more event of the three threads. -/
def next (timeoutMs : Nat) (w : WorkerId) (h : Heard) : Event μ → Heard
  | .beat v now => if v = w then { lastSeen := now, gaps := h.gaps ++ [now - h.lastSeen] } else h
  | .inject =>
      if target = w then { h with lastSeen := h.lastSeen - ms (timeoutMs * 10 % 2 ^ 32) } else h
  | _ => h

/-- Worker `w`, since its record was created. -/
def of (timeoutMs : Nat) (w : WorkerId) (created : Timestamp) (evs : List (Event μ)) : Heard :=
  evs.foldl (next timeoutMs w) { lastSeen := created }

/-- The window that these times leave. -/
def window (intervalMs : Nat) (h : Heard) : List Int :=
  (List.replicate 8 (ms intervalMs) ++ HeartbeatDetector.measured h.gaps).rtake
    HeartbeatRecord.window

/-- What they say about a record. -/
structure Describes (intervalMs : Nat) (h : Heard) (rec : HeartbeatRecord) : Prop where
  lastSeen : rec.lastSeen = h.lastSeen
  rolling : HeartbeatDetector.Rolling (List.replicate 8 (ms intervalMs)) h.gaps rec

theorem Describes.window {intervalMs : Nat} {h : Heard} {rec : HeartbeatRecord}
    (describes : h.Describes intervalMs rec) : rec.intervals = h.window intervalMs :=
  describes.rolling.intervals

/-- The seeds alone fill half of the window. -/
theorem window_ne_nil (intervalMs : Nat) (h : Heard) : h.window intervalMs ≠ [] := by
  have hwindow : HeartbeatRecord.window = 16 := rfl
  rw [window, ← List.length_pos_iff, List.rtake, List.length_drop, List.length_append,
    List.length_replicate]
  omega

end Heard

section Times

variable {σ μ : Type} [Addressed μ] {compute : Compute σ μ}
  {computePhi : HeartbeatRecord → Timestamp → Rat} {config : EngineConfig}
  {s t : State σ μ} {ev : Event μ} {w : WorkerId}

/-- Every step keeps the record of a worker and what the times say about it. -/
theorem heard_step (inv : Inv config s) (step : Step compute computePhi s ev t) {h : Heard}
    {rec : HeartbeatRecord} (hrec : s.hb.records w = some rec)
    (describes : h.Describes config.heartbeatIntervalMs rec) :
    ∃ rec', t.hb.records w = some rec' ∧
      (h.next config.failureTimeoutMs w ev).Describes config.heartbeatIntervalMs rec' := by
  have hother : ∀ c : HeartbeatDetector.Call, w ≠ c.worker →
      (s.hb.call c).2.records w = some rec := fun c hne =>
    ((HeartbeatDetector.call_frame inv.keyed c).2.2.1 w hne).trans hrec
  cases step with
  | @beat v now pc lock =>
      rcases eq_or_ne v w with rfl | hne
      · refine ⟨rec.beat now, ?_, ?_⟩
        · simp [HeartbeatDetector.receiveHeartbeat, hrec, HeartbeatDetector.setRecord]
        · rw [Heard.next, if_pos rfl, ← describes.lastSeen]
          exact ⟨rfl, describes.rolling.beat now⟩
      · rw [Heard.next, if_neg hne]
        exact ⟨rec, hother (.receive v now) hne.symm, describes⟩
  | inject pc awake lock =>
      rcases eq_or_ne target w with heq | hne
      · obtain ⟨hcount, hintervals⟩ := describes.rolling
        refine ⟨{ rec with
          lastSeen := rec.lastSeen - ms (s.hb.timeoutMs * 10 % 2 ^ 32) }, ?_, ?_⟩
        · rw [heq]
          simp [HeartbeatDetector.injectFailure, hrec, HeartbeatDetector.setRecord]
        · rw [Heard.next, if_pos heq, ← describes.lastSeen, inv.timeoutMs]
          exact ⟨rfl, hcount, hintervals⟩
      · rw [Heard.next, if_neg hne]
        exact ⟨rec, hother (.inject target) hne.symm, describes⟩
  | @check v rest rec' now₁ now₂ pc record monotone₁ monotone₂ =>
      rcases eq_or_ne w v with rfl | hne
      · obtain rfl : rec = rec' := Option.some.inj (hrec.symm.trans record)
        obtain ⟨-, hseen, hintervals, hcount⟩ :=
          s.hb.checkWorker_frame rec (computePhi rec now₁) now₂
        refine ⟨(s.hb.checkWorker rec (computePhi rec now₁) now₂).2, ?_, ?_⟩
        · simp [HeartbeatDetector.check_of_record hrec, HeartbeatDetector.setRecord]
        · exact ⟨hseen.trans describes.lastSeen, hcount.trans describes.rolling.beatCount,
            hintervals.trans describes.rolling.intervals⟩
      · exact ⟨rec, hother (.check v _ now₂) hne, describes⟩
  | _ => exact ⟨rec, hrec, describes⟩

/-- The record of a worker after a run. -/
theorem heard_run {vertices : List (Vertex σ μ)} {now : WorkerId → Timestamp} {clock : Timestamp}
    (past : ∀ i, now i ≤ clock) (tracked : w < config.workerCount ∧ w ≠ 0) {evs : List (Event μ)}
    (run : Run (Step compute computePhi) (State.start config vertices now clock) evs s) :
    Inv config s ∧ s.hb.phiThreshold = 8 ∧ ∃ rec, s.hb.records w = some rec ∧
      (Heard.of config.failureTimeoutMs w (now w) evs).Describes config.heartbeatIntervalMs rec := by
  refine run.invariant_history (fun evs s => Inv config s ∧ s.hb.phiThreshold = 8 ∧
    ∃ rec, s.hb.records w = some rec ∧
      (Heard.of config.failureTimeoutMs w (now w) evs).Describes config.heartbeatIntervalMs rec) ?_
    ⟨inv_start config vertices past, rfl, ?_⟩
  · rintro evs s ev t ⟨inv, threshold, rec, hrec, describes⟩ step
    refine ⟨inv_step inv step, (threshold_step step).trans threshold, ?_⟩
    rw [Heard.of, List.foldl_concat]
    exact heard_step inv step hrec describes
  · refine ⟨{
      workerId := w
      lastSeen := now w
      intervals := List.replicate 8 (ms config.heartbeatIntervalMs) }, ?_, rfl, rfl, rfl⟩
    exact if_pos tracked

/-- **What a check finds**, in terms of the times of the heartbeats. Take any run of the three
threads, with the suspicion levels that `compute_phi` computes, and a check of worker 1 after it.
The check marks the worker FAILED and fires the callback if and only if the worker is not FAILED
yet and one of two things holds of the time since it was last seen: its level over the window is
8 or more, or it is longer than the timeout. An injected fault counts as ten timeouts, in this time
or, if a heartbeat has come since, in the window. -/
theorem check_by_times {lib : HeartbeatDetector.CMath Rat} {vertices : List (Vertex σ μ)}
    {now : WorkerId → Timestamp} {clock : Timestamp} (past : ∀ i, now i ≤ clock)
    (tracked : target < config.workerCount) {evs : List (Event μ)}
    (run : Run (Step compute (suspicion lib)) (State.start config vertices now clock) evs s)
    {now₁ now₂ : Timestamp} {fired : List Callback}
    (check : Step compute (suspicion lib) s (.check target now₁ now₂ fired) t) :
    let h := Heard.of config.failureTimeoutMs target (now target) evs
    Detected s t fired ↔ s.hb.stateOf target ≠ .failed ∧
      (8 ≤ HeartbeatDetector.level lib (h.window config.heartbeatIntervalMs) (now₁ - h.lastSeen) ∨
        ms config.failureTimeoutMs < now₂ - h.lastSeen) := by
  intro h
  obtain ⟨inv, threshold, rec, hrec, describes⟩ := heard_run past ⟨tracked, by decide⟩ run
  obtain ⟨rec', hrec', -, hdetected⟩ := detected_iff inv check
  obtain rfl : rec = rec' := Option.some.inj (hrec.symm.trans hrec')
  have hlevel : suspicion lib rec now₁ =
      HeartbeatDetector.level lib (h.window config.heartbeatIntervalMs) (now₁ - h.lastSeen) := by
    have hne : rec.intervals ≠ [] := by
      rw [describes.window]
      exact h.window_ne_nil _
    rw [suspicion, HeartbeatDetector.computePhi_eq_level lib hne, Option.getD_some, describes.window,
      describes.lastSeen]
  have hstate : s.hb.stateOf target = rec.state := by
    simp [HeartbeatDetector.stateOf, hrec]
  rw [hdetected, hstate, hlevel, threshold, inv.timeoutMs, describes.lastSeen]

end Times

/-- The fault is injected after half a second. The worker is found, by the time that has passed
since then and the ten timeouts. -/
theorem check_by_times_injected : ∃ s t : State Nat Message, ∃ fired,
    Run (Step idle (suspicion coarse)) faultStart [.tick (ms 500), .inject, .wake [1, 2]] s ∧
      Step idle (suspicion coarse) s (.check target (ms 501) (ms 502) fired) t ∧
      Detected s t fired := by
  have run : ∃ s t fired,
      Run (Step idle (suspicion coarse)) faultStart [.tick (ms 500), .inject, .wake [1, 2]] s ∧
      Step idle (suspicion coarse) s (.check target (ms 501) (ms 502) fired) t ∧
      s.hb.stateOf target = .alive :=
    ⟨_, _, _, .cons (.tick (by decide)) <| .cons (.inject rfl (by decide) rfl) <|
      .one (.wake rfl (by decide)), .check rfl rfl (by decide) (by decide), rfl⟩
  obtain ⟨s, t, fired, run, check, halive⟩ := run
  refine ⟨s, t, fired, run, check, (check_by_times (fun _ => Int.le_refl _) (by decide) run
    check).mpr ⟨by simp [halive], .inr (by decide)⟩⟩

end FaultInjection

end Pregel
