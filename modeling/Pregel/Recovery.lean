import Pregel.Coordinator
import Pregel.Heartbeat

/-!
The choice of a worker for the partition of a failed one (`handle_worker_failure` in
`coordinator.cpp`) and the detector's record of who has failed (`failed_workers` in
`heartbeat.cpp`).

The scan over the workers passes over the worker that fails now and over no other one.
The detector is the coordinator's own: it runs with the local id 0, so that worker 0 has
no record and never fails.

* `newOwner_spec`: the scan finds the first worker with the fewest vertices among all
  workers but the one that fails now.
* `recovery_target_iff`: when this is a live worker with the fewest vertices.
-/

namespace Pregel

open Lts

namespace GraphEngine

variable {σ μ : Type} {e : GraphEngine σ μ} {failed : Nat}

/-- The scan prefers worker `w` to worker `g`: it has fewer vertices, or as many and comes
first. -/
def Ahead (e : GraphEngine σ μ) (w g : Nat) : Prop :=
  (e.workers w).vertexCount < (e.workers g).vertexCount ∨
    (e.workers w).vertexCount = (e.workers g).vertexCount ∧ w < g

theorem Ahead.le {w g : Nat} (h : e.Ahead w g) :
    (e.workers w).vertexCount ≤ (e.workers g).vertexCount := by
  rcases h with hlt | ⟨heq, -⟩
  · exact hlt.le
  · exact heq.le

theorem Ahead.asymm {w g : Nat} (h : e.Ahead w g) : ¬ e.Ahead g w := by
  unfold Ahead at h ⊢
  omega

/-- The variables of the scan after the first `n` workers: no worker so far counted below
`SIZE_MAX`, or the best one is ahead of all others. -/
def Scanned (e : GraphEngine σ μ) (failed n : Nat) (best : Nat × Nat) : Prop :=
  (best = (0, sizeMax) ∧ ∀ i < n, i ≠ failed → sizeMax ≤ (e.workers i).vertexCount) ∨
    (best.1 < n ∧ best.1 ≠ failed ∧ best.2 = (e.workers best.1).vertexCount ∧ best.2 < sizeMax ∧
      ∀ i < n, i ≠ failed → i ≠ best.1 → e.Ahead best.1 i)

theorem scanned_succ {n : Nat} {best : Nat × Nat} (hid : (e.workers n).id = n)
    (h : Scanned e failed n best) :
    Scanned e failed (n + 1) (pickOwner failed best (e.workers n)) := by
  unfold pickOwner
  rw [hid]
  rcases eq_or_ne n failed with rfl | hne
  · rw [if_pos rfl]
    rcases h with ⟨hbest, hfull⟩ | ⟨hlt, hother, hcount, hmax, hahead⟩
    · exact Or.inl ⟨hbest, fun i hi hif => hfull i (by omega) hif⟩
    · exact Or.inr ⟨by omega, hother, hcount, hmax, fun i hi hif => hahead i (by omega) hif⟩
  · rw [if_neg hne]
    split
    · rename_i hfewer
      refine Or.inr ⟨by simp, hne, rfl, ?_, fun i hi hif hin => Or.inl ?_⟩
      · rcases h with ⟨rfl, -⟩ | ⟨-, -, -, hmax, -⟩
        · exact hfewer
        · exact hfewer.trans hmax
      · have hi : i < n := by
          have : i ≠ n := hin
          omega
        rcases h with ⟨rfl, hfull⟩ | ⟨-, -, hcount, -, hahead⟩
        · exact hfewer.trans_le (hfull i hi hif)
        · rcases eq_or_ne i best.1 with rfl | hib
          · rw [← hcount]
            exact hfewer
          · rw [hcount] at hfewer
            exact hfewer.trans_le (hahead i hi hif hib).le
    · rename_i hmore
      rcases h with ⟨rfl, hfull⟩ | ⟨hlt, hother, hcount, hmax, hahead⟩
      · refine Or.inl ⟨rfl, fun i hi hif => ?_⟩
        rcases Nat.lt_succ_iff_lt_or_eq.mp hi with hi | rfl
        · exact hfull i hi hif
        · exact not_lt.mp hmore
      · refine Or.inr ⟨by omega, hother, hcount, hmax, fun i hi hif hib => ?_⟩
        rcases Nat.lt_succ_iff_lt_or_eq.mp hi with hi | rfl
        · exact hahead i hi hif hib
        · rw [hcount, not_lt] at hmore
          exact hmore.lt_or_eq.imp_right fun heq => ⟨heq, hlt⟩

theorem scanned_range {n : Nat} (ids : ∀ i < n, (e.workers i).id = i) :
    Scanned e failed n
      (((List.range n).map e.workers).foldl (pickOwner failed) (0, sizeMax)) := by
  induction n with
  | zero => exact Or.inl ⟨rfl, fun i hi => absurd hi (Nat.not_lt_zero i)⟩
  | succ n ih =>
      rw [List.range_succ, List.map_append, List.foldl_append]
      exact scanned_succ (ids n (Nat.lt_succ_self n)) (ih fun i hi => ids i (by omega))

/-- **What the scan finds**, if the worker that fails now is not worker 0. -/
theorem newOwner_spec (ids : ∀ i < e.config.workerCount, (e.workers i).id = i)
    (sizes : ∀ i < e.config.workerCount, (e.workers i).vertexCount ≤ sizeMax)
    (hpos : failed ≠ 0) (hfailed : failed < e.config.workerCount) :
    e.newOwner failed < e.config.workerCount ∧ e.newOwner failed ≠ failed ∧
      ∀ i < e.config.workerCount, i ≠ failed → i ≠ e.newOwner failed →
        e.Ahead (e.newOwner failed) i := by
  have hscanned : Scanned e failed e.config.workerCount _ := scanned_range ids
  rcases hscanned with ⟨hbest, hfull⟩ | ⟨hlt, hother, -, -, hahead⟩
  · -- every other worker counts `SIZE_MAX`, and the scan is left with its initial value
    have hzero : e.newOwner failed = 0 := congrArg Prod.fst hbest
    rw [hzero]
    have hfirst : 0 < e.config.workerCount := Nat.zero_lt_of_lt hfailed
    refine ⟨hfirst, hpos.symm, fun i hi hif hi0 => Or.inr ⟨?_, Nat.pos_of_ne_zero hi0⟩⟩
    have hmost : ∀ j < e.config.workerCount, j ≠ failed → (e.workers j).vertexCount = sizeMax :=
      fun j hj hjf => le_antisymm (sizes j hj) (hfull j hj hjf)
    rw [hmost 0 hfirst hpos.symm, hmost i hi hif]
  · exact ⟨hlt, hother, hahead⟩

/-- Worker `w` is not among `down`, and no such worker has fewer vertices. -/
def LeastLoaded (e : GraphEngine σ μ) (down : List WorkerId) (w : WorkerId) : Prop :=
  w < e.config.workerCount ∧ w ∉ down ∧
    ∀ i < e.config.workerCount, i ∉ down → (e.workers w).vertexCount ≤ (e.workers i).vertexCount

/-- The choice when worker 0 is up. -/
theorem newOwner_leastLoaded_iff {down : List WorkerId}
    (ids : ∀ i < e.config.workerCount, (e.workers i).id = i)
    (sizes : ∀ i < e.config.workerCount, (e.workers i).vertexCount ≤ sizeMax)
    (hzero : 0 ∉ down) (hfailed : failed ∈ down) (hlt : failed < e.config.workerCount) :
    e.LeastLoaded down (e.newOwner failed) ↔
      ∀ g ∈ down, g < e.config.workerCount → g ≠ failed →
        ∃ w < e.config.workerCount, w ∉ down ∧ e.Ahead w g := by
  have hpos : failed ≠ 0 := by
    rintro rfl
    exact hzero hfailed
  obtain ⟨howner, hother, hahead⟩ := newOwner_spec ids sizes hpos hlt
  constructor
  · rintro ⟨-, hup, -⟩ g hg hgn hgf
    refine ⟨e.newOwner failed, howner, hup, hahead g hgn hgf ?_⟩
    rintro rfl
    exact hup hg
  · intro hlive
    have hup : e.newOwner failed ∉ down := by
      intro hdown
      obtain ⟨w, hw, hwup, hwahead⟩ := hlive _ hdown howner hother
      exact hwahead.asymm
        (hahead w hw (fun heq => hwup (heq ▸ hfailed)) fun heq => hwup (heq ▸ hdown))
    refine ⟨howner, hup, fun i hi hiup => ?_⟩
    rcases eq_or_ne i (e.newOwner failed) with rfl | hne
    · exact le_refl _
    · exact (hahead i hi (fun heq => hiup (heq ▸ hfailed)) hne).le

end GraphEngine

namespace Coordinator

open HeartbeatDetector (new)

section Detector

variable {workerCount intervalMs timeoutMs : Nat} {phiThreshold : Rat}
  {now : WorkerId → Timestamp} {evs : List HeartbeatDetector.Event} {d : HeartbeatDetector}

/-- The coordinator's detector never marks worker 0 FAILED. -/
theorem failedWorkers_of_run
    (run : Run HeartbeatDetector.Step
      (new 0 workerCount intervalMs timeoutMs phiThreshold now).onFailure evs d) :
    0 ∉ d.failedWorkers ∧ ∀ w ∈ d.failedWorkers, w < workerCount := by
  obtain ⟨hcount, hrecord⟩ : d.workerCount = workerCount ∧ d.records 0 = none := by
    refine run.invariant (fun d => d.workerCount = workerCount ∧ d.records 0 = none) ?_
      ⟨rfl, by simp [HeartbeatDetector.onFailure, new]⟩
    rintro d₁ ev d₂ ⟨hcount, hrecord⟩ step
    obtain ⟨hsame, hnone⟩ := HeartbeatDetector.call_records (d := d₁) ev.1
    rw [step] at hsame hnone
    exact ⟨hsame.trans hcount, hnone 0 hrecord⟩
  constructor
  · simp [HeartbeatDetector.failedWorkers, HeartbeatDetector.stateOf, hrecord]
  · intro w hw
    rw [← hcount]
    exact List.mem_range.mp (List.mem_filter.mp hw).1

end Detector

/-- **When the choice is a live worker with the fewest vertices.** Take any workers with
any vertex counts and any run of the coordinator's detector. The worker that
`handle_worker_failure` chooses when `failed` has been marked FAILED is not FAILED and has
the fewest vertices of those that are not, if and only if for every worker that failed
before there is a live one that the scan prefers to it. -/
theorem recovery_target_iff {σ μ : Type} {e : GraphEngine σ μ}
    (ids : ∀ i < e.config.workerCount, (e.workers i).id = i)
    (sizes : ∀ i < e.config.workerCount, (e.workers i).vertexCount ≤ GraphEngine.sizeMax)
    {intervalMs timeoutMs : Nat} {phiThreshold : Rat} {now : WorkerId → Timestamp}
    {evs : List HeartbeatDetector.Event} {d : HeartbeatDetector}
    (run : Run HeartbeatDetector.Step
      (new 0 e.config.workerCount intervalMs timeoutMs phiThreshold now).onFailure evs d)
    {failed : WorkerId} (hfailed : failed ∈ d.failedWorkers) :
    e.LeastLoaded d.failedWorkers (e.newOwner failed) ↔
      ∀ g ∈ d.failedWorkers, g ≠ failed →
        ∃ w < e.config.workerCount, w ∉ d.failedWorkers ∧ e.Ahead w g := by
  obtain ⟨hzero, hlt⟩ := failedWorkers_of_run run
  rw [GraphEngine.newOwner_leastLoaded_iff ids sizes hzero hfailed (hlt failed hfailed)]
  exact ⟨fun h g hg => h g hg (hlt g hg), fun h g hg _ => h g hg⟩

/-- Three workers, the first two with a vertex each. Worker 2 fails after worker 1, and
worker 0 is chosen: it has as many vertices as worker 1 and comes first. -/
theorem recovery_target_first :
    let e : GraphEngine Nat Message := GraphEngine.pair { workerCount := 3 }
    ∃ d, Run HeartbeatDetector.Step (new 0 3 500 2000 8 fun _ => 0).onFailure
        [(.check 1 9 1, [.failure 1]), (.check 2 9 2, [.failure 2])] d ∧
      d.failedWorkers = [1, 2] ∧ e.LeastLoaded d.failedWorkers (e.newOwner 2) := by
  intro e
  have run : Run HeartbeatDetector.Step (new 0 3 500 2000 8 fun _ => 0).onFailure
      [(.check 1 9 1, [.failure 1]), (.check 2 9 2, [.failure 2])] _ :=
    .cons (HeartbeatDetector.step_call (by decide +kernel))
      (.one (HeartbeatDetector.step_call (by decide +kernel)))
  have hdown : ((new 0 3 500 2000 8 fun _ => 0).onFailure.call (.check 1 9 1)).2.call
      (.check 2 9 2) |>.2.failedWorkers = [1, 2] := by decide +kernel
  have ids : ∀ i < e.config.workerCount, (e.workers i).id = i := by
    intro i _
    show ((GraphEngine.load { workerCount := 3 } GraphEngine.pairVertices).workers i).id = i
    rw [GraphEngine.load_worker]
    rfl
  refine ⟨_, run, hdown, ?_⟩
  apply (recovery_target_iff ids (by decide +kernel) run (by rw [hdown]; simp)).mpr
  intro g hg hne
  rw [hdown] at hg ⊢
  rcases List.mem_pair.mp hg with rfl | rfl
  · exact ⟨0, by decide, by decide, Or.inr ⟨by decide +kernel, Nat.zero_lt_one⟩⟩
  · exact absurd rfl hne

/-- Worker 2, which has no vertex, fails first. When worker 1 fails, worker 2 is chosen,
though worker 0 is the only live one. -/
theorem recovery_target_failed_before :
    let e : GraphEngine Nat Message := GraphEngine.pair { workerCount := 3 }
    let c : Coordinator Nat Message := { engine := e }
    ∃ d, Run HeartbeatDetector.Step (new 0 3 500 2000 8 fun _ => 0).onFailure
        [(.check 2 9 1, [.failure 2]), (.check 1 9 2, [.failure 1])] d ∧
      d.failedWorkers = [1, 2] ∧ 0 ∉ d.failedWorkers ∧
      (c.handleWorkerFailure 1).log =
        ["[COORDINATOR] Reassigning partition from worker 1 to worker 2\n"] ∧
      e.newOwner 1 = 2 ∧ ¬ e.LeastLoaded d.failedWorkers (e.newOwner 1) := by
  intro e c
  have run : Run HeartbeatDetector.Step (new 0 3 500 2000 8 fun _ => 0).onFailure
      [(.check 2 9 1, [.failure 2]), (.check 1 9 2, [.failure 1])] _ :=
    .cons (HeartbeatDetector.step_call (by decide +kernel))
      (.one (HeartbeatDetector.step_call (by decide +kernel)))
  have hdown : ((new 0 3 500 2000 8 fun _ => 0).onFailure.call (.check 2 9 1)).2.call
      (.check 1 9 2) |>.2.failedWorkers = [1, 2] := by decide +kernel
  have howner : e.newOwner 1 = 2 := by decide +kernel
  refine ⟨_, run, hdown, by rw [hdown]; simp, by decide +kernel, howner, fun h => h.2.1 ?_⟩
  rw [hdown, howner]
  simp

end Coordinator

end Pregel
