import Mathlib.Data.Fintype.Card
import Pregel.Lib.Lts

/-!
The global barrier (`MessageBus::barrier_sync`).

All buses share one arrival counter and one 32-bit epoch. A caller loads the
epoch, adds itself to the counter, and is then either the last of the round, who
resets the counter and increments the epoch in two separate steps, or waits until
a re-load of the epoch shows a change. `Step` has one transition for each of these
atomic accesses; `N` callers interleave freely and each makes `calls` calls.

The invariant `Inv` ties every caller's program point to the number of rounds
completed so far:

* a caller outside the barrier has completed all of them;
* a caller that waits has either loaded the current epoch, and then takes part in
  the current round, or the one before, and then it has been released;
* the counter counts the callers that wait in the current round, until the last
  one comes: from there to the epoch flip every other caller waits.

The epoch only has to differ from its successor, so wrap-around is harmless.
-/

namespace Pregel.Barrier

open Lts

/-- Where a caller stands in `barrier_sync`: before the call, after the load of
the epoch, as the last arrival before and after the reset of the counter, and in
the waiting loop. -/
inductive Pc where
  | outside
  | loaded (epoch : UInt32)
  | last
  | cleared
  | waiting (epoch : UInt32)
  deriving DecidableEq, Repr

/-- The shared counter and epoch, and the callers. `entered`, `returned`,
`arrivals` and `resets` record history: calls begun and ended by each caller,
`fetch_add`s of the counter, and stores of zero to it. -/
structure State (N : Nat) where
  counter : Nat
  epoch : UInt32
  pc : Fin N → Pc
  entered : Fin N → Nat
  returned : Fin N → Nat
  arrivals : Nat
  resets : Nat

/-- Counter zero, any epoch, nobody inside. -/
def State.init (N : Nat) (epoch : UInt32) : State N where
  counter := 0
  epoch := epoch
  pc := fun _ => .outside
  entered := fun _ => 0
  returned := fun _ => 0
  arrivals := 0
  resets := 0

inductive Action where
  | loadEpoch
  | fetchAdd
  | resetCounter
  | flipEpoch
  | reload
  deriving DecidableEq, Repr

/-- The atomic accesses of `barrier_sync(step, N)`. -/
inductive Step {N : Nat} (calls : Nat) : State N → Fin N × Action → State N → Prop where
  | loadEpoch {s : State N} {w : Fin N} (pc : s.pc w = .outside) (more : s.entered w < calls) :
      Step calls s (w, .loadEpoch)
        { s with
          pc := Function.update s.pc w (.loaded s.epoch)
          entered := Function.update s.entered w (s.entered w + 1) }
  | fetchAddLast {s : State N} {w : Fin N} {e : UInt32} (pc : s.pc w = .loaded e)
      (arrived : s.counter + 1 = N) :
      Step calls s (w, .fetchAdd)
        { s with
          counter := s.counter + 1
          arrivals := s.arrivals + 1
          pc := Function.update s.pc w .last }
  | fetchAddWait {s : State N} {w : Fin N} {e : UInt32} (pc : s.pc w = .loaded e)
      (arrived : s.counter + 1 ≠ N) :
      Step calls s (w, .fetchAdd)
        { s with
          counter := s.counter + 1
          arrivals := s.arrivals + 1
          pc := Function.update s.pc w (.waiting e) }
  | resetCounter {s : State N} {w : Fin N} (pc : s.pc w = .last) :
      Step calls s (w, .resetCounter)
        { s with
          counter := 0
          resets := s.resets + 1
          pc := Function.update s.pc w .cleared }
  | flipEpoch {s : State N} {w : Fin N} (pc : s.pc w = .cleared) :
      Step calls s (w, .flipEpoch)
        { s with
          epoch := s.epoch + 1
          pc := Function.update s.pc w .outside
          returned := Function.update s.returned w (s.returned w + 1) }
  | reloadSame {s : State N} {w : Fin N} {e : UInt32} (pc : s.pc w = .waiting e)
      (same : s.epoch = e) : Step calls s (w, .reload) s
  | reloadChanged {s : State N} {w : Fin N} {e : UInt32} (pc : s.pc w = .waiting e)
      (changed : s.epoch ≠ e) :
      Step calls s (w, .reload)
        { s with
          pc := Function.update s.pc w .outside
          returned := Function.update s.returned w (s.returned w + 1) }

variable {N : Nat}

/-- The callers that wait for the current epoch to change. -/
def gathered (s : State N) : Finset (Fin N) :=
  Finset.univ.filter fun w => s.pc w = .waiting s.epoch

/-- One caller, when `rounds` rounds are complete. -/
def CallerOk (rounds : Nat) (s : State N) (w : Fin N) : Prop :=
  match s.pc w with
  | .outside => s.returned w = rounds ∧ s.entered w = rounds
  | .loaded e => s.returned w = rounds ∧ s.entered w = rounds + 1 ∧ e = s.epoch
  | .last => s.returned w = rounds ∧ s.entered w = rounds + 1
  | .cleared => s.returned w = rounds ∧ s.entered w = rounds + 1
  | .waiting e => s.entered w = s.returned w + 1 ∧
      ((s.returned w = rounds ∧ e = s.epoch) ∨ (s.returned w + 1 = rounds ∧ e + 1 = s.epoch))

/-- The counter against the callers: callers gather; the last one has come; the
last one has reset the counter. -/
inductive CounterOk (s : State N) : Prop where
  | gathering (nobody : ∀ w, s.pc w ≠ .last ∧ s.pc w ≠ .cleared)
      (count : s.counter = (gathered s).card) (room : s.counter < N)
  | full (w : Fin N) (pc : s.pc w = .last) (others : ∀ w' ≠ w, s.pc w' = .waiting s.epoch)
      (count : s.counter = N)
  | cleared (w : Fin N) (pc : s.pc w = .cleared)
      (others : ∀ w' ≠ w, s.pc w' = .waiting s.epoch) (count : s.counter = 0)

structure Inv (rounds : Nat) (s : State N) : Prop where
  callers : ∀ w, CallerOk rounds s w
  counter : CounterOk s
  arrivals : s.arrivals = s.counter + N * s.resets

theorem epoch_succ_ne (e : UInt32) : e + 1 ≠ e := by
  intro h
  have h1 : (1 : UInt32) = 0 := by
    have hsub := congrArg (fun x => x - e) h
    simp [UInt32.add_comm e 1] at hsub
  exact absurd h1 (by decide)

theorem inv_init (hN : 0 < N) (e : UInt32) : Inv 0 (State.init N e) where
  callers w := ⟨rfl, rfl⟩
  counter := .gathering (fun w => ⟨nofun, nofun⟩) (by simp [gathered, State.init]) hN
  arrivals := by simp [State.init]

/-! ### Every access keeps the invariant -/

/-- While someone is neither waiting nor the last, callers still gather. -/
theorem Inv.gathering {rounds : Nat} {s : State N} (inv : Inv rounds s) {w : Fin N}
    (hlast : s.pc w ≠ .last) (hcleared : s.pc w ≠ .cleared)
    (hwait : s.pc w ≠ .waiting s.epoch) :
    (∀ w, s.pc w ≠ .last ∧ s.pc w ≠ .cleared) ∧ s.counter = (gathered s).card ∧
      s.counter < N := by
  cases inv.counter with
  | gathering nobody count room => exact ⟨nobody, count, room⟩
  | full v pc others count =>
      by_cases hv : w = v
      · exact absurd (hv ▸ pc) hlast
      · exact absurd (others w hv) hwait
  | cleared v pc others count =>
      by_cases hv : w = v
      · exact absurd (hv ▸ pc) hcleared
      · exact absurd (others w hv) hwait

/-- The last arrival has all others waiting. -/
theorem Inv.others_of_last {rounds : Nat} {s : State N} (inv : Inv rounds s) {w : Fin N}
    (hpc : s.pc w = .last) :
    (∀ w' ≠ w, s.pc w' = .waiting s.epoch) ∧ s.counter = N := by
  cases inv.counter with
  | gathering nobody => exact absurd hpc (nobody w).1
  | full v hv others count =>
      by_cases hwv : w = v
      · subst hwv
        exact ⟨others, count⟩
      · simp [others w hwv] at hpc
  | cleared v hv others count =>
      by_cases hwv : w = v
      · subst hwv
        simp [hv] at hpc
      · simp [others w hwv] at hpc

/-- So has the one that has reset the counter. -/
theorem Inv.others_of_cleared {rounds : Nat} {s : State N} (inv : Inv rounds s) {w : Fin N}
    (hpc : s.pc w = .cleared) :
    (∀ w' ≠ w, s.pc w' = .waiting s.epoch) ∧ s.counter = 0 := by
  cases inv.counter with
  | gathering nobody => exact absurd hpc (nobody w).2
  | full v hv others count =>
      by_cases hwv : w = v
      · subst hwv
        simp [hv] at hpc
      · simp [others w hwv] at hpc
  | cleared v hv others count =>
      by_cases hwv : w = v
      · subst hwv
        exact ⟨others, count⟩
      · simp [others w hwv] at hpc

/-- While the epoch stays, only the caller that moves has to be looked at. -/
theorem Inv.callers_update {rounds : Nat} {s t : State N} (inv : Inv rounds s) {w : Fin N} {pc : Pc}
    (hpc : t.pc = Function.update s.pc w pc) (hepoch : t.epoch = s.epoch)
    (hentered : ∀ w' ≠ w, t.entered w' = s.entered w')
    (hreturned : ∀ w' ≠ w, t.returned w' = s.returned w') (hw : CallerOk rounds t w) (w' : Fin N) :
    CallerOk rounds t w' := by
  by_cases hne : w' = w
  · exact hne ▸ hw
  · have h := inv.callers w'
    unfold CallerOk at h ⊢
    rw [hpc, Function.update_of_ne hne, hepoch, hentered w' hne, hreturned w' hne]
    exact h

theorem nobody_update {s : State N} (nobody : ∀ w, s.pc w ≠ .last ∧ s.pc w ≠ .cleared) (w : Fin N)
    {pc : Pc} (hlast : pc ≠ .last) (hcleared : pc ≠ .cleared) (w' : Fin N) :
    Function.update s.pc w pc w' ≠ .last ∧ Function.update s.pc w pc w' ≠ .cleared := by
  by_cases hw : w' = w
  · subst hw
    rw [Function.update_self]
    exact ⟨hlast, hcleared⟩
  · rw [Function.update_of_ne hw]
    exact nobody w'

/-- If all but one slot is gathered, the one outside sees all others in. -/
theorem others_gathered {s : State N} {w : Fin N} (hw : w ∉ gathered s)
    (hcard : (gathered s).card + 1 = N) : ∀ w' ≠ w, s.pc w' = .waiting s.epoch := by
  have hall : insert w (gathered s) = Finset.univ := by
    apply (Finset.card_eq_iff_eq_univ _).mp
    rw [Finset.card_insert_of_notMem hw, hcard, Fintype.card_fin]
  intro w' hne
  have hmem : w' ∈ insert w (gathered s) := hall ▸ Finset.mem_univ w'
  rcases Finset.mem_insert.mp hmem with h | h
  · exact absurd h hne
  · exact (Finset.mem_filter.mp h).2

/-- A caller that moves between points that do not wait leaves the gathered set. -/
theorem gathered_update {s t : State N} {w : Fin N} {pc : Pc}
    (hpc : t.pc = Function.update s.pc w pc) (hepoch : t.epoch = s.epoch)
    (hbefore : s.pc w ≠ .waiting s.epoch) (hafter : pc ≠ .waiting s.epoch) :
    gathered t = gathered s := by
  ext w'
  by_cases hw : w' = w
  · subst hw
    simp [gathered, hpc, hepoch, hbefore, hafter]
  · simp [gathered, hpc, hepoch, Function.update_of_ne hw]

theorem Inv.loadEpoch {rounds : Nat} {s : State N} (inv : Inv rounds s) {w : Fin N}
    (pc : s.pc w = .outside) :
    Inv rounds { s with
      pc := Function.update s.pc w (.loaded s.epoch)
      entered := Function.update s.entered w (s.entered w + 1) } := by
  obtain ⟨nobody, count, room⟩ :=
    inv.gathering (w := w) (by simp [pc]) (by simp [pc]) (by simp [pc])
  have hcaller := inv.callers w
  simp only [CallerOk, pc] at hcaller
  refine ⟨inv.callers_update rfl rfl (fun _ hw => Function.update_of_ne hw _ _) (fun _ _ => rfl) ?_,
    .gathering (nobody_update nobody w nofun nofun) ?_ room, inv.arrivals⟩
  · simp [CallerOk, hcaller.1, hcaller.2]
  · refine count.trans (congrArg Finset.card (Eq.symm ?_))
    exact gathered_update rfl rfl (by simp [pc]) (by simp)

theorem Inv.fetchAddLast {rounds : Nat} {s : State N} (inv : Inv rounds s) {w : Fin N} {e : UInt32}
    (pc : s.pc w = .loaded e) (arrived : s.counter + 1 = N) :
    Inv rounds { s with
      counter := s.counter + 1
      arrivals := s.arrivals + 1
      pc := Function.update s.pc w .last } := by
  obtain ⟨-, count, -⟩ := inv.gathering (w := w) (by simp [pc]) (by simp [pc]) (by simp [pc])
  have hothers := others_gathered (s := s) (w := w) (by simp [gathered, pc])
    (by rw [← count]; exact arrived)
  have hcaller := inv.callers w
  have harrivals := inv.arrivals
  simp only [CallerOk, pc] at hcaller
  refine ⟨inv.callers_update rfl rfl (fun _ _ => rfl) (fun _ _ => rfl) ?_,
    .full w (by simp) (fun w' hw => ?_) arrived, ?_⟩
  · simp [CallerOk, hcaller.1, hcaller.2.1]
  · simpa [Function.update_of_ne hw] using hothers w' hw
  · simp only
    omega

theorem Inv.fetchAddWait {rounds : Nat} {s : State N} (inv : Inv rounds s) {w : Fin N} {e : UInt32}
    (pc : s.pc w = .loaded e) (arrived : s.counter + 1 ≠ N) :
    Inv rounds { s with
      counter := s.counter + 1
      arrivals := s.arrivals + 1
      pc := Function.update s.pc w (.waiting e) } := by
  obtain ⟨nobody, count, room⟩ :=
    inv.gathering (w := w) (by simp [pc]) (by simp [pc]) (by simp [pc])
  have hcaller := inv.callers w
  have harrivals := inv.arrivals
  simp only [CallerOk, pc] at hcaller
  obtain ⟨hret, hent, rfl⟩ := hcaller
  refine ⟨inv.callers_update rfl rfl (fun _ _ => rfl) (fun _ _ => rfl) ?_,
    .gathering (nobody_update nobody w nofun nofun) ?_ ?_, ?_⟩
  · simp [CallerOk, hret, hent]
  · -- the caller joins those that wait for the current epoch
    have hinsert : gathered { s with
        counter := s.counter + 1
        arrivals := s.arrivals + 1
        pc := Function.update s.pc w (.waiting s.epoch) } = insert w (gathered s) := by
      ext w'
      by_cases hw : w' = w
      · subst hw
        simp [gathered]
      · simp [gathered, hw]
    rw [hinsert, Finset.card_insert_of_notMem (by simp [gathered, pc]), ← count]
  · show s.counter + 1 < N
    omega
  · simp only
    omega

theorem Inv.resetCounter {rounds : Nat} {s : State N} (inv : Inv rounds s) {w : Fin N}
    (pc : s.pc w = .last) :
    Inv rounds { s with
      counter := 0
      resets := s.resets + 1
      pc := Function.update s.pc w .cleared } := by
  obtain ⟨others, count⟩ := inv.others_of_last pc
  have hcaller := inv.callers w
  have harrivals := inv.arrivals
  simp only [CallerOk, pc] at hcaller
  refine ⟨inv.callers_update rfl rfl (fun _ _ => rfl) (fun _ _ => rfl) ?_,
    .cleared w (by simp) (fun w' hw => ?_) rfl, ?_⟩
  · simp [CallerOk, hcaller.1, hcaller.2]
  · simpa [Function.update_of_ne hw] using others w' hw
  · simp only [Nat.mul_add]
    omega

/-- The epoch flip completes a round and releases everybody else. -/
theorem Inv.flipEpoch {rounds : Nat} {s : State N} (inv : Inv rounds s) {w : Fin N}
    (pc : s.pc w = .cleared) :
    Inv (rounds + 1) { s with
      epoch := s.epoch + 1
      pc := Function.update s.pc w .outside
      returned := Function.update s.returned w (s.returned w + 1) } := by
  obtain ⟨others, count⟩ := inv.others_of_cleared pc
  refine ⟨fun w' => ?_, .gathering (fun w' => ?_) ?_ ?_, inv.arrivals⟩
  · have h := inv.callers w'
    by_cases hw : w' = w
    · subst hw
      simp only [CallerOk, pc] at h
      simp [CallerOk, h.1, h.2]
    · simp only [CallerOk, others w' hw] at h
      rcases h with ⟨hent, ⟨hret, -⟩ | ⟨-, hbad⟩⟩
      · simp [CallerOk, Function.update_of_ne hw, others w' hw, hent, hret]
      · exact absurd hbad (epoch_succ_ne _)
  · by_cases hw : w' = w
    · subst hw
      simp
    · simp [Function.update_of_ne hw, others w' hw]
  · rw [count, eq_comm, Finset.card_eq_zero, gathered, Finset.filter_eq_empty_iff]
    intro w' _
    by_cases hw : w' = w
    · subst hw
      simp
    · simp [Function.update_of_ne hw, others w' hw]
  · show s.counter < N
    rw [count]
    exact w.pos

theorem Inv.reloadChanged {rounds : Nat} {s : State N} (inv : Inv rounds s) {w : Fin N} {e : UInt32}
    (pc : s.pc w = .waiting e) (changed : s.epoch ≠ e) :
    Inv rounds { s with
      pc := Function.update s.pc w .outside
      returned := Function.update s.returned w (s.returned w + 1) } := by
  have hwait : s.pc w ≠ .waiting s.epoch := by simpa [pc] using Ne.symm changed
  obtain ⟨nobody, count, room⟩ := inv.gathering (by simp [pc]) (by simp [pc]) hwait
  have hcaller := inv.callers w
  simp only [CallerOk, pc] at hcaller
  rcases hcaller with ⟨hent, ⟨-, hbad⟩ | ⟨hret, -⟩⟩
  · exact absurd hbad.symm changed
  refine ⟨inv.callers_update rfl rfl (fun _ _ => rfl) (fun _ hw => Function.update_of_ne hw _ _) ?_,
    .gathering (nobody_update nobody w nofun nofun) ?_ room, inv.arrivals⟩
  · simp [CallerOk, hret, hent]
  · refine count.trans (congrArg Finset.card (Eq.symm ?_))
    exact gathered_update rfl rfl hwait (by simp)

theorem step_inv {calls : Nat} {s t : State N} {l : Fin N × Action} {rounds : Nat}
    (inv : Inv rounds s) (step : Step calls s l t) : ∃ rounds', Inv rounds' t := by
  cases step with
  | loadEpoch pc => exact ⟨_, inv.loadEpoch pc⟩
  | fetchAddLast pc arrived => exact ⟨_, inv.fetchAddLast pc arrived⟩
  | fetchAddWait pc arrived => exact ⟨_, inv.fetchAddWait pc arrived⟩
  | resetCounter pc => exact ⟨_, inv.resetCounter pc⟩
  | flipEpoch pc => exact ⟨_, inv.flipEpoch pc⟩
  | reloadSame => exact ⟨_, inv⟩
  | reloadChanged pc changed => exact ⟨_, inv.reloadChanged pc changed⟩

theorem run_inv {calls : Nat} {e : UInt32} {s : State N} {ls : List (Fin N × Action)}
    (hN : 0 < N) (run : Run (Step calls) (State.init N e) ls s) : ∃ rounds, Inv rounds s :=
  run.invariant (fun s => ∃ rounds, Inv rounds s)
    (fun _ _ _ ⟨_, inv⟩ step => step_inv inv step) ⟨0, inv_init hN e⟩

/-! ### What the invariant gives -/

theorem Inv.returned_le {rounds : Nat} {s : State N} (inv : Inv rounds s) (w : Fin N) :
    s.returned w ≤ rounds := by
  have h := inv.callers w
  unfold CallerOk at h
  split at h <;> omega

theorem Inv.le_entered {rounds : Nat} {s : State N} (inv : Inv rounds s) (w : Fin N) :
    rounds ≤ s.entered w := by
  have h := inv.callers w
  unfold CallerOk at h
  split at h <;> omega

/-- A caller that is inside and does not wait for the current epoch can move. -/
theorem Inv.progress_of_ne_waiting {calls rounds : Nat} {s : State N} (inv : Inv rounds s)
    {w : Fin N} (hin : s.pc w ≠ .outside) (hwait : s.pc w ≠ .waiting s.epoch) :
    ∃ l t, Step calls s l t ∧ t ≠ s := by
  have moved : ∀ {t : State N} {pc : Pc}, t.pc = Function.update s.pc w pc → pc ≠ s.pc w →
      t ≠ s := by
    rintro t pc hpc hne rfl
    apply hne
    have := congrFun hpc w
    rw [Function.update_self] at this
    exact this.symm
  cases hpc : s.pc w with
  | outside => exact absurd hpc hin
  | loaded e =>
      by_cases harr : s.counter + 1 = N
      · exact ⟨_, _, .fetchAddLast hpc harr, moved rfl (by simp [hpc])⟩
      · exact ⟨_, _, .fetchAddWait hpc harr, moved rfl (by simp [hpc])⟩
  | last => exact ⟨_, _, .resetCounter hpc, moved rfl (by simp [hpc])⟩
  | cleared => exact ⟨_, _, .flipEpoch hpc, moved rfl (by simp [hpc])⟩
  | waiting e =>
      have hne : s.epoch ≠ e := by
        rintro rfl
        exact hwait hpc
      exact ⟨_, _, .reloadChanged hpc hne, moved rfl (by simp [hpc])⟩

/-- **No deadlock.** While a caller is inside, some caller can make a step that
changes the state. -/
theorem Inv.progress {calls rounds : Nat} {s : State N} (inv : Inv rounds s)
    (hcalls : ∀ w, s.entered w ≤ calls) {w : Fin N} (hin : s.pc w ≠ .outside) :
    ∃ l t, Step calls s l t ∧ t ≠ s := by
  by_cases hwait : s.pc w = .waiting s.epoch
  · -- `w` waits for the current round, so its `rounds + 1`-st call is allowed
    have hround : rounds < calls := by
      have h := inv.callers w
      simp only [CallerOk, hwait] at h
      have := hcalls w
      rcases h with ⟨hent, ⟨hret, -⟩ | ⟨-, hbad⟩⟩
      · omega
      · exact absurd hbad (epoch_succ_ne _)
    by_cases hall : ∀ w', s.pc w' = .waiting s.epoch
    · -- not everybody can wait: the counter would have reached `N`
      cases inv.counter with
      | gathering nobody count room =>
          have hcard : (gathered s).card = N := by
            rw [gathered, Finset.filter_true_of_mem fun w' _ => hall w', Finset.card_univ,
              Fintype.card_fin]
          omega
      | full v hv => simp [hall v] at hv
      | cleared v hv => simp [hall v] at hv
    · obtain ⟨v, hv⟩ := not_forall.mp hall
      by_cases hout : s.pc v = .outside
      · have h := inv.callers v
        simp only [CallerOk, hout] at h
        refine ⟨_, _, .loadEpoch hout (by omega), fun heq => ?_⟩
        have := congrFun (congrArg State.pc heq) v
        simp [hout] at this
      · exact inv.progress_of_ne_waiting hout hv
  · exact inv.progress_of_ne_waiting hin hwait

theorem entered_le_calls {calls : Nat} {e : UInt32} {s : State N}
    {ls : List (Fin N × Action)} (run : Run (Step calls) (State.init N e) ls s) (w : Fin N) :
    s.entered w ≤ calls := by
  refine run.invariant (fun s => ∀ w, s.entered w ≤ calls) ?_ (fun w => Nat.zero_le _) w
  intro s l t inv step w'
  cases step with
  | @loadEpoch w pc more =>
      by_cases hw : w' = w
      · subst hw
        simp only [Function.update_self]
        exact more
      · simpa [Function.update_of_ne hw] using inv w'
  | _ => exact inv w'

/-- **The barrier is safe and reusable.** In every reachable state nobody has
returned from a call that somebody else has not entered, every arrival is either
in the counter or was part of a round of exactly `N` that a reset ended, and while
anybody is inside, somebody can make progress. -/
theorem barrier_sync_safe_and_live (calls : Nat) (e : UInt32) (s : State N)
    (ls : List (Fin N × Action)) (run : Run (Step calls) (State.init N e) ls s) :
    (∀ w w', s.returned w ≤ s.entered w') ∧
      s.arrivals = s.counter + N * s.resets ∧
      ((∃ w, s.pc w ≠ .outside) → ∃ l t, Step calls s l t ∧ t ≠ s) := by
  rcases Nat.eq_zero_or_pos N with rfl | hN
  · -- without callers nothing can have happened
    cases run with
    | nil => exact ⟨fun w => w.elim0, rfl, fun ⟨w, _⟩ => w.elim0⟩
    | @cons _ _ _ l _ step _ => exact l.1.elim0
  · obtain ⟨rounds, inv⟩ := run_inv hN run
    refine ⟨fun w w' => (inv.returned_le w).trans (inv.le_entered w'), inv.arrivals, ?_⟩
    rintro ⟨w, hin⟩
    exact inv.progress (entered_le_calls run) hin

/-- Two callers, the largest epoch: the first caller waits, and the second can
still come. -/
theorem barrier_sync_safe_and_live_two :
    ∃ s : State 2, s.pc 0 = .waiting 4294967295 ∧ s.returned 0 ≤ s.entered 1 ∧
      ∃ l t, Step 3 s l t ∧ t ≠ s := by
  let s₀ := State.init 2 4294967295
  have run : Run (Step 3) s₀ [(0, .loadEpoch), (0, .fetchAdd)] _ :=
    .cons (.loadEpoch rfl (by decide)) (.cons (.fetchAddWait rfl (by decide)) (.nil _))
  have h := barrier_sync_safe_and_live 3 4294967295 _ _ run
  exact ⟨_, rfl, h.1 0 1, h.2.2 ⟨0, by simp [s₀, State.init]⟩⟩

end Pregel.Barrier
