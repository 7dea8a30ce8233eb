import Mathlib.Data.Finset.Card
import Mathlib.Data.Nat.ModEq
import Pregel.Fifo

/-!
`QueuePair::flush` (`rdma_transport.cpp`).

`flush` returns when it reads 0 from `pending_wr_`. The counter follows the queue with two
delays: `post_write` counts a write some time after its push, and the network thread takes
it off the count some time after it has pushed it to `inbox_`. While a caller stands
between its push and its increment, the counter is one too low; it may be 0, or wrap
around, with a write of another caller still in flight.

* `Counted`, `counted_step`: the counter, the callers that have not counted their write yet
  and the position of the network thread.
* `length_undelivered`: how many writes are still on their way when `flush` returns.
* `flush_waits_iff`: when `flush` has waited for the writes of its caller.
-/

namespace Pregel

open Lts

namespace QueuePair

variable {μ : Type}

/-- 1 if the network thread has pushed a write to `inbox_` and not yet taken it off the
count. -/
def owed (qp : QueuePair μ) : Nat :=
  match qp.net with
  | .delivered _ => 1
  | .completed => 1
  | _ => 0

/-- A section of the network thread takes a write off the count if it owes that. -/
theorem owed_networkStep (qp : QueuePair μ) :
    qp.networkStep.pendingWr.toNat + qp.pushesNext + qp.owed ≡
      qp.pendingWr.toNat + qp.networkStep.owed [MOD 2 ^ 64] := by
  cases hnet : qp.net with
  | waiting =>
      cases hfl : qp.inFlight with
      | nil => simp [networkStep, pushesNext, owed, hnet, hfl, Nat.ModEq]
      | cons pw rest => simp [networkStep, pushesNext, owed, hnet, hfl, Nat.ModEq]
  | popped pw => simp [networkStep, pushesNext, owed, hnet, Nat.ModEq]
  | delivered pw => simp [networkStep, pushesNext, owed, hnet, Nat.ModEq]
  | completed =>
      simp only [networkStep, pushesNext, owed, hnet, UInt64.toNat_sub, UInt64.toNat_one, Nat.ModEq]
      omega

end QueuePair

namespace Fifo

variable {μ : Type}

/-- The callers that have pushed a write and not counted it yet. -/
def State.uncounted (s : State μ) : Finset Nat :=
  (s.posted.map Prod.fst).toFinset.filter fun c => s.callers c = .pushed

/-- The writes that have not been pushed to `inbox_` yet. -/
def State.undelivered (s : State μ) : List (Nat × PendingWrite μ) := s.posted.drop s.pushes

/-- Every write that caller `c` has posted has been pushed to `inbox_`. -/
def State.Flushed (s : State μ) (c : Nat) : Prop := ∀ p ∈ s.undelivered, p.1 ≠ c

theorem mem_uncounted {s : State μ} {c : Nat} :
    c ∈ s.uncounted ↔ c ∈ s.posted.map Prod.fst ∧ s.callers c = .pushed := by
  simp only [State.uncounted, Finset.mem_filter, List.mem_toFinset]

/-! ### The counter -/

/-- The counter and the delays on both sides of it. -/
structure Counted (s : State μ) : Prop where
  posters : ∀ c, s.callers c = .pushed → c ∈ s.posted.map Prod.fst
  counter : s.qp.pendingWr.toNat + s.pushes + s.uncounted.card ≡
    s.posted.length + s.qp.owed [MOD 2 ^ 64]

theorem counted_init (localId remoteId : WorkerId) :
    Counted (State.init localId remoteId : State μ) where
  posters := fun _ hc => by cases hc
  counter := rfl

theorem Counted.push {s : State μ} (counted : Counted s) {c : Nat} (pc : s.callers c = .idle)
    (pw : PendingWrite μ) :
    Counted { s with
      qp := s.qp.pushWrite pw
      callers := Function.update s.callers c .pushed
      posted := s.posted ++ [(c, pw)] } := by
  set t : State μ := { s with
    qp := s.qp.pushWrite pw
    callers := Function.update s.callers c .pushed
    posted := s.posted ++ [(c, pw)] } with ht
  have huncounted : t.uncounted = insert c s.uncounted := by
    ext x
    rw [Finset.mem_insert, mem_uncounted, mem_uncounted]
    rcases eq_or_ne x c with rfl | hne
    · simp [ht]
    · simp [ht, hne]
  have hnot : c ∉ s.uncounted := by simp [mem_uncounted, pc]
  constructor
  · intro x hx
    rcases eq_or_ne x c with rfl | hne
    · simp [ht]
    · have hbefore := counted.posters x (by simpa [ht, hne] using hx)
      simpa [ht] using Or.inl (List.mem_map.mp hbefore)
  · have hcounter := counted.counter
    rw [huncounted, Finset.card_insert_of_notMem hnot]
    simp only [ht, QueuePair.pushWrite, QueuePair.owed, List.length_append, List.length_singleton,
      Nat.ModEq] at hcounter ⊢
    omega

theorem Counted.count {s : State μ} (counted : Counted s) {c : Nat} (pc : s.callers c = .pushed) :
    Counted { s with
      qp := s.qp.countWrite
      callers := Function.update s.callers c .idle } := by
  set t : State μ := { s with
    qp := s.qp.countWrite
    callers := Function.update s.callers c .idle } with ht
  have huncounted : t.uncounted = s.uncounted.erase c := by
    ext x
    rw [Finset.mem_erase, mem_uncounted, mem_uncounted]
    rcases eq_or_ne x c with rfl | hne
    · simp [ht]
    · simp [ht, hne]
  have hmem : c ∈ s.uncounted := mem_uncounted.mpr ⟨counted.posters c pc, pc⟩
  have hcard := Finset.card_erase_add_one hmem
  constructor
  · intro x hx
    rcases eq_or_ne x c with rfl | hne
    · simp [ht] at hx
    · exact counted.posters x (by simpa [ht, hne] using hx)
  · have hcounter := counted.counter
    rw [huncounted]
    simp only [ht, QueuePair.countWrite, QueuePair.owed, UInt64.toNat_add, UInt64.toNat_one,
      Nat.ModEq] at hcounter ⊢
    omega

theorem counted_step {s t : State μ} {a : Action μ} (counted : Counted s) (step : Step s a t) :
    Counted t := by
  cases step with
  | reject => exact counted
  | push pc => exact counted.push pc _
  | count pc => exact counted.count pc
  | drain => exact ⟨counted.posters, counted.counter⟩
  | poll => exact ⟨counted.posters, counted.counter⟩
  | flushReturn => exact counted
  | network =>
      refine ⟨counted.posters, ?_⟩
      have hcounter := counted.counter
      have hnext := s.qp.owed_networkStep
      show s.qp.networkStep.pendingWr.toNat + (s.pushes + s.qp.pushesNext) + s.uncounted.card ≡
        s.posted.length + s.qp.networkStep.owed [MOD 2 ^ 64]
      simp only [Nat.ModEq] at hcounter hnext ⊢
      omega

/-- How many writes are on their way when the counter is 0: as many as there are callers
that have not counted theirs, less the one that the network thread has still to take off. -/
theorem length_undelivered {s : State μ} (inv : Inv s) (counted : Counted s)
    (hqueue : s.qp.inFlight.length < 2 ^ 63) (hthreads : s.uncounted.card < 2 ^ 63)
    (done : s.qp.pendingWr = 0) :
    s.pushes + (s.uncounted.card - s.qp.owed) = s.posted.length := by
  have hmessages := congrArg List.length inv.messages
  have hpushed := inv.pushed
  have hcounter := counted.counter
  have hnet : s.qp.held.length + s.qp.owed ≤ 1 := by
    unfold QueuePair.held QueuePair.owed
    cases s.qp.net <;> simp
  simp only [QueuePair.undrained, List.length_append, List.length_map] at hmessages hpushed
  rw [done, Nat.ModEq, UInt64.toNat_zero] at hcounter
  omega

/-- **When `flush` has waited for its caller.** Take any run of any callers with the network
thread, in which fewer than 2^63 writes are in flight and fewer than 2^63 callers are inside
`post_write`. When `flush` returns in thread `c`, all writes that this thread has posted have
been pushed to `inbox_`, if and only if none of the last `n` posted writes is its own, where
`n` is the number of callers between their push and their increment, less one if the network
thread is between its push to `inbox_` and its decrement. -/
theorem flush_waits_iff {localId remoteId : WorkerId} {ls : List (Action μ)} {s t : State μ}
    (run : Run Step (State.init localId remoteId) ls s) (hqueue : s.qp.inFlight.length < 2 ^ 63)
    (hthreads : s.uncounted.card < 2 ^ 63) {c : Nat} (returns : Step s (.flushReturn c) t) :
    t.Flushed c ↔
      ∀ p ∈ s.posted.drop (s.posted.length - (s.uncounted.card - s.qp.owed)), p.1 ≠ c := by
  have counted : Counted s :=
    run.invariant Counted (fun _ _ _ => counted_step) (counted_init localId remoteId)
  cases returns with
  | flushReturn pc done =>
      have hlength := length_undelivered (run_inv run) counted hqueue hthreads done
      have hdrop : s.posted.length - (s.uncounted.card - s.qp.owed) = s.pushes := by omega
      rw [hdrop]
      rfl

/-- The write of caller 2 is delivered, and caller 0 has pushed another one and not counted
it: `flush` in thread 2 returns rightly. -/
theorem flush_waits_delivered : ∃ s : State Nat,
    Run Step (State.init 0 1)
      [.post 2 7 64 0, .count 2, .network, .network, .network, .network, .post 0 8 64 1] s ∧
    Step s (.flushReturn 2) s ∧ s.undelivered = [(0, ⟨1, 8⟩)] ∧ s.Flushed 2 := by
  have run : ∃ s : State Nat, Run Step (State.init 0 1)
      [.post 2 7 64 0, .count 2, .network, .network, .network, .network, .post 0 8 64 1] s ∧
      s.callers 2 = .idle ∧ s.qp.pendingWr = 0 ∧ s.qp.inFlight = [⟨1, 8⟩] ∧
      s.posted = [(2, ⟨0, 7⟩), (0, ⟨1, 8⟩)] ∧ s.pushes = 1 ∧ s.uncounted = {0} ∧ s.qp.owed = 0 :=
    ⟨_, .cons (.push rfl (by decide)) <| .cons (.count rfl) <| .cons (.network _) <|
      .cons (.network _) <| .cons (.network _) <| .cons (.network _) <|
      .one (.push rfl (by decide)), rfl, rfl, rfl, rfl, rfl, by decide, rfl⟩
  obtain ⟨s, run, hcaller, hdone, hqueue, hposted, hpushes, huncounted, howed⟩ := run
  have returns : Step s (.flushReturn 2) s := .flushReturn hcaller hdone
  refine ⟨s, run, returns, by rw [State.undelivered, hposted, hpushes]; rfl, ?_⟩
  apply (flush_waits_iff run (by simp [hqueue]) (by simp [huncounted]) returns).mpr
  simp [hposted, huncounted, howed]

/-- Caller 0 pushes a write, caller 1 pushes and counts another one, and the network thread
delivers the first: the counter is 0 and `flush` returns in thread 1, whose write is still
in flight. -/
theorem flush_returns_early : ∃ s : State Nat,
    Run Step (State.init 0 1)
      [.post 0 7 64 0, .post 1 8 64 1, .count 1, .network, .network, .network, .network] s ∧
    Step s (.flushReturn 1) s ∧ s.qp.inFlight = [⟨1, 8⟩] ∧ s.qp.inbox = [7] ∧ s.drained = [] ∧
    ¬ s.Flushed 1 := by
  refine ⟨_, .cons (.push rfl (by decide)) <| .cons (.push rfl (by decide)) <|
    .cons (.count rfl) <| .cons (.network _) <| .cons (.network _) <| .cons (.network _) <|
    .one (.network _), .flushReturn rfl rfl, rfl, rfl, rfl, ?_⟩
  intro flushed
  exact flushed (1, ⟨1, 8⟩) (by simp [State.undelivered]; decide) rfl

end Fifo

end Pregel
