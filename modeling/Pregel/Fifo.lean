import Pregel.Lib.Lts
import Pregel.Transport

/-!
A queue pair under any number of callers (`rdma_transport.cpp`).

`QueuePair.postWrite` is a whole call. The source pushes the write under one lock
and counts it as pending only afterwards, so that the network thread may deliver a
write that is not counted yet. `Step` has one transition for each atomic section:
the push and the count of `post_write`, `drain_received`, `poll_cq`, the return of
`flush`, and the four sections of the network thread. A completion queue of 2 ^ 31
entries, whose length the cast of `poll_cq` would not hold, is left out.

The lists of a `State` are history: what entered `in_flight_`, what was drained and
what was polled; `pushes` counts the pushes to `inbox_`.

* `postWrite_eq`: a call is its two sections, one after the other.
* `Inv`, `inv_step`, `run_inv`: what the stores and the history have to do with each
  other.
* `fifo_exactly_once`: messages leave in the order in which they were posted, each
  once, and completions follow the deliveries.
-/

namespace Pregel

open Lts

namespace QueuePair

variable {μ : Type}

/-- The locked section of `post_write`. -/
def pushWrite (qp : QueuePair μ) (pw : PendingWrite μ) : QueuePair μ :=
  { qp with inFlight := qp.inFlight ++ [pw] }

/-- The increment at the end of `post_write`. -/
def countWrite (qp : QueuePair μ) : QueuePair μ := { qp with pendingWr := qp.pendingWr + 1 }

theorem postWrite_eq (qp : QueuePair μ) (msg : μ) (len wrId : Nat) :
    qp.postWrite msg len wrId =
      if len > sizeofMessage then (false, qp)
      else (true, (qp.pushWrite ⟨wrId, msg⟩).countWrite) := rfl

/-- The write that the network thread has popped and not yet completed. -/
def uncompleted (qp : QueuePair μ) : List (PendingWrite μ) :=
  match qp.net with
  | .popped pw => [pw]
  | .delivered pw => [pw]
  | _ => []

/-- 1 if the next section of the network thread is its push to `inbox_`. -/
def pushesNext (qp : QueuePair μ) : Nat :=
  match qp.net with
  | .popped _ => 1
  | _ => 0

/-- The identifiers of all writes that are not polled yet, in posting order. -/
def wrIds (qp : QueuePair μ) : List Nat :=
  qp.cq.map RdmaCompletion.wrId ++ (qp.uncompleted ++ qp.inFlight).map PendingWrite.wrId

theorem wrIds_pushWrite (qp : QueuePair μ) (pw : PendingWrite μ) :
    (qp.pushWrite pw).wrIds = qp.wrIds ++ [pw.wrId] := by
  simp [pushWrite, wrIds, uncompleted]

@[simp] theorem wrIds_countWrite (qp : QueuePair μ) : qp.countWrite.wrIds = qp.wrIds := rfl

theorem wrIds_networkStep (qp : QueuePair μ) : qp.networkStep.wrIds = qp.wrIds := by
  cases hnet : qp.net with
  | waiting =>
      cases hfl : qp.inFlight with
      | nil => simp [networkStep, hnet, hfl]
      | cons pw rest => simp [networkStep, wrIds, uncompleted, hnet, hfl]
  | popped pw => simp [networkStep, wrIds, uncompleted, hnet]
  | delivered pw => simp [networkStep, wrIds, uncompleted, hnet]
  | completed => simp [networkStep, wrIds, uncompleted, hnet]

theorem length_inbox_networkStep (qp : QueuePair μ) :
    qp.networkStep.inbox.length = qp.inbox.length + qp.pushesNext := by
  cases hnet : qp.net with
  | waiting =>
      cases hfl : qp.inFlight with
      | nil => simp [networkStep, pushesNext, hnet, hfl]
      | cons pw rest => simp [networkStep, pushesNext, hnet, hfl]
  | popped pw => simp [networkStep, pushesNext, hnet]
  | delivered pw => simp [networkStep, pushesNext, hnet]
  | completed => simp [networkStep, pushesNext, hnet]

/-- A write is completed after its message was pushed, and before the next one is
popped. -/
theorem length_cq_networkStep (qp : QueuePair μ) :
    qp.networkStep.cq.length + qp.networkStep.uncompleted.length =
      qp.cq.length + qp.uncompleted.length + qp.networkStep.pushesNext := by
  cases hnet : qp.net with
  | waiting =>
      cases hfl : qp.inFlight with
      | nil => simp [networkStep, uncompleted, pushesNext, hnet, hfl]
      | cons pw rest => simp [networkStep, uncompleted, pushesNext, hnet, hfl]
  | popped pw => simp [networkStep, uncompleted, pushesNext, hnet]
  | delivered pw => simp [networkStep, uncompleted, pushesNext, hnet]
  | completed => simp [networkStep, uncompleted, pushesNext, hnet]

end QueuePair

namespace Fifo

variable {μ : Type}

/-- Where a caller stands: between calls, or in `post_write` after the push. -/
inductive CallerPc where
  | idle
  | pushed
  deriving DecidableEq, Repr

/-- A queue pair with its callers and its history. -/
structure State (μ : Type) where
  qp : QueuePair μ
  callers : Nat → CallerPc := fun _ => .idle
  posted : List (Nat × PendingWrite μ) := []
  drained : List μ := []
  polled : List RdmaCompletion := []
  pushes : Nat := 0

/-- A queue pair as its constructor leaves it. -/
def State.init (localId remoteId : WorkerId) : State μ where
  qp := { localId := localId, remoteId := remoteId }

inductive Action (μ : Type) where
  | post (c : Nat) (msg : μ) (len wrId : Nat)
  | count (c : Nat)
  | drain (out : List μ)
  | poll (limit : Nat) (out : List RdmaCompletion)
  | flushReturn (c : Nat)
  | network

/-- The atomic sections of `post_write`, `drain_received`, `poll_cq`, `flush` and
`network_loop`. -/
inductive Step : State μ → Action μ → State μ → Prop where
  | reject {s : State μ} {c : Nat} {msg : μ} {len wrId : Nat} (pc : s.callers c = .idle)
      (long : len > sizeofMessage) : Step s (.post c msg len wrId) s
  | push {s : State μ} {c : Nat} {msg : μ} {len wrId : Nat} (pc : s.callers c = .idle)
      (fits : ¬ len > sizeofMessage) :
      Step s (.post c msg len wrId)
        { s with
          qp := s.qp.pushWrite ⟨wrId, msg⟩
          callers := Function.update s.callers c .pushed
          posted := s.posted ++ [(c, ⟨wrId, msg⟩)] }
  | count {s : State μ} {c : Nat} (pc : s.callers c = .pushed) :
      Step s (.count c)
        { s with
          qp := s.qp.countWrite
          callers := Function.update s.callers c .idle }
  | drain (s : State μ) :
      Step s (.drain s.qp.drainReceived.1)
        { s with
          qp := s.qp.drainReceived.2
          drained := s.drained ++ s.qp.drainReceived.1 }
  | poll {s : State μ} {limit : Nat} (positive : 0 < limit) :
      Step s (.poll limit (s.qp.pollCq limit).1)
        { s with
          qp := (s.qp.pollCq limit).2
          polled := s.polled ++ (s.qp.pollCq limit).1 }
  | flushReturn {s : State μ} {c : Nat} (pc : s.callers c = .idle) (done : s.qp.pendingWr = 0) :
      Step s (.flushReturn c) s
  | network (s : State μ) :
      Step s .network
        { s with
          qp := s.qp.networkStep
          pushes := s.pushes + s.qp.pushesNext }

/-! ### The stores and the history -/

/-- Every message and every write is where the network thread has brought it. -/
structure Inv (s : State μ) : Prop where
  messages : s.drained ++ s.qp.undrained = s.posted.map fun p => p.2.msg
  writes : (s.polled ++ s.qp.cq).map RdmaCompletion.wrId ++
    (s.qp.uncompleted ++ s.qp.inFlight).map PendingWrite.wrId = s.posted.map fun p => p.2.wrId
  pushed : (s.drained ++ s.qp.inbox).length = s.pushes
  completed : (s.polled ++ s.qp.cq).length + s.qp.uncompleted.length = s.pushes + s.qp.pushesNext

theorem inv_init (localId remoteId : WorkerId) : Inv (State.init localId remoteId : State μ) := by
  constructor <;> rfl

theorem Inv.push {s : State μ} (inv : Inv s) (c : Nat) (pw : PendingWrite μ)
    (callers : Nat → CallerPc) :
    Inv { s with
      qp := s.qp.pushWrite pw
      callers := callers
      posted := s.posted ++ [(c, pw)] } where
  messages := by
    rw [List.map_append, ← inv.messages]
    simp [QueuePair.pushWrite, QueuePair.undrained, QueuePair.held]
  writes := by
    have hwrites := inv.writes
    simp only [List.map_append, List.append_assoc] at hwrites
    simp [QueuePair.pushWrite, QueuePair.uncompleted, ← hwrites]
  pushed := inv.pushed
  completed := inv.completed

theorem Inv.drain {s : State μ} (inv : Inv s) :
    Inv { s with
      qp := s.qp.drainReceived.2
      drained := s.drained ++ s.qp.drainReceived.1 } where
  messages := by
    rw [List.append_assoc, QueuePair.drainReceived_append]
    exact inv.messages
  writes := inv.writes
  pushed := by simpa [QueuePair.drainReceived] using inv.pushed
  completed := inv.completed

theorem Inv.poll {s : State μ} (inv : Inv s) (limit : Nat) :
    Inv { s with
      qp := (s.qp.pollCq limit).2
      polled := s.polled ++ (s.qp.pollCq limit).1 } := by
  have hall : s.polled ++ (s.qp.pollCq limit).1 ++ (s.qp.pollCq limit).2.cq =
      s.polled ++ s.qp.cq := by
    simp [QueuePair.pollCq]
  constructor
  · exact inv.messages
  · rw [hall]
    exact inv.writes
  · exact inv.pushed
  · rw [hall]
    exact inv.completed

/-- One section of the network thread: a pop, a push to `inbox_`, a push to `cq_` or
the decrement. -/
theorem Inv.network {s : State μ} (inv : Inv s) :
    Inv { s with
      qp := s.qp.networkStep
      pushes := s.pushes + s.qp.pushesNext } where
  messages := by
    rw [QueuePair.undrained_networkStep]
    exact inv.messages
  writes := by
    have hsame := s.qp.wrIds_networkStep
    have hwrites := inv.writes
    simp only [QueuePair.wrIds, List.map_append, List.append_assoc] at hsame hwrites ⊢
    rw [hsame]
    exact hwrites
  pushed := by
    have hpushed := inv.pushed
    simp only [List.length_append, s.qp.length_inbox_networkStep] at hpushed ⊢
    omega
  completed := by
    have hcompleted := inv.completed
    have hnext := s.qp.length_cq_networkStep
    simp only [List.length_append] at hcompleted ⊢
    omega

theorem inv_step {s t : State μ} {a : Action μ} (inv : Inv s) (step : Step s a t) : Inv t := by
  cases step with
  | reject => exact inv
  | push => exact inv.push _ _ _
  | count => exact ⟨inv.messages, inv.writes, inv.pushed, inv.completed⟩
  | drain => exact inv.drain
  | poll => exact inv.poll _
  | flushReturn => exact inv
  | network => exact inv.network

theorem run_inv {localId remoteId : WorkerId} {ls : List (Action μ)} {s : State μ}
    (run : Run Step (State.init localId remoteId) ls s) : Inv s :=
  run.invariant Inv (fun _ _ _ => inv_step) (inv_init localId remoteId)

/-- **A queue pair is first in, first out, and delivers exactly once.** In every
reachable state, the messages drained so far, those in `inbox_`, the one between the
two locks of the network thread and those in `in_flight_` are the accepted posts in
order. The identifiers polled so far and those in `cq_` are a prefix of the posted
ones, as long as the number of pushes to `inbox_` or shorter by one. A post that is too
long changes nothing. -/
theorem fifo_exactly_once {localId remoteId : WorkerId} {ls : List (Action μ)} {s : State μ}
    (run : Run Step (State.init localId remoteId) ls s) :
    s.drained ++ s.qp.inbox ++ s.qp.held ++ s.qp.inFlight.map PendingWrite.msg =
        s.posted.map (fun p => p.2.msg) ∧
      s.qp.held.length ≤ 1 ∧
      (s.polled ++ s.qp.cq).map RdmaCompletion.wrId <+: s.posted.map (fun p => p.2.wrId) ∧
      (s.drained ++ s.qp.inbox).length = s.pushes ∧
      ((s.polled ++ s.qp.cq).length = s.pushes ∨ (s.polled ++ s.qp.cq).length + 1 = s.pushes) ∧
      ∀ c msg len wrId t, len > sizeofMessage → Step s (.post c msg len wrId) t → t = s := by
  have inv := run_inv run
  refine ⟨?_, ?_, ⟨_, inv.writes⟩, inv.pushed, ?_, ?_⟩
  · rw [← inv.messages, QueuePair.undrained]
    simp only [List.append_assoc]
  · unfold QueuePair.held
    split <;> simp
  · have hcompleted := inv.completed
    unfold QueuePair.uncompleted QueuePair.pushesNext at hcompleted
    cases hnet : s.qp.net with
    | delivered pw =>
        -- pushed to `inbox_` and not yet to `cq_`
        simp only [hnet, List.length_singleton] at hcompleted
        exact Or.inr hcompleted
    | popped pw =>
        simp only [hnet, List.length_singleton] at hcompleted
        exact Or.inl (Nat.add_right_cancel hcompleted)
    | waiting =>
        simp only [hnet, List.length_nil] at hcompleted
        exact Or.inl hcompleted
    | completed =>
        simp only [hnet, List.length_nil] at hcompleted
        exact Or.inl hcompleted
  · intro c msg len wrId t long step
    cases step with
    | reject => rfl
    | push _ fits => exact absurd long fits

/-- Two callers post, the network thread delivers the first write before it is counted,
and the completion is still to come. -/
theorem fifo_exactly_once_two : ∃ s : State Nat,
    Run Step (State.init 0 1)
      [.post 0 7 64 0, .network, .post 1 8 64 1, .network, .drain [7], .count 0, .post 0 9 65 2] s ∧
    s.drained ++ s.qp.inbox ++ s.qp.held ++ s.qp.inFlight.map PendingWrite.msg = [7, 8] ∧
    s.drained = [7] ∧ (s.polled ++ s.qp.cq).length + 1 = s.pushes := by
  have run : ∃ s : State Nat, Run Step (State.init 0 1)
      [.post 0 7 64 0, .network, .post 1 8 64 1, .network, .drain [7], .count 0, .post 0 9 65 2] s ∧
      s.posted = [(0, ⟨0, 7⟩), (1, ⟨1, 8⟩)] ∧ s.drained = [7] ∧ s.polled = [] ∧ s.qp.cq = [] ∧
      s.pushes = 1 :=
    ⟨_, .cons (.push rfl (by decide)) <| .cons (.network _) <| .cons (.push rfl (by decide)) <|
      .cons (.network _) <| .cons (.drain _) <| .cons (.count rfl) <|
      .one (.reject rfl (by decide)), rfl, rfl, rfl, rfl, rfl⟩
  obtain ⟨s, run, hposted, hdrained, hpolled, hcq, hpushes⟩ := run
  obtain ⟨hfifo, -⟩ := fifo_exactly_once run
  refine ⟨s, run, ?_, hdrained, ?_⟩
  · rw [hfifo, hposted]
    rfl
  · rw [hpolled, hcq, hpushes]
    rfl

end Fifo

end Pregel
