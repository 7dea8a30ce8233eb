import Mathlib.Logic.Function.Iterate
import Pregel.Types

/-!
The simulated RDMA transport (`rdma_transport.hpp`, `rdma_transport.cpp`).

A `QueuePair` is the object one worker owns for one remote worker. Posted writes
wait in `inFlight`; a network thread moves them, one at a time and under three
different locks, to `inbox`, to the completion queue and out of the pending
count. `QueuePair.networkStep` is one such section. When the thread takes it is
up to the clock and the scheduler, so every use of the transport is stated for
any number of steps at any point; the delivery time of a write, which only
delays the thread, is left out.

* `QueuePair.undrained`: the messages a queue pair holds, in the order they were
  posted. The network thread never changes it (`undrained_network`), a post
  appends to it, and `drainReceived` takes a front part of it away
  (`drainReceived_append`).
* Both ends of a `QueuePair` belong to the object that posted: `send` posts on
  `qps dst`, and `receiveAll` drains the very same queue pairs
  (`receiveAll_sub`), without a loss (`receiveAll_of_connected`).
-/

namespace Pregel

/-- `QueuePair::PendingWrite`. -/
structure PendingWrite (μ : Type) where
  wrId : Nat
  msg : μ
  deriving DecidableEq, Repr

structure RdmaCompletion where
  wrId : Nat
  bytes : Nat
  success : Bool
  deriving DecidableEq, Repr

/-- Where the network thread stands in the body of `network_loop`: waiting,
after the pop, after the push to `inbox_`, after the push to `cq_`. -/
inductive NetworkPc (μ : Type) where
  | waiting
  | popped (pw : PendingWrite μ)
  | delivered (pw : PendingWrite μ)
  | completed
  deriving DecidableEq, Repr

/-- `QueuePair`, with its network thread. The two byte buffers are never used. -/
structure QueuePair (μ : Type) where
  localId : WorkerId
  remoteId : WorkerId
  inFlight : List (PendingWrite μ) := []
  inbox : List μ := []
  cq : List RdmaCompletion := []
  pendingWr : UInt64 := 0
  net : NetworkPc μ := .waiting
  deriving DecidableEq, Repr

namespace QueuePair

variable {μ : Type}

/-- `QueuePair::post_write`: `msg` is what `memcpy` makes of the `len` bytes at
`src`. -/
def postWrite (qp : QueuePair μ) (msg : μ) (len wrId : Nat) : Bool × QueuePair μ :=
  if len > sizeofMessage then (false, qp)
  else (true, { qp with
    inFlight := qp.inFlight ++ [⟨wrId, msg⟩]
    pendingWr := qp.pendingWr + 1 })

/-- One section of `QueuePair::network_loop`. -/
def networkStep (qp : QueuePair μ) : QueuePair μ :=
  match qp.net with
  | .waiting =>
      match qp.inFlight with
      | [] => qp
      | pw :: rest => { qp with inFlight := rest, net := .popped pw }
  | .popped pw => { qp with inbox := qp.inbox ++ [pw.msg], net := .delivered pw }
  | .delivered pw =>
      { qp with cq := qp.cq ++ [⟨pw.wrId, sizeofMessage, true⟩], net := .completed }
  | .completed => { qp with pendingWr := qp.pendingWr - 1, net := .waiting }

/-- The network thread takes `n` steps. -/
def network (qp : QueuePair μ) (n : Nat) : QueuePair μ := networkStep^[n] qp

/-- `QueuePair::drain_received`. -/
def drainReceived (qp : QueuePair μ) : List μ × QueuePair μ :=
  (qp.inbox, { qp with inbox := [] })

/-- `QueuePair::poll_cq`. A negative limit is out of the caller's contract, and the cast of
the queue's length to `int` takes less than 2 ^ 31 completions. -/
def pollCq (qp : QueuePair μ) (maxCompletions : Nat := 64) :
    List RdmaCompletion × QueuePair μ :=
  (qp.cq.take maxCompletions, { qp with cq := qp.cq.drop maxCompletions })

/-- The message the network thread has popped and not yet pushed. -/
def held (qp : QueuePair μ) : List μ :=
  match qp.net with
  | .popped pw => [pw.msg]
  | _ => []

/-- Everything posted and not drained yet, in posting order. -/
def undrained (qp : QueuePair μ) : List μ :=
  qp.inbox ++ qp.held ++ qp.inFlight.map PendingWrite.msg

theorem undrained_networkStep (qp : QueuePair μ) :
    qp.networkStep.undrained = qp.undrained := by
  cases hnet : qp.net with
  | waiting =>
      cases hfl : qp.inFlight with
      | nil => simp [networkStep, hnet, hfl]
      | cons pw rest => simp [networkStep, undrained, held, hnet, hfl]
  | popped pw => simp [networkStep, undrained, held, hnet]
  | delivered pw => simp [networkStep, undrained, held, hnet]
  | completed => simp [networkStep, undrained, held, hnet]

/-- The network thread moves messages along and never adds, drops or reorders
one. -/
@[simp] theorem undrained_network (qp : QueuePair μ) (n : Nat) :
    (qp.network n).undrained = qp.undrained := by
  induction n generalizing qp with
  | zero => rfl
  | succ n ih =>
      show (qp.networkStep.network n).undrained = _
      rw [ih, undrained_networkStep]

theorem undrained_postWrite {qp : QueuePair μ} {msg : μ} {len wrId : Nat}
    (hlen : len ≤ sizeofMessage) :
    (qp.postWrite msg len wrId).2.undrained = qp.undrained ++ [msg] := by
  simp [postWrite, undrained, held, Nat.not_lt.mpr hlen]

/-- A drain takes a front part of the posted sequence and leaves the rest. -/
theorem drainReceived_append (qp : QueuePair μ) :
    qp.drainReceived.1 ++ qp.drainReceived.2.undrained = qp.undrained := by
  simp [drainReceived, undrained, held]

end QueuePair

/-- `RdmaTransport`: one queue pair for each remote worker. -/
structure RdmaTransport (μ : Type) where
  localId : WorkerId
  workerCount : Nat
  qps : WorkerId → Option (QueuePair μ)
  bytesSent : Nat := 0
  rdmaOps : Nat := 0

namespace RdmaTransport

variable {μ : Type}

/-- `RdmaTransport::RdmaTransport`. -/
def new (localId : WorkerId) (workerCount : Nat) : RdmaTransport μ where
  localId := localId
  workerCount := workerCount
  qps := fun i =>
    if i < workerCount ∧ i ≠ localId then some { localId := localId, remoteId := i } else none

/-- `RdmaTransport::send`. -/
def send (t : RdmaTransport μ) (target : WorkerId) (msg : μ) : Bool × RdmaTransport μ :=
  if t.workerCount ≤ target ∨ target = t.localId then (false, t)
  else
    match t.qps target with
    | none => (false, t)
    | some qp =>
        let (ok, qp') := qp.postWrite msg sizeofMessage t.rdmaOps
        (ok, { t with
          qps := Function.update t.qps target (some qp')
          rdmaOps := t.rdmaOps + 1
          bytesSent := if ok then t.bytesSent + sizeofMessage else t.bytesSent })

/-- `RdmaTransport::send_batch`. -/
def sendBatch (t : RdmaTransport μ) (target : WorkerId) (msgs : List μ) : Bool × RdmaTransport μ :=
  if t.workerCount ≤ target ∨ target = t.localId ∨ (t.qps target).isNone then (false, t)
  else msgs.foldl (fun (ok, t) m => let (sent, t') := t.send target m; (ok && sent, t')) (true, t)

/-- One round of the loop of `receive_all`. -/
def receiveStep (acc : List μ × RdmaTransport μ) (i : WorkerId) : List μ × RdmaTransport μ :=
  if i = acc.2.localId then acc
  else
    match acc.2.qps i with
    | none => acc
    | some qp =>
        (acc.1 ++ qp.drainReceived.1,
          { acc.2 with qps := Function.update acc.2.qps i (some qp.drainReceived.2) })

/-- `RdmaTransport::receive_all`. -/
def receiveAll (t : RdmaTransport μ) : List μ × RdmaTransport μ :=
  (List.range t.workerCount).foldl receiveStep ([], t)

/-- The network thread of queue pair `i` takes `timing i` steps. -/
def network (t : RdmaTransport μ) (timing : WorkerId → Nat) : RdmaTransport μ :=
  { t with qps := fun i => (t.qps i).map fun qp => qp.network (timing i) }

/-- `m` sits somewhere in the transport. -/
def Holds (t : RdmaTransport μ) (m : μ) : Prop :=
  ∃ i qp, t.qps i = some qp ∧ m ∈ qp.undrained

theorem not_holds_new (localId : WorkerId) (workerCount : Nat) (m : μ) :
    ¬ (new localId workerCount : RdmaTransport μ).Holds m := by
  rintro ⟨i, qp, hqp, hm⟩
  simp only [new] at hqp
  split at hqp
  · cases hqp
    simp [QueuePair.undrained, QueuePair.held] at hm
  · cases hqp

@[simp] theorem holds_network {t : RdmaTransport μ} {timing : WorkerId → Nat} {m : μ} :
    (t.network timing).Holds m ↔ t.Holds m := by
  constructor
  · rintro ⟨i, qp, hqp, hm⟩
    obtain ⟨qp', hqp', rfl⟩ := Option.map_eq_some_iff.mp hqp
    exact ⟨i, qp', hqp', by simpa using hm⟩
  · rintro ⟨i, qp, hqp, hm⟩
    exact ⟨i, qp.network (timing i), by simp [network, hqp], by simpa using hm⟩

theorem holds_update {t : RdmaTransport μ} {i : WorkerId} {qp : QueuePair μ} {m : μ}
    (h : ({ t with qps := Function.update t.qps i (some qp) } : RdmaTransport μ).Holds m) :
    t.Holds m ∨ m ∈ qp.undrained := by
  obtain ⟨j, qp', hqp', hm⟩ := h
  by_cases hj : j = i
  · subst hj
    simp only [Function.update_self, Option.some.injEq] at hqp'
    exact Or.inr (hqp' ▸ hm)
  · simp only [Function.update_of_ne hj] at hqp'
    exact Or.inl ⟨j, qp', hqp', hm⟩

/-- A send adds at most the message it is given. -/
theorem holds_send {t : RdmaTransport μ} {target : WorkerId} {msg m : μ}
    (h : (t.send target msg).2.Holds m) : t.Holds m ∨ m = msg := by
  unfold send at h
  split at h
  · exact Or.inl h
  · cases hqp : t.qps target with
    | none =>
        simp only [hqp] at h
        exact Or.inl h
    | some qp =>
        simp only [hqp] at h
        have hposted : m ∈ (qp.postWrite msg sizeofMessage t.rdmaOps).2.undrained →
            t.Holds m ∨ m = msg := by
          rw [QueuePair.undrained_postWrite (Nat.le_refl _), List.mem_append, List.mem_singleton]
          rintro (h | h)
          · exact Or.inl ⟨target, qp, hqp, h⟩
          · exact Or.inr h
        obtain ⟨i, qp', hqp', hm⟩ := h
        rcases holds_update (t := t) (i := target) ⟨i, qp', hqp', hm⟩ with h | h
        · exact Or.inl h
        · exact hposted h

/-- A batch is sent message by message. -/
theorem sendBatch_eq (t : RdmaTransport μ) (w : WorkerId) (msgs : List μ) :
    (t.sendBatch w msgs).2 = msgs.foldl (fun t m => (t.send w m).2) t := by
  unfold sendBatch
  split
  · rename_i hguard
    have hidle : ∀ m, (t.send w m).2 = t := by
      intro m
      unfold send
      split
      · rfl
      · rename_i hopen
        rcases hguard with h | h | h
        · exact absurd (Or.inl h) hopen
        · exact absurd (Or.inr h) hopen
        · rw [Option.isNone_iff_eq_none.mp h]
    induction msgs with
    | nil => rfl
    | cons m msgs ih =>
        rw [List.foldl_cons, hidle]
        exact ih
  · have hfold : ∀ (ok : Bool) (t : RdmaTransport μ),
        (msgs.foldl (fun (ok, t) m => let (sent, t') := t.send w m; (ok && sent, t')) (ok, t)).2 =
          msgs.foldl (fun t m => (t.send w m).2) t := by
      induction msgs with
      | nil => exact fun _ _ => rfl
      | cons m msgs ih => exact fun ok t => ih _ _
    exact hfold true t

theorem holds_sendBatch {t : RdmaTransport μ} {target : WorkerId} {msgs : List μ} {m : μ}
    (h : (t.sendBatch target msgs).2.Holds m) : t.Holds m ∨ m ∈ msgs := by
  rw [sendBatch_eq] at h
  induction msgs generalizing t with
  | nil => exact Or.inl h
  | cons msg msgs ih =>
      rcases ih h with h | h
      · rcases holds_send h with h | rfl
        · exact Or.inl h
        · exact Or.inr List.mem_cons_self
      · exact Or.inr (List.mem_cons_of_mem _ h)

theorem receiveStep_sub {acc : List μ × RdmaTransport μ} {i : WorkerId} {m : μ}
    (h : m ∈ (receiveStep acc i).1 ∨ (receiveStep acc i).2.Holds m) :
    m ∈ acc.1 ∨ acc.2.Holds m := by
  unfold receiveStep at h
  split at h
  · exact h
  · cases hqp : acc.2.qps i with
    | none =>
        simp only [hqp] at h
        exact h
    | some qp =>
        simp only [hqp] at h
        have hdrain : ∀ {m}, m ∈ qp.drainReceived.1 ∨ m ∈ qp.drainReceived.2.undrained →
            acc.2.Holds m := fun {m} hm =>
          ⟨i, qp, hqp, by rw [← qp.drainReceived_append]; exact List.mem_append.mpr hm⟩
        rcases h with h | h
        · rcases List.mem_append.mp h with h | h
          · exact Or.inl h
          · exact Or.inr (hdrain (Or.inl h))
        · rcases holds_update h with h | h
          · exact Or.inr h
          · exact Or.inr (hdrain (Or.inr h))

/-- **A transport receives from itself.** Whatever `receiveAll` returns or leaves
was in this transport's own queue pairs. -/
theorem receiveAll_sub {t : RdmaTransport μ} {m : μ}
    (h : m ∈ t.receiveAll.1 ∨ t.receiveAll.2.Holds m) : t.Holds m := by
  have hfold : ∀ (is : List WorkerId) (acc : List μ × RdmaTransport μ),
      m ∈ (is.foldl receiveStep acc).1 ∨ (is.foldl receiveStep acc).2.Holds m →
        m ∈ acc.1 ∨ acc.2.Holds m := by
    intro is
    induction is with
    | nil => exact fun acc h => h
    | cons i is ih => exact fun acc h => receiveStep_sub (ih _ h)
  simpa using hfold _ _ h

/-! ### Nothing gets lost in a transport -/

/-- There is a queue pair for every other worker. -/
def Connected (t : RdmaTransport μ) : Prop :=
  ∀ i, i < t.workerCount → i ≠ t.localId → ∃ qp, t.qps i = some qp

theorem connected_new (localId : WorkerId) (workerCount : Nat) :
    (new localId workerCount : RdmaTransport μ).Connected := by
  intro i hi hne
  exact ⟨_, if_pos ⟨hi, hne⟩⟩

/-- Replacing a queue pair keeps what the others hold. -/
theorem holds_update_of_holds {t : RdmaTransport μ} {i : WorkerId} {qp : QueuePair μ} {m : μ}
    (h : t.Holds m) (hkeep : ∀ old, t.qps i = some old → m ∈ old.undrained → m ∈ qp.undrained) :
    ({ t with qps := Function.update t.qps i (some qp) } : RdmaTransport μ).Holds m := by
  obtain ⟨j, old, hold, hm⟩ := h
  rcases eq_or_ne j i with rfl | hne
  · exact ⟨j, qp, Function.update_self .., hkeep old hold hm⟩
  · exact ⟨j, old, (Function.update_of_ne hne ..).trans hold, hm⟩

theorem connected_update {t : RdmaTransport μ} (h : t.Connected) (i : WorkerId)
    (qp : QueuePair μ) :
    ({ t with qps := Function.update t.qps i (some qp) } : RdmaTransport μ).Connected := by
  intro j hj hne
  rcases eq_or_ne j i with rfl | hji
  · exact ⟨qp, Function.update_self ..⟩
  · obtain ⟨old, hold⟩ := h j hj hne
    exact ⟨old, (Function.update_of_ne hji ..).trans hold⟩

theorem send_frame (t : RdmaTransport μ) (target : WorkerId) (msg : μ) :
    (t.send target msg).2.localId = t.localId ∧
      (t.send target msg).2.workerCount = t.workerCount := by
  unfold send
  split
  · exact ⟨rfl, rfl⟩
  · split <;> exact ⟨rfl, rfl⟩

/-- A send to another worker puts its message into the queue pair with it. -/
theorem send_eq_of_connected {t : RdmaTransport μ} (h : t.Connected) {target : WorkerId}
    (hlt : target < t.workerCount) (hne : target ≠ t.localId) (msg : μ) :
    ∃ old qp, t.qps target = some old ∧ qp.undrained = old.undrained ++ [msg] ∧
      (t.send target msg).2 = { t with
        qps := Function.update t.qps target (some qp)
        rdmaOps := t.rdmaOps + 1
        bytesSent := t.bytesSent + sizeofMessage } := by
  obtain ⟨old, hold⟩ := h target hlt hne
  have hopen : ¬ (t.workerCount ≤ target ∨ target = t.localId) := by
    rintro (hle | heq)
    · exact absurd hlt (Nat.not_lt.mpr hle)
    · exact hne heq
  refine ⟨old, (old.postWrite msg sizeofMessage t.rdmaOps).2, hold,
    QueuePair.undrained_postWrite (Nat.le_refl _), ?_⟩
  unfold send
  rw [if_neg hopen]
  simp only [hold]
  rfl

/-- **A send to another worker posts its message** and keeps all others. -/
theorem send_of_connected {t : RdmaTransport μ} (h : t.Connected) {target : WorkerId}
    (hlt : target < t.workerCount) (hne : target ≠ t.localId) (msg : μ) :
    (t.send target msg).2.Connected ∧
      ∀ m, (t.send target msg).2.Holds m ↔ t.Holds m ∨ m = msg := by
  obtain ⟨old, qp, hold, hposted, hsend⟩ := send_eq_of_connected h hlt hne msg
  refine ⟨?_, fun m => ⟨holds_send, fun hm => ?_⟩⟩
  · rw [hsend]
    exact connected_update h target qp
  · rw [hsend]
    rcases hm with hm | rfl
    · apply holds_update_of_holds hm
      intro old' hold' hmem
      cases hold.symm.trans hold'
      rw [hposted]
      exact List.mem_append_left _ hmem
    · refine ⟨target, qp, Function.update_self .., ?_⟩
      rw [hposted]
      exact List.mem_append_right _ List.mem_cons_self

/-- A batch to another worker posts all its messages. -/
theorem sendBatch_of_connected {t : RdmaTransport μ} (h : t.Connected) {target : WorkerId}
    (hlt : target < t.workerCount) (hne : target ≠ t.localId) (msgs : List μ) :
    (t.sendBatch target msgs).2.Connected ∧
      (t.sendBatch target msgs).2.localId = t.localId ∧
      (t.sendBatch target msgs).2.workerCount = t.workerCount ∧
      ∀ m, (t.sendBatch target msgs).2.Holds m ↔ t.Holds m ∨ m ∈ msgs := by
  rw [sendBatch_eq]
  induction msgs generalizing t with
  | nil => exact ⟨h, rfl, rfl, by simp⟩
  | cons msg msgs ih =>
      obtain ⟨hid, hcount⟩ := t.send_frame target msg
      obtain ⟨h', hholds⟩ := send_of_connected h hlt hne msg
      obtain ⟨hconn, hid', hcount', hall⟩ := ih h' (by rw [hcount]; exact hlt)
        (by rw [hid]; exact hne)
      refine ⟨hconn, hid'.trans hid, hcount'.trans hcount, fun m => ?_⟩
      rw [List.mem_cons, ← or_assoc, ← hholds]
      exact hall m

theorem receiveStep_frame (acc : List μ × RdmaTransport μ) (i : WorkerId) :
    (receiveStep acc i).2.localId = acc.2.localId ∧
      (receiveStep acc i).2.workerCount = acc.2.workerCount := by
  unfold receiveStep
  split
  · exact ⟨rfl, rfl⟩
  · split <;> exact ⟨rfl, rfl⟩

theorem receiveStep_keeps (acc : List μ × RdmaTransport μ) (i : WorkerId) :
    (acc.2.Connected → (receiveStep acc i).2.Connected) ∧
      ∀ m, m ∈ acc.1 ∨ acc.2.Holds m →
        m ∈ (receiveStep acc i).1 ∨ (receiveStep acc i).2.Holds m := by
  unfold receiveStep
  split
  · exact ⟨id, fun _ => id⟩
  · cases hqp : acc.2.qps i with
    | none => exact ⟨id, fun _ => id⟩
    | some qp =>
        refine ⟨fun h => connected_update h i _, fun m hm => ?_⟩
        by_cases hdrained : m ∈ qp.drainReceived.1
        · exact Or.inl (List.mem_append_right _ hdrained)
        · rcases hm with hm | hm
          · exact Or.inl (List.mem_append_left _ hm)
          · refine Or.inr (holds_update_of_holds hm fun old hold hmem => ?_)
            cases hqp.symm.trans hold
            rw [← qp.drainReceived_append] at hmem
            exact (List.mem_append.mp hmem).resolve_left hdrained

/-- **A transport loses nothing.** Every message of its queue pairs is received or
stays there. -/
theorem receiveAll_of_connected {t : RdmaTransport μ} (h : t.Connected) :
    t.receiveAll.2.Connected ∧ t.receiveAll.2.localId = t.localId ∧
      t.receiveAll.2.workerCount = t.workerCount ∧
      ∀ m, t.Holds m ↔ m ∈ t.receiveAll.1 ∨ t.receiveAll.2.Holds m := by
  have hfold : ∀ (is : List WorkerId) (acc : List μ × RdmaTransport μ), acc.2.Connected →
      (is.foldl receiveStep acc).2.Connected ∧
        (is.foldl receiveStep acc).2.localId = acc.2.localId ∧
        (is.foldl receiveStep acc).2.workerCount = acc.2.workerCount ∧
        ∀ m, m ∈ acc.1 ∨ acc.2.Holds m →
          m ∈ (is.foldl receiveStep acc).1 ∨ (is.foldl receiveStep acc).2.Holds m := by
    intro is
    induction is with
    | nil => exact fun acc h => ⟨h, rfl, rfl, fun _ => id⟩
    | cons i is ih =>
        intro acc h
        obtain ⟨hid, hcount⟩ := receiveStep_frame acc i
        obtain ⟨hconn, hkeeps⟩ := receiveStep_keeps acc i
        obtain ⟨hconn', hid', hcount', hkeeps'⟩ := ih (receiveStep acc i) (hconn h)
        exact ⟨hconn', hid'.trans hid, hcount'.trans hcount, fun m hm => hkeeps' m (hkeeps m hm)⟩
  obtain ⟨hconn, hid, hcount, hkeeps⟩ := hfold (List.range t.workerCount) ([], t) h
  exact ⟨hconn, hid, hcount, fun m => ⟨fun hm => hkeeps m (Or.inr hm), receiveAll_sub⟩⟩

theorem connected_network {t : RdmaTransport μ} (h : t.Connected) (timing : WorkerId → Nat) :
    (t.network timing).Connected := by
  intro i hi hne
  obtain ⟨qp, hqp⟩ := h i hi hne
  exact ⟨qp.network (timing i), by simp [network, hqp]⟩

end RdmaTransport

end Pregel
