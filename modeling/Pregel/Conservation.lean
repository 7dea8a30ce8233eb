import Mathlib.Algebra.BigOperators.Group.Finset.Basic
import Pregel.Local

/-!
Messages are neither lost nor duplicated on their way through a worker.

`tally p` counts the messages with `p` that a bus will hand to its own worker sooner or
later: those in its inbox, in its own box and, if the transport is in use, in the other
boxes and in the queue pairs. `waiting p` counts those among them that the next drain
will not return.

* `tally_network`, `tally_enqueueBatch`, `tally_flush`, `tally_drainInbox`: network
  threads, unrelated sends and flushes keep the tally; a drain returns what is not
  waiting.
* `pending_idle`, `pending_receive`: the messages for one vertex stay with the worker
  until the vertex computes, and then they are in its inbox, apart from those that are
  waiting.
-/

namespace Pregel

namespace QueuePair

variable {μ : Type}

/-- Posted and not yet delivered. -/
def undelivered (qp : QueuePair μ) : List μ := qp.held ++ qp.inFlight.map PendingWrite.msg

theorem undrained_eq (qp : QueuePair μ) : qp.undrained = qp.inbox ++ qp.undelivered := by
  simp [undrained, undelivered]

@[simp] theorem undrained_drainReceived (qp : QueuePair μ) :
    qp.drainReceived.2.undrained = qp.undelivered := by
  simp [undrained, undelivered, drainReceived, held]

end QueuePair

namespace RdmaTransport

variable {μ : Type} (p : μ → Bool)

/-- A count over the queue pairs of a transport. -/
def total (t : RdmaTransport μ) (count : QueuePair μ → Nat) : Nat :=
  ∑ i ∈ Finset.range t.workerCount, if i = t.localId then 0 else (t.qps i).elim 0 count

/-- The messages with `p` in a transport. -/
def tally (t : RdmaTransport μ) : Nat := t.total fun qp => qp.undrained.countP p

/-- The messages with `p` in a transport that are not delivered yet. -/
def waiting (t : RdmaTransport μ) : Nat := t.total fun qp => qp.undelivered.countP p

theorem total_update {t : RdmaTransport μ} (count : QueuePair μ → Nat) {i : WorkerId}
    (hi : i < t.workerCount) (hne : i ≠ t.localId) {old : QueuePair μ} (hold : t.qps i = some old)
    (qp : QueuePair μ) :
    total { t with qps := Function.update t.qps i (some qp) } count + count old =
      t.total count + count qp := by
  have hmem : i ∈ Finset.range t.workerCount := Finset.mem_range.mpr hi
  unfold total
  rw [← Finset.add_sum_erase _ _ hmem, ← Finset.add_sum_erase (Finset.range t.workerCount) _ hmem]
  have hrest : ∀ j ∈ (Finset.range t.workerCount).erase i,
      (if j = t.localId then 0 else (Function.update t.qps i (some qp) j).elim 0 count) =
        if j = t.localId then 0 else (t.qps j).elim 0 count := by
    intro j hj
    rw [Function.update_of_ne (Finset.ne_of_mem_erase hj)]
  rw [Finset.sum_congr rfl hrest]
  simp only [hne, if_false, Function.update_self, hold, Option.elim_some]
  omega

@[simp] theorem tally_network (t : RdmaTransport μ) (timing : WorkerId → Nat) :
    (t.network timing).tally p = t.tally p := by
  unfold tally total
  apply Finset.sum_congr rfl
  intro i _
  cases hqp : t.qps i with
  | none => simp [network, hqp]
  | some qp => simp [network, hqp]

theorem tally_send {t : RdmaTransport μ} (h : t.Connected) {target : WorkerId}
    (hlt : target < t.workerCount) (hne : target ≠ t.localId) (msg : μ) :
    (t.send target msg).2.tally p = t.tally p + [msg].countP p := by
  obtain ⟨old, qp, hold, hposted, hsend⟩ := send_eq_of_connected h hlt hne msg
  have hupdate := total_update (fun qp => qp.undrained.countP p) hlt hne hold qp
  rw [hposted, List.countP_append] at hupdate
  rw [hsend]
  show total { t with qps := _ } _ = _
  unfold tally
  omega

theorem tally_sendBatch {t : RdmaTransport μ} (h : t.Connected) {target : WorkerId}
    (hlt : target < t.workerCount) (hne : target ≠ t.localId) (msgs : List μ) :
    (t.sendBatch target msgs).2.tally p = t.tally p + msgs.countP p := by
  rw [sendBatch_eq]
  induction msgs generalizing t with
  | nil => rfl
  | cons msg msgs ih =>
      obtain ⟨hid, hcount⟩ := t.send_frame target msg
      have hsplit : (msg :: msgs).countP p = [msg].countP p + msgs.countP p := by
        rw [← List.countP_append]
        rfl
      rw [List.foldl_cons, ih (send_of_connected h hlt hne msg).1 (by rw [hcount]; exact hlt)
        (by rw [hid]; exact hne), tally_send p h hlt hne, hsplit, Nat.add_assoc]

theorem tally_receiveStep {acc : List μ × RdmaTransport μ} {i : WorkerId}
    (hi : i < acc.2.workerCount) :
    (receiveStep acc i).1.countP p + (receiveStep acc i).2.tally p =
      acc.1.countP p + acc.2.tally p := by
  unfold receiveStep
  split
  · rfl
  · rename_i hne
    cases hqp : acc.2.qps i with
    | none => rfl
    | some qp =>
        have hupdate := total_update (fun qp => qp.undrained.countP p) hi hne hqp qp.drainReceived.2
        rw [qp.undrained_eq, qp.undrained_drainReceived, List.countP_append] at hupdate
        have hdrained : qp.drainReceived.1 = qp.inbox := rfl
        simp only [List.countP_append, hdrained, tally]
        omega

theorem receiveStep_qps (acc : List μ × RdmaTransport μ) (i j : WorkerId) :
    (receiveStep acc i).2.qps j =
      if j = i ∧ j ≠ acc.2.localId then (acc.2.qps j).map fun qp => qp.drainReceived.2
      else acc.2.qps j := by
  unfold receiveStep
  split
  · rename_i hlocal
    rw [if_neg]
    rintro ⟨rfl, hne⟩
    exact hne hlocal
  · rename_i hlocal
    rcases eq_or_ne j i with rfl | hji
    · cases hqp : acc.2.qps j with
      | none => simp [hqp]
      | some qp => simp [hlocal]
    · cases hqp : acc.2.qps i with
      | none => simp [hji]
      | some qp => simp [hji]

/-- The queue pairs before `k` have been drained. -/
structure Drained (t : RdmaTransport μ) (k : Nat) (acc : List μ × RdmaTransport μ) : Prop where
  localId : acc.2.localId = t.localId
  workerCount : acc.2.workerCount = t.workerCount
  conserved : acc.1.countP p + acc.2.tally p = t.tally p
  qps : ∀ j, acc.2.qps j = if j < k ∧ j ≠ t.localId then (t.qps j).map fun qp => qp.drainReceived.2
    else t.qps j

theorem drained_range (t : RdmaTransport μ) {k : Nat} (hk : k ≤ t.workerCount) :
    Drained p t k ((List.range k).foldl receiveStep ([], t)) := by
  induction k with
  | zero => exact ⟨rfl, rfl, by simp, by simp⟩
  | succ k ih =>
      have h := ih (Nat.le_of_succ_le hk)
      rw [List.range_succ, List.foldl_append, List.foldl_cons, List.foldl_nil]
      obtain ⟨hid, hcount⟩ := receiveStep_frame ((List.range k).foldl receiveStep ([], t)) k
      refine ⟨hid.trans h.localId, hcount.trans h.workerCount, ?_, fun j => ?_⟩
      · rw [tally_receiveStep p (by rw [h.workerCount]; exact hk), h.conserved]
      · rw [receiveStep_qps, h.localId, h.qps]
        rcases Nat.lt_trichotomy j k with hlt | rfl | hgt
        · simp [hlt, Nat.lt_succ_of_lt hlt, hlt.ne]
        · simp
        · simp [hgt.ne', Nat.not_lt.mpr hgt.le, Nat.not_lt.mpr hgt]

/-- **What is received and what is left make up what was there**, and what is left is
what was not delivered. -/
theorem tally_receiveAll (t : RdmaTransport μ) :
    t.receiveAll.1.countP p + t.receiveAll.2.tally p = t.tally p ∧
      t.receiveAll.2.tally p = t.waiting p := by
  have h := drained_range p t (Nat.le_refl t.workerCount)
  refine ⟨h.conserved, ?_⟩
  unfold tally waiting total
  rw [receiveAll, h.workerCount, h.localId]
  apply Finset.sum_congr rfl
  intro i hi
  split
  · rfl
  · rename_i hne
    rw [h.qps, if_pos ⟨Finset.mem_range.mp hi, hne⟩]
    cases t.qps i with
    | none => rfl
    | some qp => simp

end RdmaTransport

namespace MessageBus

variable {μ : Type} (p : μ → Bool)

/-- The messages with `p` in the boxes for other workers. -/
def boxed (bus : MessageBus μ) : Nat :=
  ∑ w ∈ Finset.range bus.workerCount, if w = bus.localId then 0 else (bus.outboxes w).countP p

/-- The messages with `p` that this bus will hand to its worker. -/
def tally (bus : MessageBus μ) : Nat :=
  bus.inbox.countP p + (bus.outboxes bus.localId).countP p +
    if bus.useRdma then bus.boxed p + bus.transport.elim 0 (RdmaTransport.tally p) else 0

/-- The messages with `p` that this bus holds. -/
def stored (bus : MessageBus μ) : Nat :=
  bus.inbox.countP p + (bus.outboxes bus.localId).countP p + bus.boxed p +
    bus.transport.elim 0 (RdmaTransport.tally p)

/-- Those that the bus will hand to its worker and that the next drain does not return. -/
def waiting (bus : MessageBus μ) : Nat :=
  (bus.outboxes bus.localId).countP p +
    if bus.useRdma then bus.boxed p + bus.transport.elim 0 (RdmaTransport.waiting p) else 0

theorem tally_le_stored (bus : MessageBus μ) : bus.tally p ≤ bus.stored p := by
  unfold tally stored
  split <;> omega

@[simp] theorem tally_network (bus : MessageBus μ) (timing : WorkerId → Nat) :
    (bus.network timing).tally p = bus.tally p := by
  cases ht : bus.transport with
  | none => simp [tally, network, boxed, ht]
  | some t => simp [tally, network, boxed, ht]

/-- **A drain returns what is not waiting and leaves what is.** -/
theorem tally_drainInbox (bus : MessageBus μ) :
    bus.drainInbox.1.countP p + bus.waiting p = bus.tally p ∧
      bus.drainInbox.2.tally p = bus.waiting p := by
  cases hrdma : bus.useRdma with
  | false =>
      have hremote : bus.receiveRemote = bus := by simp [receiveRemote, hrdma]
      simp [drainInbox, hremote, tally, waiting, hrdma]
  | true =>
      cases ht : bus.transport with
      | none =>
          have hremote : bus.receiveRemote = bus := by simp [receiveRemote, ht]
          simp only [drainInbox, hremote, tally, waiting, hrdma, ht, boxed, Option.elim_none,
            if_true, List.countP_nil]
          omega
      | some t =>
          obtain ⟨hconserved, hleft⟩ := t.tally_receiveAll p
          have hremote : bus.receiveRemote =
              { bus with inbox := bus.inbox ++ t.receiveAll.1, transport := some t.receiveAll.2 } := by
            simp [receiveRemote, hrdma, ht]
          simp only [drainInbox, hremote, tally, waiting, hrdma, ht, boxed, List.countP_append,
            Option.elim_some, if_true, List.countP_nil, hleft]
          omega

/-- Enqueueing other messages changes nothing. -/
theorem tally_enqueueBatch [Addressed μ] {pmap : PartitionMap} (bus : MessageBus μ) {msgs : List μ}
    (hmsgs : ∀ m ∈ msgs, p m = false) : (enqueueBatch pmap bus msgs).tally p = bus.tally p := by
  have hbox : ∀ w, ((enqueueBatch pmap bus msgs).outboxes w).countP p =
      (bus.outboxes w).countP p := by
    intro w
    have hnone : (msgs.filter fun m => pmap.ownerOf (dst m) = w).countP p = 0 := by
      apply List.countP_eq_zero.mpr
      intro m hm
      simp [hmsgs m (List.mem_filter.mp hm).1]
    rw [enqueueBatch_outboxes, List.countP_append, hnone, Nat.add_zero]
  unfold tally boxed
  simp only [hbox, enqueueBatch_localId, enqueueBatch_workerCount, enqueueBatch_useRdma,
    enqueueBatch_inbox, enqueueBatch_transport]

theorem tally_flushBox {bus : MessageBus μ} (h : bus.Connected) (hrdma : bus.useRdma = true)
    (boxes : WorkerId → List μ) {w : WorkerId} (hw : w < bus.workerCount) :
    (flushBox boxes bus w).transport.elim 0 (RdmaTransport.tally p) =
      bus.transport.elim 0 (RdmaTransport.tally p) +
        if w = bus.localId then 0 else (boxes w).countP p := by
  unfold flushBox
  split
  · rename_i hempty
    simp [List.isEmpty_iff.mp hempty]
  · dsimp only
    split
    · rfl
    · rename_i hlocal
      obtain ⟨t, ht, hconn, hid, hcount⟩ := h hrdma
      simp only [hrdma, ht, Option.elim_some]
      exact RdmaTransport.tally_sendBatch p hconn (hcount ▸ hw) (hid ▸ hlocal) (boxes w)

theorem tally_flush_range {bus : MessageBus μ} (h : bus.Connected) (hrdma : bus.useRdma = true)
    (boxes : WorkerId → List μ) {k : Nat} (hk : k ≤ bus.workerCount) :
    ((List.range k).foldl (flushBox boxes) bus).Connected ∧
      ((List.range k).foldl (flushBox boxes) bus).transport.elim 0 (RdmaTransport.tally p) =
        bus.transport.elim 0 (RdmaTransport.tally p) +
          ∑ w ∈ Finset.range k, if w = bus.localId then 0 else (boxes w).countP p := by
  induction k with
  | zero => exact ⟨h, rfl⟩
  | succ k ih =>
      obtain ⟨hconn, htally⟩ := ih (Nat.le_of_succ_le hk)
      obtain ⟨hid, hcount, hrdma', -⟩ := foldl_flushBox_frame boxes (List.range k) bus
      rw [List.range_succ, List.foldl_append, List.foldl_cons, List.foldl_nil, Finset.sum_range_succ]
      have hlt : k < ((List.range k).foldl (flushBox boxes) bus).workerCount := hcount ▸ hk
      refine ⟨(flushBox_of_connected boxes hlt hconn (hrdma'.trans hrdma)).1, ?_⟩
      rw [tally_flushBox p hconn (hrdma'.trans hrdma) boxes hlt, htally, hid, Nat.add_assoc]

/-- **A flush loses nothing that the bus will hand to its own worker.** -/
theorem tally_flush {bus : MessageBus μ} (h : bus.Connected)
    (hlocal : bus.localId < bus.workerCount) : bus.flush.tally p = bus.tally p := by
  have hempty : bus.flush.boxed p = 0 := by
    unfold boxed
    rw [flush_outboxes]
    simp
  unfold tally
  rw [flush_inbox hlocal, flush_outboxes, flush_useRdma, hempty, List.countP_append]
  cases hrdma : bus.useRdma with
  | false => rfl
  | true =>
      have hconn : ({ bus with outboxes := fun _ => [] } : MessageBus μ).Connected := h
      obtain ⟨-, htally⟩ := tally_flush_range p hconn hrdma bus.outboxes (Nat.le_refl _)
      have htally : bus.flush.transport.elim 0 (RdmaTransport.tally p) =
          bus.transport.elim 0 (RdmaTransport.tally p) + bus.boxed p := htally
      simp only [htally, if_true, List.countP_nil]
      omega

end MessageBus

namespace WorkerNode

variable {σ μ : Type} [Addressed μ] (p : μ → Bool)

/-- The messages with `p` for vertex `vid` that worker `n` has or will have. -/
def pending (vid : VertexId) (n : WorkerNode σ μ) : Nat :=
  (n.inboxOf vid).countP p + n.bus.tally p

/-- The messages with `p` for vertex `vid` that worker `n` has. -/
def stored (vid : VertexId) (n : WorkerNode σ μ) : Nat :=
  (n.inboxOf vid).countP p + n.bus.stored p

omit [Addressed μ] in
theorem pending_le_stored (vid : VertexId) (n : WorkerNode σ μ) :
    n.pending p vid ≤ n.stored p vid :=
  Nat.add_le_add_left (n.bus.tally_le_stored p) _

section Pending

variable {p} {pmap : PartitionMap} {compute : Compute σ μ} {step : Superstep}
  {timing : WorkerId → Nat} {n : WorkerNode σ μ} {vid : VertexId}

variable (timing n) in
/-- At the start of a superstep, the messages for a vertex are in its entry or waiting. -/
theorem pending_receive (hdst : ∀ m, p m = true → dst m = vid) :
    ((n.receive timing).inboxOf vid).countP p +
    (n.bus.network timing).waiting p = n.pending p vid := by
  have hfilter : ((n.bus.network timing).drainInbox.1.filter fun m => dst m = vid).countP p =
      (n.bus.network timing).drainInbox.1.countP p := by
    rw [List.countP_filter]
    apply List.countP_congr
    intro m _
    simpa using fun h => hdst m h
  obtain ⟨hconserved, -⟩ := (n.bus.network timing).tally_drainInbox p
  rw [MessageBus.tally_network] at hconserved
  rw [inboxOf, receive_vertexInbox, getD_extend, List.countP_append, hfilter, pending, inboxOf]
  omega

variable (timing n) in
/-- What is in the entry of a vertex or in the inbox of the bus is in the entry when the
tasks start. -/
theorem arrived_le (hdst : ∀ m, p m = true → dst m = vid) :
    (n.inboxOf vid).countP p + n.bus.inbox.countP p ≤
      ((n.receive timing).inboxOf vid).countP p := by
  have hreceive := pending_receive timing n hdst
  obtain ⟨hconserved, -⟩ := (n.bus.network timing).tally_drainInbox p
  obtain ⟨remote, hdrain, -⟩ := (n.bus.network timing).drainInbox_eq
  have hinbox : (n.bus.network timing).inbox = n.bus.inbox := rfl
  rw [hdrain, hinbox, List.countP_append, MessageBus.tally_network] at hconserved
  rw [pending] at hreceive
  omega

omit [Addressed μ] in
/-- A vertex with messages has a task. -/
theorem mem_taskIds_of_inboxOf (hmem : vid ∈ n.vertices) (hinbox : n.inboxOf vid ≠ []) :
    vid ∈ n.taskIds := by
  obtain ⟨v, hv⟩ := AList.exists_lookup_of_mem hmem
  rw [mem_taskIds_of_lookup hv]
  cases hentry : n.vertexInbox vid with
  | none => simp [inboxOf, hentry] at hinbox
  | some entry => simp [skips, hentry]

/-- At the end of a superstep, the entry of a vertex of this worker is consumed and the
rest is pending. -/
theorem pending_runSuperstep (hconn : n.bus.Connected) (hlocal : n.bus.localId < n.bus.workerCount)
    (hmem : vid ∈ n.vertices)
    (hsent : ∀ m ∈ (n.computed compute step timing).collectedMessages, p m = false) :
    (n.runSuperstep pmap compute step timing).pending p vid = (n.bus.network timing).waiting p := by
  have hdrained := MessageBus.connected_drainInbox (MessageBus.connected_network hconn timing)
  have hflush : (n.runSuperstep pmap compute step timing).bus.tally p =
      (n.bus.network timing).drainInbox.2.tally p := by
    rw [runSuperstep_bus, computed_bus,
      MessageBus.tally_flush p (MessageBus.connected_enqueueBatch hdrained _),
      MessageBus.tally_enqueueBatch p _ hsent]
    rw [MessageBus.enqueueBatch_localId, MessageBus.enqueueBatch_workerCount,
      MessageBus.drainInbox_localId, MessageBus.drainInbox_workerCount]
    exact hlocal
  rw [pending, runSuperstep_inboxOf, if_pos hmem, hflush,
    ((n.bus.network timing).tally_drainInbox p).2]
  simp

/-- **A superstep in which a vertex does not compute** keeps everything that is pending
for it. -/
theorem pending_idle (hdst : ∀ m, p m = true → dst m = vid) (hconn : n.bus.Connected)
    (hlocal : n.bus.localId < n.bus.workerCount) (hmem : vid ∈ n.vertices)
    (hsent : ∀ m ∈ (n.computed compute step timing).collectedMessages, p m = false)
    (hidle : vid ∉ (n.receive timing).taskIds) :
    (n.runSuperstep pmap compute step timing).pending p vid = n.pending p vid := by
  have hnone : (n.receive timing).inboxOf vid = [] := by
    obtain ⟨v, hv⟩ := AList.exists_lookup_of_mem hmem
    rw [mem_taskIds_of_lookup (n := n.receive timing) hv] at hidle
    have hskips : (n.receive timing).skips vid v = true := by simpa using hidle
    rw [skips, Bool.and_eq_true, Option.isNone_iff_eq_none] at hskips
    rw [inboxOf, hskips.2]
    rfl
  have hreceive := pending_receive timing n hdst
  rw [hnone, List.countP_nil, Nat.zero_add] at hreceive
  rw [pending_runSuperstep hconn hlocal hmem hsent, hreceive]

end Pending

end WorkerNode

end Pregel
