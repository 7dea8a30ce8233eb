import Pregel.Provenance
import Pregel.Conservation
import Pregel.Convergence
import Pregel.Lib.Range

/-!
What the counters of a worker say (`worker_node.cpp`, `message_bus.cpp`, `rdma_transport.cpp`).

A worker counts in three places: in its own statistics, in its bus and in its transport. Each
place is updated on its own, some by the tasks, some before and some after them. `Ledger`
says what they mean, and how they fit together, between any two supersteps of a run.

* `sendBatch_counters`, `flush_counters`: what a batch and a flush add.
* `runSuperstep_stats`: what a superstep adds to the statistics.
* `ledger_step`, `Execution.ledger`: the ledger of a worker after a superstep and after any
  number of them.
* `ledger_of_execution`: the ledgers of all workers, added up.
-/

namespace Pregel

open Lts
open WorkerNode (Phase Event)

namespace RdmaTransport

variable {μ : Type}

/-- Every message of a batch is one operation of the size of a message. -/
theorem sendBatch_counters {t : RdmaTransport μ} (h : t.Connected) {target : WorkerId}
    (hlt : target < t.workerCount) (hne : target ≠ t.localId) (msgs : List μ) :
    (t.sendBatch target msgs).2.rdmaOps = t.rdmaOps + msgs.length ∧
      (t.sendBatch target msgs).2.bytesSent = t.bytesSent + sizeofMessage * msgs.length := by
  rw [sendBatch_eq]
  induction msgs generalizing t with
  | nil => exact ⟨rfl, rfl⟩
  | cons msg msgs ih =>
      obtain ⟨hid, hcount⟩ := t.send_frame target msg
      obtain ⟨-, qp, -, -, hsend⟩ := send_eq_of_connected h hlt hne msg
      obtain ⟨hops, hbytes⟩ := ih (send_of_connected h hlt hne msg).1 (by rw [hcount]; exact hlt)
        (by rw [hid]; exact hne)
      have hops₁ : (t.send target msg).2.rdmaOps = t.rdmaOps + 1 := by rw [hsend]
      have hbytes₁ : (t.send target msg).2.bytesSent = t.bytesSent + sizeofMessage := by rw [hsend]
      rw [List.foldl_cons, hops, hbytes, hops₁, hbytes₁, List.length_cons, Nat.mul_succ]
      omega

theorem receiveAll_counters (t : RdmaTransport μ) :
    t.receiveAll.2.rdmaOps = t.rdmaOps ∧ t.receiveAll.2.bytesSent = t.bytesSent := by
  have hfold : ∀ (is : List WorkerId) (acc : List μ × RdmaTransport μ),
      (is.foldl receiveStep acc).2.rdmaOps = acc.2.rdmaOps ∧
        (is.foldl receiveStep acc).2.bytesSent = acc.2.bytesSent := by
    intro is
    induction is with
    | nil => exact fun acc => ⟨rfl, rfl⟩
    | cons i is ih =>
        intro acc
        have hstep : (receiveStep acc i).2.rdmaOps = acc.2.rdmaOps ∧
            (receiveStep acc i).2.bytesSent = acc.2.bytesSent := by
          unfold receiveStep
          split
          · exact ⟨rfl, rfl⟩
          · split <;> exact ⟨rfl, rfl⟩
        obtain ⟨hops, hbytes⟩ := ih (receiveStep acc i)
        exact ⟨hops.trans hstep.1, hbytes.trans hstep.2⟩
  exact hfold _ _

end RdmaTransport

namespace MessageBus

variable {μ : Type}

/-- `rdma_ops` of the transport, if there is one. -/
def ops (bus : MessageBus μ) : Nat := bus.transport.elim 0 RdmaTransport.rdmaOps

/-- `bytes_sent` of the transport, if there is one. -/
def bytes (bus : MessageBus μ) : Nat := bus.transport.elim 0 RdmaTransport.bytesSent

theorem drainInbox_counters (bus : MessageBus μ) :
    bus.drainInbox.2.ops = bus.ops ∧ bus.drainInbox.2.bytes = bus.bytes ∧
      bus.drainInbox.2.msgsSent = bus.msgsSent ∧
      bus.drainInbox.2.msgsReceived = bus.msgsReceived + bus.drainInbox.1.length := by
  unfold drainInbox receiveRemote
  split
  · next t _ ht =>
      obtain ⟨hops, hbytes⟩ := t.receiveAll_counters
      have hops₀ : bus.ops = t.rdmaOps := by rw [ops, ht, Option.elim_some]
      have hbytes₀ : bus.bytes = t.bytesSent := by rw [bytes, ht, Option.elim_some]
      rw [hops₀, hbytes₀]
      exact ⟨hops, hbytes, rfl, rfl⟩
  · exact ⟨rfl, rfl, rfl, rfl⟩

theorem network_counters (bus : MessageBus μ) (timing : WorkerId → Nat) :
    (bus.network timing).ops = bus.ops ∧ (bus.network timing).bytes = bus.bytes := by
  unfold ops bytes network
  cases bus.transport <;> exact ⟨rfl, rfl⟩

/-- A box for another worker goes to the transport, if that is in use. -/
theorem flushBox_counters {bus : MessageBus μ} (h : bus.Connected) (boxes : WorkerId → List μ)
    {w : WorkerId} (hw : w < bus.workerCount) :
    (flushBox boxes bus w).msgsSent = bus.msgsSent + (boxes w).length ∧
      (flushBox boxes bus w).msgsReceived = bus.msgsReceived ∧
      (bus.useRdma = true →
        (flushBox boxes bus w).ops = bus.ops + (if w = bus.localId then 0 else (boxes w).length) ∧
        (flushBox boxes bus w).bytes =
          bus.bytes + sizeofMessage * if w = bus.localId then 0 else (boxes w).length) := by
  unfold flushBox
  split
  · next hempty => simp [List.isEmpty_iff.mp hempty]
  · dsimp only
    split
    · next hlocal => exact ⟨rfl, rfl, fun _ => ⟨rfl, rfl⟩⟩
    · next hlocal =>
        refine ⟨?_, ?_, fun hrdma => ?_⟩
        · split <;> rfl
        · split <;> rfl
        · obtain ⟨t, ht, hconn, hid, hcount⟩ := h hrdma
          obtain ⟨hops, hbytes⟩ :=
            RdmaTransport.sendBatch_counters hconn (hcount ▸ hw) (hid ▸ hlocal) (boxes w)
          simp only [hrdma, ht, ops, bytes, Option.elim_some]
          exact ⟨hops, hbytes⟩

/-- The loop of a flush. -/
theorem flush_range_counters {bus : MessageBus μ} (h : bus.Connected) (boxes : WorkerId → List μ)
    {k : Nat} (hk : k ≤ bus.workerCount) :
    ((List.range k).foldl (flushBox boxes) bus).Connected ∧
      ((List.range k).foldl (flushBox boxes) bus).msgsSent =
        bus.msgsSent + ∑ w ∈ Finset.range k, (boxes w).length ∧
      ((List.range k).foldl (flushBox boxes) bus).msgsReceived = bus.msgsReceived ∧
      (bus.useRdma = true →
        ((List.range k).foldl (flushBox boxes) bus).ops =
          bus.ops + ∑ w ∈ Finset.range k, (if w = bus.localId then 0 else (boxes w).length) ∧
        ((List.range k).foldl (flushBox boxes) bus).bytes = bus.bytes +
          sizeofMessage * ∑ w ∈ Finset.range k, if w = bus.localId then 0 else (boxes w).length) := by
  induction k with
  | zero => exact ⟨h, rfl, rfl, fun _ => ⟨rfl, rfl⟩⟩
  | succ k ih =>
      obtain ⟨hconn, hsent, hreceived, hposted⟩ := ih (Nat.le_of_succ_le hk)
      obtain ⟨hid, hcount, hrdma', -⟩ := foldl_flushBox_frame boxes (List.range k) bus
      rw [List.range_succ, List.foldl_append, List.foldl_cons, List.foldl_nil]
      simp only [Finset.sum_range_succ]
      have hlt : k < ((List.range k).foldl (flushBox boxes) bus).workerCount := hcount ▸ hk
      obtain ⟨hsent', hreceived', hposted'⟩ := flushBox_counters hconn boxes hlt
      refine ⟨?_, ?_, hreceived'.trans hreceived, fun hrdma => ?_⟩
      · intro hrdma
        have hon := hrdma
        rw [(flushBox_frame boxes _ k).2.2.1] at hon
        exact (flushBox_of_connected boxes hlt hconn hon).1 hrdma
      · rw [hsent', hsent, Nat.add_assoc]
      · obtain ⟨hops, hbytes⟩ := hposted hrdma
        obtain ⟨hops', hbytes'⟩ := hposted' (hrdma'.trans hrdma)
        rw [hid] at hops' hbytes'
        rw [hops', hbytes', hops, hbytes, Nat.mul_add]
        omega

/-- What a flush adds, when no box is out of range. -/
theorem flush_counters {bus : MessageBus μ} (h : bus.Connected) :
    bus.flush.msgsSent =
        bus.msgsSent + ∑ w ∈ Finset.range bus.workerCount, (bus.outboxes w).length ∧
      bus.flush.msgsReceived = bus.msgsReceived ∧
      (bus.useRdma = true →
        bus.flush.ops = bus.ops + ∑ w ∈ Finset.range bus.workerCount,
          (if w = bus.localId then 0 else (bus.outboxes w).length) ∧
        bus.flush.bytes = bus.bytes + sizeofMessage * ∑ w ∈ Finset.range bus.workerCount,
          if w = bus.localId then 0 else (bus.outboxes w).length) := by
  have hconn : ({ bus with outboxes := fun _ => [] } : MessageBus μ).Connected := h
  exact (flush_range_counters hconn bus.outboxes (Nat.le_refl _)).2

section Enqueue

variable [Addressed μ] {pmap : PartitionMap} {bus : MessageBus μ} {msgs : List μ}

/-- What is enqueued is in the boxes, each message in one. -/
theorem sum_enqueueBatch (empty : bus.outboxes = fun _ => [])
    (bound : ∀ m ∈ msgs, pmap.ownerOf (dst m) < bus.workerCount) :
    (∑ w ∈ Finset.range bus.workerCount, ((enqueueBatch pmap bus msgs).outboxes w).length) =
        msgs.length ∧
      (∑ w ∈ Finset.range bus.workerCount,
        if w = bus.localId then 0 else ((enqueueBatch pmap bus msgs).outboxes w).length) =
        msgs.countP fun m => pmap.ownerOf (dst m) ≠ bus.localId := by
  have hall := List.sum_countP_filter_ne bound bus.workerCount fun _ => true
  have hremote := List.sum_countP_filter_ne bound bus.localId fun _ => true
  simp only [List.countP_true, Bool.true_and] at hall hremote
  simp only [enqueueBatch_outboxes, empty, List.nil_append]
  refine ⟨?_, hremote⟩
  have hevery : (msgs.countP fun m => decide (pmap.ownerOf (dst m) ≠ bus.workerCount)) =
      msgs.length := by
    apply List.countP_eq_length.mpr
    intro m hm
    exact decide_eq_true (Nat.ne_of_lt (bound m hm))
  rw [← hevery, ← hall]
  apply Finset.sum_congr rfl
  intro w hw
  rw [if_neg (Nat.ne_of_lt (Finset.mem_range.mp hw))]

/-- A message that is enqueued is one that the bus will hand to its own worker, unless it is for
another worker and there is no transport. -/
theorem tally_enqueueBatch_all (bound : ∀ m ∈ msgs, pmap.ownerOf (dst m) < bus.workerCount) :
    (enqueueBatch pmap bus msgs).tally (fun _ => true) +
        (if bus.useRdma then 0 else msgs.countP fun m => pmap.ownerOf (dst m) ≠ bus.localId) =
      bus.tally (fun _ => true) + msgs.length := by
  set own := (msgs.filter fun m => pmap.ownerOf (dst m) = bus.localId).length with hown
  set remote := msgs.countP fun m => pmap.ownerOf (dst m) ≠ bus.localId with hremote
  have hlength : msgs.length = own + remote := by
    rw [List.length_eq_countP_add_countP fun m => decide (pmap.ownerOf (dst m) = bus.localId),
      List.countP_eq_length_filter, hown, hremote]
    simp
  have hboxed : (enqueueBatch pmap bus msgs).boxed (fun _ => true) =
      bus.boxed (fun _ => true) + remote := by
    have hfiber := List.sum_countP_filter_ne bound bus.localId fun _ => true
    simp only [Bool.true_and] at hfiber
    rw [hremote, ← hfiber, boxed, boxed, ← Finset.sum_add_distrib, enqueueBatch_workerCount,
      enqueueBatch_localId]
    apply Finset.sum_congr rfl
    intro w _
    rw [enqueueBatch_outboxes, List.countP_append]
    split <;> rfl
  have hbox : ((enqueueBatch pmap bus msgs).outboxes bus.localId).countP (fun _ => true) =
      (bus.outboxes bus.localId).countP (fun _ => true) + own := by
    rw [enqueueBatch_outboxes, List.countP_append, hown, List.countP_true]
  unfold tally
  rw [hboxed, enqueueBatch_localId, hbox, enqueueBatch_inbox, enqueueBatch_useRdma,
    enqueueBatch_transport, hlength]
  split <;> omega

/-- **What routing a batch adds**: all of it is counted as sent, and what is for other workers
is posted, or lost. -/
theorem route_counters (h : bus.Connected) (inRange : bus.localId < bus.workerCount)
    (empty : bus.outboxes = fun _ => [])
    (bound : ∀ m ∈ msgs, pmap.ownerOf (dst m) < bus.workerCount) {remote : Nat}
    (hremote : remote = msgs.countP fun m => pmap.ownerOf (dst m) ≠ bus.localId) :
    (enqueueBatch pmap bus msgs).flush.msgsSent = bus.msgsSent + msgs.length ∧
      (enqueueBatch pmap bus msgs).flush.msgsReceived = bus.msgsReceived ∧
      (enqueueBatch pmap bus msgs).flush.tally (fun _ => true) +
          (if bus.useRdma then 0 else remote) =
        bus.tally (fun _ => true) + msgs.length ∧
      (bus.useRdma = true → (enqueueBatch pmap bus msgs).flush.ops = bus.ops + remote ∧
        (enqueueBatch pmap bus msgs).flush.bytes = bus.bytes + sizeofMessage * remote) := by
  have hconn : (enqueueBatch pmap bus msgs).Connected := connected_enqueueBatch h msgs
  obtain ⟨hall, hother⟩ := sum_enqueueBatch empty bound
  obtain ⟨hsent, hreceived, hposted⟩ := flush_counters hconn
  have htally := tally_flush (fun _ => true) hconn (by simpa using inRange)
  rw [enqueueBatch_workerCount, hall] at hsent
  rw [enqueueBatch_workerCount, enqueueBatch_localId, hother, ← hremote] at hposted
  rw [hsent, hreceived, htally, hremote, tally_enqueueBatch_all bound, ← hremote]
  rw [enqueueBatch_frame] at hposted ⊢
  exact ⟨rfl, rfl, rfl, hposted⟩

end Enqueue

end MessageBus

namespace WorkerNode

variable {σ μ : Type} [Addressed μ] {pmap : PartitionMap} {compute : Compute σ μ}
  {step : Superstep} {timing : WorkerId → Nat} {i : WorkerId} {n : WorkerNode σ μ}
  {calls sent remote k : Nat}

/-- **What a superstep adds to the statistics of a worker.** -/
theorem runSuperstep_stats : (n.runSuperstep pmap compute step timing).stats =
    { n.stats with
      verticesProcessed := n.stats.verticesProcessed + (n.receive timing).taskIds.length
      messagesSent :=
        n.stats.messagesSent + (n.computed compute step timing).collectedMessages.length
      messagesReceived := n.stats.messagesReceived + (n.bus.network timing).drainInbox.1.length
      superstepsCompleted := n.stats.superstepsCompleted + 1 } := by
  have hlength := (outstanding_submitted (n.receive timing)).length_eq
  rw [List.length_map] at hlength
  have hcomputed : (n.computed compute step timing).stats =
      { n.stats with
        verticesProcessed := n.stats.verticesProcessed + (n.receive timing).taskIds.length
        messagesReceived :=
          n.stats.messagesReceived + (n.bus.network timing).drainInbox.1.length } := by
    rw [← hlength]
    rfl
  rw [runSuperstep_eq, finish_eq]
  simp only [hcomputed]

/-- The ledger of worker `i`: `calls` of `compute` so far, `sent` messages collected, `remote`
of them for other workers, in `k` supersteps. -/
structure Ledger (calls sent remote k : Nat) (n : WorkerNode σ μ) : Prop where
  processed : n.stats.verticesProcessed = calls
  collected : n.stats.messagesSent = sent
  completed : n.stats.superstepsCompleted = k
  migrations : n.stats.migrationsPerformed = 0
  routed : n.bus.msgsSent = sent
  drained : n.bus.msgsReceived = n.stats.messagesReceived
  /-- Without the transport messages for other workers are lost. -/
  conserved : n.stats.messagesReceived + n.bus.tally (fun _ => true) +
    (if n.bus.useRdma then 0 else remote) = sent
  posted : n.bus.useRdma = true → n.bus.ops = remote ∧ n.bus.bytes = sizeofMessage * remote

variable (compute step timing) in
/-- **A superstep keeps the ledger.** -/
theorem ledger_step (h : AtBoundary pmap i n) (hconn : n.bus.Connected)
    (inRange : ∀ vid, pmap.ownerOf vid < n.bus.workerCount)
    (ledger : Ledger calls sent remote k n) :
    Ledger (calls + (n.receive timing).taskIds.length)
      (sent + (n.computed compute step timing).collectedMessages.length)
      (remote + (n.computed compute step timing).collectedMessages.countP fun m =>
        pmap.ownerOf (dst m) ≠ i) (k + 1) (n.runSuperstep pmap compute step timing) := by
  set msgs := (n.computed compute step timing).collectedMessages
  set drain := (n.bus.network timing).drainInbox
  have hlocal : drain.2.localId = n.bus.localId := MessageBus.drainInbox_localId _
  have hcount : drain.2.workerCount = n.bus.workerCount := MessageBus.drainInbox_workerCount _
  have hrdma : drain.2.useRdma = n.bus.useRdma := MessageBus.drainInbox_useRdma _
  have hempty : drain.2.outboxes = fun _ => [] := 
    (MessageBus.drainInbox_outboxes _).trans h.flushed
  have hbus : (n.runSuperstep pmap compute step timing).bus =
      (drain.2.enqueueBatch pmap msgs).flush := runSuperstep_bus
  -- what the network threads and the drain do to the bus
  obtain ⟨hnops, hnbytes⟩ := n.bus.network_counters timing
  obtain ⟨hdops, hdbytes, hdsent, hdreceived⟩ := (n.bus.network timing).drainInbox_counters
  obtain ⟨hreturned, hleft⟩ := (n.bus.network timing).tally_drainInbox fun _ => true
  rw [MessageBus.tally_network, ← hleft, List.countP_true] at hreturned
  change drain.1.length + drain.2.tally (fun _ => true) = n.bus.tally (fun _ => true) at hreturned
  -- what the routing does to it
  have hdrained : drain.2.Connected :=
    MessageBus.connected_drainInbox (MessageBus.connected_network hconn timing)
  have hbound : ∀ m ∈ msgs, pmap.ownerOf (dst m) < drain.2.workerCount :=
    fun m _ => hcount ▸ inRange _
  obtain ⟨hsent, hreceived, htally, hposted⟩ := MessageBus.route_counters hdrained
    (by rw [hlocal, hcount, h.localId]; exact h.inRange) hempty hbound rfl
  rw [hlocal, h.localId] at htally hposted
  have hstats : (n.runSuperstep pmap compute step timing).stats.messagesReceived =
      n.stats.messagesReceived + drain.1.length := by
    rw [runSuperstep_stats]
  constructor
  · rw [runSuperstep_stats, ledger.processed]
  · rw [runSuperstep_stats, ledger.collected]
  · rw [runSuperstep_stats, ledger.completed]
  · rw [runSuperstep_stats, ledger.migrations]
  · rw [hbus, hsent, hdsent]
    exact congrArg (· + msgs.length) ledger.routed
  · rw [hbus, hreceived, hdreceived, hstats]
    exact congrArg (· + drain.1.length) ledger.drained
  · have hconserved := ledger.conserved
    rw [runSuperstep_useRdma, hstats, hbus]
    rw [hrdma] at htally
    cases hon : n.bus.useRdma with
    | true =>
        rw [hon, if_pos rfl] at htally hconserved
        rw [if_pos rfl]
        omega
    | false =>
        rw [hon, if_neg Bool.false_ne_true] at htally hconserved
        rw [if_neg Bool.false_ne_true]
        omega
  · intro hon
    rw [runSuperstep_useRdma] at hon
    obtain ⟨hops, hbytes⟩ := hposted (hrdma.trans hon)
    obtain ⟨hops₀, hbytes₀⟩ := ledger.posted hon
    rw [hbus, hops, hbytes, hdops, hdbytes, hnops, hnbytes, hops₀, hbytes₀, Nat.mul_add]
    exact ⟨rfl, rfl⟩

omit [Addressed μ] in
/-- A new worker has done nothing. -/
theorem ledger_new (id : WorkerId) (config : EngineConfig) (localId : WorkerId) (workerCount : Nat)
    (useRdma : Bool) (vertices : AList fun _ : VertexId => Vertex σ μ) :
    Ledger 0 0 0 0 { (WorkerNode.new id config (.new localId workerCount useRdma) : WorkerNode σ μ) with
      vertices := vertices } := by
  have hboxed : (MessageBus.new localId workerCount useRdma : MessageBus μ).boxed (fun _ => true) =
      0 := by
    apply Finset.sum_eq_zero
    intro w _
    split <;> rfl
  have htransport : (RdmaTransport.new localId workerCount : RdmaTransport μ).tally
      (fun _ => true) = 0 := by
    unfold RdmaTransport.tally RdmaTransport.total
    apply Finset.sum_eq_zero
    intro w hw
    by_cases hlocal : w = localId
    · exact if_pos hlocal
    · have hqp : (RdmaTransport.new localId workerCount : RdmaTransport μ).qps w =
          some { localId := localId, remoteId := w } :=
        if_pos ⟨Finset.mem_range.mp hw, hlocal⟩
      rw [hqp]
      exact if_neg hlocal
  have htally : (MessageBus.new localId workerCount useRdma : MessageBus μ).tally (fun _ => true) =
      0 := by
    rw [MessageBus.tally, hboxed]
    cases useRdma with
    | false => rfl
    | true => exact congrArg (0 + 0 + ·) (congrArg (0 + ·) htransport)
  refine ⟨rfl, rfl, rfl, rfl, rfl, rfl, ?_, fun _ => ?_⟩
  · change 0 + (MessageBus.new localId workerCount useRdma : MessageBus μ).tally (fun _ => true) + _ = 0
    rw [htally]
    split <;> rfl
  · change (MessageBus.new localId workerCount useRdma : MessageBus μ).ops = 0 ∧ _ = 0
    cases useRdma <;> exact ⟨rfl, rfl⟩

end WorkerNode

namespace GraphEngine

variable {σ μ : Type} [Addressed μ] {compute : Compute σ μ}

/-- How many vertices worker `i` computes in a superstep. -/
def computedIn (i : WorkerId) (tr : List (WorkerId × Event μ)) : Nat :=
  (WorkerNode.calls (labelsOf i tr)).length

/-- What worker `i` collects in a superstep. -/
def collectedIn (i : WorkerId) (tr : List (WorkerId × Event μ)) : List μ :=
  (outboxesOf i tr).flatMap Prod.snd

/-- How many messages worker `i` collects for other workers, of `W`. -/
def remoteIn (W : Nat) (i : WorkerId) (tr : List (WorkerId × Event μ)) : Nat :=
  (collectedIn i tr).countP fun m => dst m % W ≠ i

section Ledger

variable {config : EngineConfig} {vertices : List (Vertex σ μ)}
  {trs : List (List (WorkerId × Event μ))} {k : Nat} {e : GraphEngine σ μ} {i : WorkerId}

/-- The ledger of a worker after any run. -/
theorem Execution.ledger (exec : Execution compute (load config vertices) trs k e)
    (hi : i < config.workerCount) :
    WorkerNode.Ledger (trs.map (computedIn i)).sum (trs.map fun tr => (collectedIn i tr).length).sum
      (trs.map (remoteIn config.workerCount i)).sum k (e.workers i) := by
  induction k generalizing trs e with
  | zero =>
      obtain rfl := List.eq_nil_of_length_eq_zero exec.length_eq
      obtain rfl := exec.eq_of_zero
      rw [load_worker]
      exact WorkerNode.ledger_new ..
  | succ k ih =>
      obtain ⟨trs', tr, timing, e₀, rfl, exec', run⟩ := exec.exists_last
      have htracked := execution_tracked exec'
      have hi' : i < e₀.config.workerCount := htracked.sameConfig ▸ hi
      have hworker := worker_run run hi'
      have hstep := WorkerNode.ledger_step compute k (timing i)
        (htracked.boundary i hi) (htracked.astray i hi).connected (htracked.inRange hi) (ih exec')
      have hcalls : computedIn i tr = ((e₀.workers i).receive (timing i)).taskIds.length := by
        rw [computedIn, (WorkerNode.calls_of_run hworker).length_eq, List.length_map]
      have hsent : collectedIn i tr =
          ((e₀.workers i).computed compute k (timing i)).collectedMessages := by
        rw [collectedIn, outboxesOf, WorkerNode.collected_of_run hworker, List.flatten_singleton]
        rfl
      rw [← WorkerNode.run_eq_runSuperstep hworker, ← hcalls, ← hsent, htracked.placement] at hstep
      simp only [List.map_append, List.sum_append, List.map_cons, List.map_nil, List.sum_singleton]
      exact hstep

/-- **The ledger of a run.** Take any run of any graph. The statistics of every worker count
the calls of `compute` that it has made, the messages that it has collected and the supersteps;
its bus agrees on what was sent and received, and its transport on what was posted, of the size
of a message each. Over all workers, of the messages collected each has been received, is in an
inbox or in a queue pair, or, without the transport, was for another worker and is gone. -/
theorem ledger_of_execution (exec : Execution compute (load config vertices) trs k e) :
    (∀ i < config.workerCount,
      WorkerNode.Ledger (trs.map (computedIn i)).sum
        (trs.map fun tr => (collectedIn i tr).length).sum
        (trs.map (remoteIn config.workerCount i)).sum k (e.workers i)) ∧
      ((List.range config.workerCount).map fun i => (e.workers i).stats.messagesReceived).sum +
          ((List.range config.workerCount).map fun i =>
            (e.workers i).bus.tally fun _ => true).sum +
          (if config.enableRdmaSim then 0 else
            ((List.range config.workerCount).map fun i =>
              (trs.map (remoteIn config.workerCount i)).sum).sum) =
        ((List.range config.workerCount).map fun i =>
          (trs.map fun tr => (collectedIn i tr).length).sum).sum := by
  have htracked := execution_tracked exec
  refine ⟨fun i hi => exec.ledger hi, ?_⟩
  have hworker : ∀ i ∈ List.range config.workerCount,
      (e.workers i).stats.messagesReceived + (e.workers i).bus.tally (fun _ => true) +
          (if config.enableRdmaSim then 0 else
            (trs.map (remoteIn config.workerCount i)).sum) =
        (trs.map fun tr => (collectedIn i tr).length).sum := by
    intro i hi
    have hbound := List.mem_range.mp hi
    rw [← htracked.useRdma i hbound]
    exact (exec.ledger hbound).conserved
  rw [← List.map_congr_left hworker, List.sum_map_add, List.sum_map_add]
  cases config.enableRdmaSim <;> simp

end Ledger

/-- The two vertices on two workers, with the transport, after two supersteps. -/
theorem ledger_of_execution_pair : ∃ trs e,
    Execution pingPong (pair { workerCount := 2 }) trs 2 e ∧
    WorkerNode.Ledger (trs.map (computedIn 0)).sum (trs.map fun tr => (collectedIn 0 tr).length).sum
      (trs.map (remoteIn 2 0)).sum 2 (e.workers 0) ∧
    (e.workers 0).stats.messagesSent = 1 ∧ (e.workers 0).bus.ops = 1 := by
  have nodes : ∀ i < (pair { workerCount := 2 }).config.workerCount,
      0 < ((pair { workerCount := 2 }).workers i).config.numaNodes :=
    fun i _ => load_nodes Nat.two_pos _ i
  obtain ⟨trs, exec⟩ := execution_supersteps pingPong (fun _ _ _ => 4) nodes 2
  exact ⟨trs, _, exec, (ledger_of_execution exec).1 0 Nat.two_pos, by decide, by decide⟩

end GraphEngine

end Pregel
