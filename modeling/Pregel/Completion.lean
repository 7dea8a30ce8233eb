import Pregel.Fifo
import Pregel.Ledger

/-!
The completions that nobody polls (`rdma_transport.cpp`).

`send` numbers the writes of a transport through its counter of operations, whichever queue pair
they go to; the network threads move each number to the completion queue of its queue pair; and
`poll_completions`, which would take it away, has no caller. So the completion queues of a worker
grow for as long as the engine runs.

* `pollCompletions`, `pollCompletions_balance`: what a poll returns and what it leaves.
* `Numbered`: the numbers in the queue pairs of a transport are those of its operations.
* `completions_of_execution`: the completions of a worker after any run.
-/

namespace Pregel

open Lts
open WorkerNode (Event)

namespace QueuePair

variable {μ : Type}

@[simp] theorem wrIds_network (qp : QueuePair μ) (n : Nat) : (qp.network n).wrIds = qp.wrIds := by
  induction n generalizing qp with
  | zero => rfl
  | succ n ih =>
      show (qp.networkStep.network n).wrIds = _
      rw [ih, wrIds_networkStep]

theorem wrIds_postWrite (qp : QueuePair μ) (msg : μ) (wrId : Nat) :
    (qp.postWrite msg sizeofMessage wrId).2.wrIds = qp.wrIds ++ [wrId] := by
  rw [postWrite_eq, if_neg (Nat.lt_irrefl _), wrIds_countWrite, wrIds_pushWrite]

@[simp] theorem wrIds_drainReceived (qp : QueuePair μ) : qp.drainReceived.2.wrIds = qp.wrIds := rfl

theorem length_pollCq (qp : QueuePair μ) :
    qp.pollCq.1.length + qp.pollCq.2.wrIds.length = qp.wrIds.length := by
  simp only [pollCq, wrIds, uncompleted, List.length_append, List.length_map, List.length_take,
    List.length_drop]
  omega

end QueuePair

namespace RdmaTransport

variable {μ : Type}

/-- One round of the loop of `poll_completions`. -/
def pollStep (acc : Nat × RdmaTransport μ) (i : WorkerId) : Nat × RdmaTransport μ :=
  match acc.2.qps i with
  | none => acc
  | some qp =>
      (acc.1 + qp.pollCq.1.length,
        { acc.2 with qps := Function.update acc.2.qps i (some qp.pollCq.2) })

/-- `RdmaTransport::poll_completions`. -/
def pollCompletions (t : RdmaTransport μ) : Nat × RdmaTransport μ :=
  (List.range t.workerCount).foldl pollStep (0, t)

/-- The write numbers that are in the queue pairs of a transport. -/
def unpolled (t : RdmaTransport μ) : Nat := t.total fun qp => qp.wrIds.length

theorem pollStep_balance {t : RdmaTransport μ} {i : WorkerId} (count : Nat)
    (hi : i < t.workerCount) (own : t.qps t.localId = none) :
    (pollStep (count, t) i).2.workerCount = t.workerCount ∧
      (pollStep (count, t) i).2.localId = t.localId ∧
      (pollStep (count, t) i).2.qps t.localId = none ∧
      (pollStep (count, t) i).1 + (pollStep (count, t) i).2.unpolled = count + t.unpolled := by
  cases hqp : t.qps i with
  | none =>
      have hstep : pollStep (count, t) i = (count, t) := by simp only [pollStep, hqp]
      rw [hstep]
      exact ⟨rfl, rfl, own, rfl⟩
  | some qp =>
      have hne : i ≠ t.localId := by
        intro heq
        rw [heq, own] at hqp
        cases hqp
      have hupdate := total_update (fun qp => qp.wrIds.length) hi hne hqp qp.pollCq.2
      have hpoll := qp.length_pollCq
      have hstep : pollStep (count, t) i = (count + qp.pollCq.1.length,
          { t with qps := Function.update t.qps i (some qp.pollCq.2) }) := by
        simp only [pollStep, hqp]
      rw [hstep]
      refine ⟨rfl, rfl, (Function.update_of_ne hne.symm ..).trans own, ?_⟩
      dsimp only [unpolled]
      omega

/-- **A poll** returns as many completions as it takes away. -/
theorem pollCompletions_balance {t : RdmaTransport μ} (own : t.qps t.localId = none) :
    t.pollCompletions.1 + t.pollCompletions.2.unpolled = t.unpolled := by
  have hfold : ∀ k ≤ t.workerCount,
      ((List.range k).foldl pollStep (0, t)).2.workerCount = t.workerCount ∧
        ((List.range k).foldl pollStep (0, t)).2.localId = t.localId ∧
        ((List.range k).foldl pollStep (0, t)).2.qps t.localId = none ∧
        ((List.range k).foldl pollStep (0, t)).1 +
          ((List.range k).foldl pollStep (0, t)).2.unpolled = t.unpolled := by
    intro k hk
    induction k with
    | zero => exact ⟨rfl, rfl, own, Nat.zero_add _⟩
    | succ k ih =>
        obtain ⟨hcount, hlocal, hown, hbalance⟩ := ih (Nat.le_of_succ_le hk)
        rw [← hlocal] at hown
        obtain ⟨hcount', hlocal', hown', hbalance'⟩ := pollStep_balance _ (hcount ▸ hk) hown
        rw [List.range_succ, List.foldl_append, List.foldl_cons, List.foldl_nil]
        rw [hlocal] at hown'
        exact ⟨hcount'.trans hcount, hlocal'.trans hlocal, hown', hbalance'.trans hbalance⟩
  exact (hfold _ (Nat.le_refl _)).2.2.2

/-- The write numbers in the queue pairs of a transport are those of its operations, each once. -/
structure Numbered (t : RdmaTransport μ) : Prop where
  own : t.qps t.localId = none
  ids : ∀ f : Nat → Nat,
    t.total (fun qp => (qp.wrIds.map f).sum) = ∑ w ∈ Finset.range t.rdmaOps, f w

theorem numbered_new (localId : WorkerId) (workerCount : Nat) :
    Numbered (new localId workerCount : RdmaTransport μ) where
  own := by simp [new]
  ids f := by
    refine Finset.sum_eq_zero fun i _ => ?_
    by_cases hi : i < workerCount ∧ i ≠ localId
    · simp [new, hi, QueuePair.wrIds, QueuePair.uncompleted]
    · simp [new, hi]

theorem Numbered.send {t : RdmaTransport μ} (h : t.Numbered) (target : WorkerId) (msg : μ) :
    (t.send target msg).2.Numbered := by
  unfold RdmaTransport.send
  split
  · exact h
  · rename_i hguard
    rw [not_or, Nat.not_le] at hguard
    obtain ⟨hlt, hne⟩ := hguard
    cases hqp : t.qps target with
    | none => exact h
    | some qp =>
        refine ⟨?_, fun f => ?_⟩
        · exact (Function.update_of_ne (Ne.symm hne) ..).trans h.own
        · have hupdate := total_update (fun qp => (qp.wrIds.map f).sum) hlt hne hqp
            (qp.postWrite msg sizeofMessage t.rdmaOps).2
          rw [QueuePair.wrIds_postWrite, List.map_append, List.sum_append, h.ids] at hupdate
          simp only [List.map_cons, List.map_nil, List.sum_singleton] at hupdate
          rw [Finset.sum_range_succ]
          change total { t with qps := _ } _ = _
          omega

theorem Numbered.sendBatch {t : RdmaTransport μ} (h : t.Numbered) (target : WorkerId)
    (msgs : List μ) : (t.sendBatch target msgs).2.Numbered := by
  rw [sendBatch_eq]
  induction msgs generalizing t with
  | nil => exact h
  | cons msg msgs ih => exact ih (h.send target msg)

/-- What leaves the write numbers where they are. -/
theorem Numbered.frame {t t' : RdmaTransport μ} (h : t.Numbered)
    (workerCount : t'.workerCount = t.workerCount) (localId : t'.localId = t.localId)
    (rdmaOps : t'.rdmaOps = t.rdmaOps)
    (qps : ∀ i, (t'.qps i).map QueuePair.wrIds = (t.qps i).map QueuePair.wrIds) : t'.Numbered where
  own := by
    have hown := qps t.localId
    rw [h.own, Option.map_none, Option.map_eq_none_iff] at hown
    rwa [localId]
  ids f := by
    rw [rdmaOps, ← h.ids f]
    unfold total
    rw [workerCount, localId]
    refine Finset.sum_congr rfl fun i _ => ?_
    have hi := congrArg (fun o => o.elim 0 fun ws => (ws.map f).sum) (qps i)
    rw [Option.elim_map, Option.elim_map] at hi
    split
    · rfl
    · exact hi

theorem Numbered.network {t : RdmaTransport μ} (h : t.Numbered) (timing : WorkerId → Nat) :
    (t.network timing).Numbered := by
  refine h.frame rfl rfl rfl fun i => ?_
  cases hqp : t.qps i <;> simp [RdmaTransport.network, hqp]

theorem Numbered.receiveAll {t : RdmaTransport μ} (h : t.Numbered) : t.receiveAll.2.Numbered := by
  have drained := drained_range (fun _ => true) t (Nat.le_refl t.workerCount)
  refine h.frame drained.workerCount drained.localId t.receiveAll_counters.1 fun i => ?_
  have hqps := drained.qps i
  rw [RdmaTransport.receiveAll, hqps]
  split
  · cases t.qps i <;> simp
  · rfl

end RdmaTransport

namespace MessageBus

variable {μ : Type} {bus : MessageBus μ}

/-- The transport of a bus numbers its writes through. -/
def Numbered (bus : MessageBus μ) : Prop := ∀ t, bus.transport = some t → t.Numbered

theorem numbered_new (localId : WorkerId) (workerCount : Nat) (useRdma : Bool) :
    (new localId workerCount useRdma : MessageBus μ).Numbered := by
  intro t ht
  cases useRdma with
  | false => cases ht
  | true =>
      cases ht
      exact RdmaTransport.numbered_new localId workerCount

theorem Numbered.network (h : bus.Numbered) (timing : WorkerId → Nat) :
    (bus.network timing).Numbered := by
  intro t ht
  obtain ⟨t₀, ht₀, rfl⟩ := Option.map_eq_some_iff.mp ht
  exact (h t₀ ht₀).network timing

theorem Numbered.drainInbox (h : bus.Numbered) : bus.drainInbox.2.Numbered := by
  intro t ht
  change bus.receiveRemote.transport = some t at ht
  unfold receiveRemote at ht
  split at ht
  · next t₀ _ ht₀ =>
      cases ht
      exact (h t₀ ht₀).receiveAll
  · exact h t ht

theorem Numbered.flushBox (h : bus.Numbered) (boxes : WorkerId → List μ) (w : WorkerId) :
    (flushBox boxes bus w).Numbered := by
  unfold MessageBus.flushBox
  split
  · exact h
  · dsimp only
    split
    · exact h
    · split
      · next t₀ _ ht₀ =>
          intro t ht
          cases ht
          exact (h t₀ ht₀).sendBatch w _
      · exact h

theorem Numbered.flush (h : bus.Numbered) : bus.flush.Numbered := by
  have hfold : ∀ (ws : List WorkerId) (b : MessageBus μ), b.Numbered →
      (ws.foldl (MessageBus.flushBox bus.outboxes) b).Numbered := by
    intro ws
    induction ws with
    | nil => exact fun b hb => hb
    | cons w ws ih => exact fun b hb => ih _ (hb.flushBox _ w)
  exact hfold _ { bus with outboxes := fun _ => [] } h

end MessageBus

namespace WorkerNode

variable {σ μ : Type} [Addressed μ]

/-- A superstep numbers on. -/
theorem numbered_runSuperstep (pmap : PartitionMap) (compute : Compute σ μ) (step : Superstep)
    (timing : WorkerId → Nat) {n : WorkerNode σ μ} (h : n.bus.Numbered) :
    (n.runSuperstep pmap compute step timing).bus.Numbered := by
  have hdrained : (n.bus.network timing).drainInbox.2.Numbered := (h.network timing).drainInbox
  rw [runSuperstep_bus]
  refine MessageBus.Numbered.flush fun t ht => ?_
  rw [MessageBus.enqueueBatch_transport] at ht
  exact hdrained t ht

end WorkerNode

namespace GraphEngine

variable {σ μ : Type} [Addressed μ] {compute : Compute σ μ} {config : EngineConfig}
  {vertices : List (Vertex σ μ)} {trs : List (List (WorkerId × Event μ))} {k : Nat}
  {e : GraphEngine σ μ} {i : WorkerId}

theorem numbered_of_execution (exec : Execution compute (load config vertices) trs k e)
    (hi : i < config.workerCount) : (e.workers i).bus.Numbered := by
  induction k generalizing trs e with
  | zero =>
      obtain rfl := exec.eq_of_zero
      rw [load_worker]
      exact MessageBus.numbered_new i config.workerCount config.enableRdmaSim
  | succ k ih =>
      obtain ⟨trs', tr, timing, e₀, rfl, exec', run⟩ := exec.exists_last
      have hi' : i < e₀.config.workerCount := (execution_tracked exec').sameConfig ▸ hi
      rw [WorkerNode.run_eq_runSuperstep (worker_run run hi')]
      exact WorkerNode.numbered_runSuperstep _ _ _ _ (ih exec')

/-- **Completions are never polled.** Take any run of any graph with the transport, and any
worker. The operations of its transport are the messages that it has collected for other workers.
Each of them, by its number, is in one queue pair, once: in flight or in the completion queue.
`poll_completions` returns as many of them as it takes away. -/
theorem completions_of_execution (exec : Execution compute (load config vertices) trs k e)
    (hi : i < config.workerCount) (rdma : config.enableRdmaSim = true) :
    ∃ t, (e.workers i).bus.transport = some t ∧
      t.rdmaOps = (trs.map (remoteIn config.workerCount i)).sum ∧
      (∀ w, t.total (fun qp => qp.wrIds.count w) = if w < t.rdmaOps then 1 else 0) ∧
      t.pollCompletions.1 + t.pollCompletions.2.unpolled = t.rdmaOps := by
  have htracked := execution_tracked exec
  have hrdma : (e.workers i).bus.useRdma = true := (htracked.useRdma i hi).trans rdma
  obtain ⟨t, ht, -⟩ := (htracked.astray i hi).connected hrdma
  have numbered := numbered_of_execution exec hi t ht
  have hops := ((exec.ledger hi).posted hrdma).1
  rw [MessageBus.ops, ht, Option.elim_some] at hops
  refine ⟨t, ht, hops, fun w => ?_, ?_⟩
  · have hids := numbered.ids fun x => if x = w then 1 else 0
    have hcount : ∀ ws : List Nat, (ws.map fun x => if x = w then 1 else 0).sum = ws.count w := by
      intro ws
      induction ws with
      | nil => rfl
      | cons x ws ih => simp [ih, List.count_cons, Nat.add_comm]
    simp only [hcount, Finset.sum_ite_eq', Finset.mem_range] at hids
    exact hids
  · have hall : t.unpolled = t.rdmaOps := by
      simpa [RdmaTransport.unpolled] using numbered.ids fun _ => 1
    exact (RdmaTransport.pollCompletions_balance numbered.own).trans hall

/-- The two vertices on two workers, after two supersteps: the message from worker 0 to worker 1
has the number 0. -/
theorem completions_of_execution_pair : ∃ trs e, ∃ t : RdmaTransport Message,
    Execution pingPong (pair { workerCount := 2 }) trs 2 e ∧
    (e.workers 0).bus.transport = some t ∧ t.rdmaOps = 1 ∧
    t.total (fun qp => qp.wrIds.count 0) = 1 := by
  have nodes : ∀ i < (pair { workerCount := 2 }).config.workerCount,
      0 < ((pair { workerCount := 2 }).workers i).config.numaNodes :=
    fun i _ => load_nodes Nat.two_pos _ i
  obtain ⟨trs, exec⟩ := execution_supersteps pingPong (fun _ _ _ => 4) nodes 2
  obtain ⟨t, ht, -, hids, -⟩ := completions_of_execution exec Nat.two_pos rfl
  have hops : ((supersteps pingPong (fun _ _ _ => 4) (pair { workerCount := 2 }) 2).workers
      0).bus.transport.map RdmaTransport.rdmaOps = some 1 := by decide
  rw [ht] at hops
  have hone : t.rdmaOps = 1 := Option.some.inj hops
  exact ⟨trs, _, t, exec, ht, hone, by rw [hids 0, hone]; rfl⟩

end GraphEngine

end Pregel
