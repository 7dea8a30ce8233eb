import Pregel.Transport

/-!
Routing between workers (`message_bus.hpp`, `message_bus.cpp`): the partition map
and the bus of one worker. The barrier, which all buses share, is in
`Pregel.Barrier`.

* `enqueueBatch_outboxes`: a batch is split over the outboxes by owner, each part
  in order.
* `flush_inbox`, `holds_flush`: a flush moves the worker's own box to its inbox.
  Every other box can only reach the queue pairs of this same bus.
* `drainInbox_eq`: a drain returns messages of this bus's inbox and of this bus's
  queue pairs, and nothing else.
* `flush_of_connected`, `drainInbox_of_connected`: with the transport, none of these
  messages gets lost.
-/

namespace Pregel

/-- `PartitionMap`. -/
structure PartitionMap where
  workerCount : Nat
  overrides : VertexId → Option WorkerId := fun _ => none

namespace PartitionMap

/-- `PartitionMap::owner_of`: migration overrides come first. -/
def ownerOf (pmap : PartitionMap) (v : VertexId) : WorkerId :=
  match pmap.overrides v with
  | some w => w
  | none => v % pmap.workerCount

/-- `PartitionMap::migrate`. -/
def migrate (pmap : PartitionMap) (v : VertexId) (newOwner : WorkerId) : PartitionMap :=
  { pmap with overrides := Function.update pmap.overrides v (some newOwner) }

@[simp] theorem ownerOf_migrate_self (pmap : PartitionMap) (v : VertexId) (w : WorkerId) :
    (pmap.migrate v w).ownerOf v = w := by
  simp [migrate, ownerOf]

end PartitionMap

/-- `MessageBus`: the bus of worker `localId`. -/
structure MessageBus (μ : Type) where
  localId : WorkerId
  workerCount : Nat
  useRdma : Bool
  transport : Option (RdmaTransport μ)
  outboxes : WorkerId → List μ := fun _ => []
  inbox : List μ := []
  msgsSent : Nat := 0
  msgsReceived : Nat := 0

namespace MessageBus

variable {μ : Type}

/-- `MessageBus::MessageBus`. -/
def new (localId : WorkerId) (workerCount : Nat) (useRdma : Bool) : MessageBus μ where
  localId := localId
  workerCount := workerCount
  useRdma := useRdma
  transport := if useRdma then some (RdmaTransport.new localId workerCount) else none

section Enqueue

variable [Addressed μ] (pmap : PartitionMap)

/-- `MessageBus::enqueue`. -/
def enqueue (bus : MessageBus μ) (msg : μ) : MessageBus μ :=
  let w := pmap.ownerOf (dst msg)
  { bus with outboxes := Function.update bus.outboxes w (bus.outboxes w ++ [msg]) }

/-- `MessageBus::enqueue_batch`. -/
def enqueueBatch (bus : MessageBus μ) (msgs : List μ) : MessageBus μ :=
  msgs.foldl (enqueue pmap) bus

end Enqueue

/-- One round of the loop of `flush`, over the boxes it swapped out. -/
def flushBox (boxes : WorkerId → List μ) (bus : MessageBus μ) (w : WorkerId) : MessageBus μ :=
  if (boxes w).isEmpty then bus
  else
    let bus := { bus with msgsSent := bus.msgsSent + (boxes w).length }
    if w = bus.localId then { bus with inbox := bus.inbox ++ boxes w }
    else
      match bus.useRdma, bus.transport with
      | true, some t => { bus with transport := some (t.sendBatch w (boxes w)).2 }
      | _, _ => bus

/-- `MessageBus::flush`; its superstep argument is not used. -/
def flush (bus : MessageBus μ) : MessageBus μ :=
  (List.range bus.workerCount).foldl (flushBox bus.outboxes) { bus with outboxes := fun _ => [] }

/-- The part of `drain_inbox` that asks the transport. -/
def receiveRemote (bus : MessageBus μ) : MessageBus μ :=
  match bus.useRdma, bus.transport with
  | true, some t =>
      { bus with inbox := bus.inbox ++ t.receiveAll.1, transport := some t.receiveAll.2 }
  | _, _ => bus

/-- `MessageBus::drain_inbox`. -/
def drainInbox (bus : MessageBus μ) : List μ × MessageBus μ :=
  let bus := bus.receiveRemote
  (bus.inbox, { bus with inbox := [], msgsReceived := bus.msgsReceived + bus.inbox.length })

/-- The network threads of this bus's queue pairs run for a while. -/
def network (bus : MessageBus μ) (timing : WorkerId → Nat) : MessageBus μ :=
  { bus with transport := bus.transport.map fun t => t.network timing }

/-- `m` sits in a queue pair of this bus. -/
def Holds (bus : MessageBus μ) (m : μ) : Prop :=
  ∃ t, bus.transport = some t ∧ t.Holds m

/-! ### Enqueueing -/

section Enqueue

variable [Addressed μ] {pmap : PartitionMap}

theorem enqueueBatch_frame (bus : MessageBus μ) (msgs : List μ) :
    enqueueBatch pmap bus msgs =
      { bus with outboxes := (enqueueBatch pmap bus msgs).outboxes } := by
  induction msgs generalizing bus with
  | nil => rfl
  | cons m msgs ih =>
      show enqueueBatch pmap (enqueue pmap bus m) msgs = _
      rw [ih]
      rfl

/-- A batch is split over the outboxes by owner, each part in order. -/
theorem enqueueBatch_outboxes (bus : MessageBus μ) (msgs : List μ) (w : WorkerId) :
    (enqueueBatch pmap bus msgs).outboxes w =
      bus.outboxes w ++ msgs.filter fun m => pmap.ownerOf (dst m) = w := by
  induction msgs generalizing bus with
  | nil => simp [enqueueBatch]
  | cons m msgs ih =>
      show (enqueueBatch pmap (enqueue pmap bus m) msgs).outboxes w = _
      rw [ih]
      by_cases hw : pmap.ownerOf (dst m) = w
      · subst hw
        simp [enqueue]
      · simp [enqueue, hw, Function.update_of_ne (Ne.symm hw)]

end Enqueue

/-! ### Flushing -/

theorem holds_network {bus : MessageBus μ} {timing : WorkerId → Nat} {m : μ} :
    (bus.network timing).Holds m ↔ bus.Holds m := by
  cases ht : bus.transport with
  | none => simp [Holds, network, ht]
  | some t => simp [Holds, network, ht]

theorem flushBox_frame (boxes : WorkerId → List μ) (bus : MessageBus μ) (w : WorkerId) :
    (flushBox boxes bus w).localId = bus.localId ∧
      (flushBox boxes bus w).workerCount = bus.workerCount ∧
      (flushBox boxes bus w).useRdma = bus.useRdma ∧
      (flushBox boxes bus w).outboxes = bus.outboxes := by
  unfold flushBox
  split
  · exact ⟨rfl, rfl, rfl, rfl⟩
  · dsimp only
    split
    · exact ⟨rfl, rfl, rfl, rfl⟩
    · split <;> exact ⟨rfl, rfl, rfl, rfl⟩

theorem flushBox_inbox (boxes : WorkerId → List μ) (bus : MessageBus μ) (w : WorkerId) :
    (flushBox boxes bus w).inbox = bus.inbox ++ if w = bus.localId then boxes w else [] := by
  unfold flushBox
  split
  · rename_i hempty
    simp [List.isEmpty_iff.mp hempty]
  · dsimp only
    split
    · rfl
    · split <;> simp

/-- A box other than the bus's own can only reach this bus's own queue pairs. -/
theorem holds_flushBox {boxes : WorkerId → List μ} {bus : MessageBus μ} {w : WorkerId} {m : μ}
    (h : (flushBox boxes bus w).Holds m) :
    bus.Holds m ∨ (bus.useRdma = true ∧ w ≠ bus.localId ∧ m ∈ boxes w) := by
  unfold flushBox at h
  split at h
  · exact Or.inl h
  · dsimp only at h
    split at h
    · exact Or.inl h
    · rename_i hlocal
      split at h
      · rename_i t hrdma ht
        obtain ⟨t', ht', hm⟩ := h
        cases ht'
        rcases RdmaTransport.holds_sendBatch hm with hm | hm
        · exact Or.inl ⟨t, ht, hm⟩
        · exact Or.inr ⟨hrdma, hlocal, hm⟩
      · exact Or.inl h

theorem foldl_flushBox_frame (boxes : WorkerId → List μ) (ws : List WorkerId)
    (bus : MessageBus μ) :
    (ws.foldl (flushBox boxes) bus).localId = bus.localId ∧
      (ws.foldl (flushBox boxes) bus).workerCount = bus.workerCount ∧
      (ws.foldl (flushBox boxes) bus).useRdma = bus.useRdma ∧
      (ws.foldl (flushBox boxes) bus).outboxes = bus.outboxes := by
  induction ws generalizing bus with
  | nil => exact ⟨rfl, rfl, rfl, rfl⟩
  | cons w ws ih =>
      obtain ⟨h₁, h₂, h₃, h₄⟩ := ih (flushBox boxes bus w)
      obtain ⟨g₁, g₂, g₃, g₄⟩ := flushBox_frame boxes bus w
      exact ⟨h₁.trans g₁, h₂.trans g₂, h₃.trans g₃, h₄.trans g₄⟩

theorem foldl_flushBox_inbox (boxes : WorkerId → List μ) (ws : List WorkerId) (hws : ws.Nodup)
    (bus : MessageBus μ) :
    (ws.foldl (flushBox boxes) bus).inbox =
      bus.inbox ++ if bus.localId ∈ ws then boxes bus.localId else [] := by
  induction ws generalizing bus with
  | nil => simp
  | cons w ws ih =>
      obtain ⟨hnot, hws⟩ := List.nodup_cons.mp hws
      rw [List.foldl_cons, ih hws, flushBox_inbox, (flushBox_frame boxes bus w).1]
      by_cases hw : w = bus.localId
      · subst hw
        simp [hnot]
      · simp [hw, Ne.symm hw]

theorem holds_foldl_flushBox {boxes : WorkerId → List μ} {ws : List WorkerId}
    {bus : MessageBus μ} {m : μ} (h : (ws.foldl (flushBox boxes) bus).Holds m) :
    bus.Holds m ∨ (bus.useRdma = true ∧ ∃ w ∈ ws, w ≠ bus.localId ∧ m ∈ boxes w) := by
  induction ws generalizing bus with
  | nil => exact Or.inl h
  | cons w ws ih =>
      obtain ⟨hid, -, hrdma, -⟩ := flushBox_frame boxes bus w
      rcases ih h with h | ⟨hr, w', hw', hne, hm⟩
      · rcases holds_flushBox h with h | ⟨hr, hne, hm⟩
        · exact Or.inl h
        · exact Or.inr ⟨hr, w, List.mem_cons_self, hne, hm⟩
      · exact Or.inr ⟨hrdma ▸ hr, w', List.mem_cons_of_mem _ hw', hid ▸ hne, hm⟩

@[simp] theorem flush_localId (bus : MessageBus μ) : bus.flush.localId = bus.localId :=
  (foldl_flushBox_frame _ _ _).1

@[simp] theorem flush_workerCount (bus : MessageBus μ) :
    bus.flush.workerCount = bus.workerCount :=
  (foldl_flushBox_frame _ _ _).2.1

@[simp] theorem flush_useRdma (bus : MessageBus μ) : bus.flush.useRdma = bus.useRdma :=
  (foldl_flushBox_frame _ _ _).2.2.1

@[simp] theorem flush_outboxes (bus : MessageBus μ) : bus.flush.outboxes = fun _ => [] :=
  (foldl_flushBox_frame _ _ _).2.2.2

/-- A flush delivers the worker's own box to its inbox. -/
theorem flush_inbox {bus : MessageBus μ} (hlocal : bus.localId < bus.workerCount) :
    bus.flush.inbox = bus.inbox ++ bus.outboxes bus.localId := by
  have h := foldl_flushBox_inbox bus.outboxes (List.range bus.workerCount) List.nodup_range
    { bus with outboxes := fun _ => [] }
  rw [if_pos (List.mem_range.mpr hlocal)] at h
  exact h

/-- After a flush the queue pairs hold at most what they held and the boxes of
the other workers. -/
theorem holds_flush {bus : MessageBus μ} {m : μ} (h : bus.flush.Holds m) :
    bus.Holds m ∨ (bus.useRdma = true ∧
      ∃ w, w < bus.workerCount ∧ w ≠ bus.localId ∧ m ∈ bus.outboxes w) := by
  rcases holds_foldl_flushBox h with h | ⟨hr, w, hw, hne, hm⟩
  · exact Or.inl h
  · exact Or.inr ⟨hr, w, List.mem_range.mp hw, hne, hm⟩

/-! ### Enqueueing and flushing together -/

section Route

variable [Addressed μ] {pmap : PartitionMap} {bus : MessageBus μ} {msgs : List μ}

@[simp] theorem enqueueBatch_localId :
    (enqueueBatch pmap bus msgs).localId = bus.localId := by
  rw [enqueueBatch_frame]

@[simp] theorem enqueueBatch_workerCount :
    (enqueueBatch pmap bus msgs).workerCount = bus.workerCount := by
  rw [enqueueBatch_frame]

@[simp] theorem enqueueBatch_useRdma :
    (enqueueBatch pmap bus msgs).useRdma = bus.useRdma := by
  rw [enqueueBatch_frame]

@[simp] theorem enqueueBatch_inbox : (enqueueBatch pmap bus msgs).inbox = bus.inbox := by
  rw [enqueueBatch_frame]

@[simp] theorem enqueueBatch_transport :
    (enqueueBatch pmap bus msgs).transport = bus.transport := by
  rw [enqueueBatch_frame]

theorem holds_enqueueBatch {m : μ} : (enqueueBatch pmap bus msgs).Holds m ↔ bus.Holds m := by
  rw [enqueueBatch_frame]
  rfl

/-- Of a batch, the messages for the worker itself reach its inbox. -/
theorem inbox_of_routed (hempty : bus.outboxes = fun _ => [])
    (hlocal : bus.localId < bus.workerCount) :
    (enqueueBatch pmap bus msgs).flush.inbox =
      bus.inbox ++ msgs.filter fun m => pmap.ownerOf (dst m) = bus.localId := by
  rw [flush_inbox (by simpa using hlocal), enqueueBatch_outboxes, hempty]
  simp

/-- Of a batch, only messages for other workers reach the queue pairs. -/
theorem holds_of_routed (hempty : bus.outboxes = fun _ => []) {m : μ}
    (h : (enqueueBatch pmap bus msgs).flush.Holds m) :
    bus.Holds m ∨ (bus.useRdma = true ∧ m ∈ msgs ∧ pmap.ownerOf (dst m) ≠ bus.localId ∧
      pmap.ownerOf (dst m) < bus.workerCount) := by
  rcases holds_flush h with h | ⟨hrdma, w, hw, hne, hm⟩
  · exact Or.inl (holds_enqueueBatch.mp h)
  · rw [enqueueBatch_outboxes, hempty, List.nil_append, List.mem_filter] at hm
    obtain ⟨hm, howner⟩ := hm
    obtain rfl := of_decide_eq_true howner
    simp only [enqueueBatch_useRdma, enqueueBatch_workerCount, enqueueBatch_localId]
      at hrdma hw hne
    exact Or.inr ⟨hrdma, hm, hne, hw⟩

end Route

/-! ### Draining -/

theorem receiveRemote_frame (bus : MessageBus μ) :
    bus.receiveRemote.localId = bus.localId ∧
      bus.receiveRemote.workerCount = bus.workerCount ∧
      bus.receiveRemote.useRdma = bus.useRdma ∧
      bus.receiveRemote.outboxes = bus.outboxes := by
  unfold receiveRemote
  split <;> exact ⟨rfl, rfl, rfl, rfl⟩

/-- What the transport hands over comes after the local messages, and comes from
this bus's own queue pairs. -/
theorem receiveRemote_inbox (bus : MessageBus μ) :
    ∃ remote, bus.receiveRemote.inbox = bus.inbox ++ remote ∧ ∀ m ∈ remote, bus.Holds m := by
  unfold receiveRemote
  split
  · rename_i t _ ht
    exact ⟨t.receiveAll.1, rfl, fun m hm => ⟨t, ht, RdmaTransport.receiveAll_sub (Or.inl hm)⟩⟩
  · exact ⟨[], by simp⟩

theorem holds_receiveRemote {bus : MessageBus μ} {m : μ} (h : bus.receiveRemote.Holds m) :
    bus.Holds m := by
  unfold receiveRemote at h
  split at h
  · rename_i t _ ht
    obtain ⟨t', ht', hm⟩ := h
    cases ht'
    exact ⟨t, ht, RdmaTransport.receiveAll_sub (Or.inr hm)⟩
  · exact h

@[simp] theorem drainInbox_localId (bus : MessageBus μ) :
    bus.drainInbox.2.localId = bus.localId := bus.receiveRemote_frame.1

@[simp] theorem drainInbox_workerCount (bus : MessageBus μ) :
    bus.drainInbox.2.workerCount = bus.workerCount := bus.receiveRemote_frame.2.1

@[simp] theorem drainInbox_useRdma (bus : MessageBus μ) :
    bus.drainInbox.2.useRdma = bus.useRdma := bus.receiveRemote_frame.2.2.1

@[simp] theorem drainInbox_outboxes (bus : MessageBus μ) :
    bus.drainInbox.2.outboxes = bus.outboxes := bus.receiveRemote_frame.2.2.2

@[simp] theorem drainInbox_inbox (bus : MessageBus μ) : bus.drainInbox.2.inbox = [] := rfl

/-- **A drain returns the local messages first, then messages of this bus's own
queue pairs.** -/
theorem drainInbox_eq (bus : MessageBus μ) :
    ∃ remote, bus.drainInbox.1 = bus.inbox ++ remote ∧ ∀ m ∈ remote, bus.Holds m :=
  bus.receiveRemote_inbox

theorem holds_drainInbox {bus : MessageBus μ} {m : μ} (h : bus.drainInbox.2.Holds m) :
    bus.Holds m :=
  holds_receiveRemote h

/-! ### What a bus holds -/

/-- Every message in this bus, its queue pairs included, satisfies `P`. -/
structure Within (P : μ → Prop) (bus : MessageBus μ) : Prop where
  outboxes : ∀ w, ∀ m ∈ bus.outboxes w, P m
  inbox : ∀ m ∈ bus.inbox, P m
  queuePairs : ∀ m, bus.Holds m → P m

section Within

variable {P : μ → Prop} {bus : MessageBus μ}

theorem within_new (localId : WorkerId) (workerCount : Nat) (useRdma : Bool) :
    Within P (new localId workerCount useRdma : MessageBus μ) where
  outboxes w m hm := by cases hm
  inbox m hm := by cases hm
  queuePairs m := by
    rintro ⟨t, ht, hm⟩
    simp only [new] at ht
    split at ht
    · cases ht
      exact absurd hm (RdmaTransport.not_holds_new _ _ m)
    · cases ht

theorem within_network (h : Within P bus) (timing : WorkerId → Nat) :
    Within P (bus.network timing) :=
  ⟨h.outboxes, h.inbox, fun m hm => h.queuePairs m (holds_network.mp hm)⟩

theorem within_enqueueBatch [Addressed μ] {pmap : PartitionMap} (h : Within P bus)
    {msgs : List μ} (hmsgs : ∀ m ∈ msgs, P m) : Within P (enqueueBatch pmap bus msgs) where
  outboxes w m hm := by
    rw [enqueueBatch_outboxes] at hm
    rcases List.mem_append.mp hm with hm | hm
    · exact h.outboxes w m hm
    · exact hmsgs m (List.mem_filter.mp hm).1
  inbox := by
    rw [enqueueBatch_inbox]
    exact h.inbox
  queuePairs m hm := h.queuePairs m (holds_enqueueBatch.mp hm)

end Within

/-! ### Nothing gets lost in a bus that has a transport -/

/-- If the transport is in use, it is this worker's and has all its queue pairs. -/
def Connected (bus : MessageBus μ) : Prop :=
  bus.useRdma = true → ∃ t, bus.transport = some t ∧ t.Connected ∧ t.localId = bus.localId ∧
    t.workerCount = bus.workerCount

section Connected

variable {bus : MessageBus μ}

theorem connected_new (localId : WorkerId) (workerCount : Nat) (useRdma : Bool) :
    (new localId workerCount useRdma : MessageBus μ).Connected := by
  intro hrdma
  have hrdma : useRdma = true := hrdma
  exact ⟨.new localId workerCount, by simp [new, hrdma], RdmaTransport.connected_new _ _, rfl, rfl⟩

theorem connected_network (h : bus.Connected) (timing : WorkerId → Nat) :
    (bus.network timing).Connected := by
  intro hrdma
  obtain ⟨t, ht, hconn, hid, hcount⟩ := h hrdma
  exact ⟨t.network timing, by simp [network, ht], RdmaTransport.connected_network hconn timing, hid,
    hcount⟩

theorem connected_enqueueBatch [Addressed μ] {pmap : PartitionMap} (h : bus.Connected)
    (msgs : List μ) : (enqueueBatch pmap bus msgs).Connected := by
  rw [enqueueBatch_frame]
  exact h

/-- Every message of the queue pairs is drained or stays there. -/
theorem drainInbox_of_connected (h : bus.Connected) (hrdma : bus.useRdma = true) :
    bus.drainInbox.2.Connected ∧
      ∀ m, (m ∈ bus.drainInbox.1 ∨ bus.drainInbox.2.Holds m) ↔ m ∈ bus.inbox ∨ bus.Holds m := by
  obtain ⟨t, ht, hconn, hid, hcount⟩ := h hrdma
  obtain ⟨hconn', hid', hcount', hall⟩ := RdmaTransport.receiveAll_of_connected hconn
  have hdrain : bus.receiveRemote =
      { bus with inbox := bus.inbox ++ t.receiveAll.1, transport := some t.receiveAll.2 } := by
    simp [receiveRemote, hrdma, ht]
  constructor
  · intro _
    refine ⟨t.receiveAll.2, ?_, hconn', ?_, ?_⟩
    · simp [drainInbox, hdrain]
    · rw [hid', hid, drainInbox_localId]
    · rw [hcount', hcount, drainInbox_workerCount]
  · intro m
    have hbus : bus.Holds m ↔ t.Holds m := by simp [Holds, ht]
    rw [hbus, hall m]
    simp [drainInbox, hdrain, Holds, or_assoc]

theorem flushBox_of_connected (boxes : WorkerId → List μ) {w : WorkerId}
    (hw : w < bus.workerCount) (h : bus.Connected) (hrdma : bus.useRdma = true) :
    (flushBox boxes bus w).Connected ∧
      ∀ m, (flushBox boxes bus w).Holds m ↔ bus.Holds m ∨ (w ≠ bus.localId ∧ m ∈ boxes w) := by
  unfold flushBox
  split
  · rename_i hempty
    rw [List.isEmpty_iff.mp hempty]
    exact ⟨h, by simp⟩
  · dsimp only
    split
    · rename_i hlocal
      exact ⟨h, by simp [Holds, hlocal]⟩
    · rename_i hlocal
      obtain ⟨t, ht, hconn, hid, hcount⟩ := h hrdma
      obtain ⟨hconn', hid', hcount', hall⟩ :=
        RdmaTransport.sendBatch_of_connected hconn (hcount ▸ hw) (hid ▸ hlocal) (boxes w)
      simp only [hrdma, ht]
      refine ⟨fun _ => ⟨_, rfl, hconn', hid'.trans hid, hcount'.trans hcount⟩, fun m => ?_⟩
      have hbus : bus.Holds m ↔ t.Holds m := by simp [Holds, ht]
      rw [hbus]
      simpa [Holds, hlocal] using hall m

/-- A flush posts the boxes of all other workers. -/
theorem flush_of_connected (h : bus.Connected) (hrdma : bus.useRdma = true) :
    bus.flush.Connected ∧
      ∀ m, bus.flush.Holds m ↔
        bus.Holds m ∨ ∃ w < bus.workerCount, w ≠ bus.localId ∧ m ∈ bus.outboxes w := by
  have hfold : ∀ (ws : List WorkerId) (b : MessageBus μ), b.Connected → b.useRdma = true →
      (∀ w ∈ ws, w < b.workerCount) →
      (ws.foldl (flushBox bus.outboxes) b).Connected ∧
        ∀ m, (ws.foldl (flushBox bus.outboxes) b).Holds m ↔
          b.Holds m ∨ ∃ w ∈ ws, w ≠ b.localId ∧ m ∈ bus.outboxes w := by
    intro ws
    induction ws with
    | nil => exact fun b h _ _ => ⟨h, by simp⟩
    | cons w ws ih =>
        intro b h hrdma hws
        obtain ⟨hid, hcount, hrdma', -⟩ := flushBox_frame bus.outboxes b w
        obtain ⟨hconn, hbox⟩ := flushBox_of_connected bus.outboxes (hws w List.mem_cons_self) h
          hrdma
        obtain ⟨hconn', hall⟩ := ih (flushBox bus.outboxes b w) hconn (hrdma'.trans hrdma)
          (fun w' hw' => hcount ▸ hws w' (List.mem_cons_of_mem _ hw'))
        refine ⟨hconn', fun m => ?_⟩
        rw [List.foldl_cons, hall m, hbox m, hid, or_assoc]
        simp
  obtain ⟨hconn, hall⟩ := hfold (List.range bus.workerCount) { bus with outboxes := fun _ => [] }
    h hrdma fun w hw => List.mem_range.mp hw
  refine ⟨hconn, fun m => ?_⟩
  have h := hall m
  simp only [List.mem_range] at h
  exact h

theorem connected_drainInbox (h : bus.Connected) : bus.drainInbox.2.Connected := by
  intro hrdma
  have hon : bus.useRdma = true := by rw [← drainInbox_useRdma, hrdma]
  exact (drainInbox_of_connected h hon).1 hrdma

theorem connected_flush (h : bus.Connected) : bus.flush.Connected := by
  intro hrdma
  have hon : bus.useRdma = true := by rw [← flush_useRdma, hrdma]
  exact (flush_of_connected h hon).1 hrdma

end Connected

end MessageBus

end Pregel
