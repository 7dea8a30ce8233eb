import Pregel.MessageBus
import Pregel.Lib.Lts

/-!
Messages between workers.

The buses of all workers run side by side: enqueueing, flushing, draining, each as
its thread pleases, with steps of the network threads at any point, also in the
middle of a flush or a drain (`flushSections`, `drainSections`). A message carries a
flag that no code can see (`Traced`), so that a sequence of messages can be followed.

* `foldl_flushSections`, `foldl_drainSections`: undisturbed, the sections are the
  flush and the drain of `Pregel.MessageBus`.
* `within_step`, `confined`: what a bus enqueues stays in that bus.
* `cross_worker_delivery`: the messages one bus enqueues for another worker are
  delivered to it if and only if there are none.
-/

namespace Pregel

open Lts

namespace MessageBus

variable {μ : Type}

/-! ### Flush and drain, section by section -/

/-- One `send` of the loop of `send_batch`, called from `flush`. -/
def sendOne (w : WorkerId) (m : μ) (bus : MessageBus μ) : MessageBus μ :=
  match bus.useRdma, bus.transport with
  | true, some t => { bus with transport := some (t.send w m).2 }
  | _, _ => bus

/-- The sections of `flush` for one box. -/
def boxSections (boxes : WorkerId → List μ) (localId w : WorkerId) :
    List (MessageBus μ → MessageBus μ) :=
  if (boxes w).isEmpty then []
  else (fun bus => { bus with msgsSent := bus.msgsSent + (boxes w).length }) ::
    if w = localId then [fun bus => { bus with inbox := bus.inbox ++ boxes w }]
    else (boxes w).map (sendOne w)

/-- The sections of `flush`: the swap of the outboxes, then box by box. -/
def flushSections (bus : MessageBus μ) : List (MessageBus μ → MessageBus μ) :=
  (fun bus => { bus with outboxes := fun _ => [] }) ::
    (List.range bus.workerCount).flatMap (boxSections bus.outboxes bus.localId)

/-- One round of the loop of `receive_all`, called from `drain_inbox`. -/
def receiveOne (i : WorkerId) (s : List μ × MessageBus μ) : List μ × MessageBus μ :=
  match s.2.useRdma, s.2.transport with
  | true, some t =>
      let (received, t') := RdmaTransport.receiveStep (s.1, t) i
      (received, { s.2 with transport := some t' })
  | _, _ => s

/-- The end of `drain_inbox`: the received messages join the inbox, which is taken. -/
def takeInbox (s : List μ × MessageBus μ) : List μ × MessageBus μ :=
  let out := s.2.inbox ++ s.1
  (out, { s.2 with inbox := [], msgsReceived := s.2.msgsReceived + out.length })

/-- The sections of `drain_inbox`: queue pair by queue pair, then the inbox. -/
def drainSections (bus : MessageBus μ) : List (List μ × MessageBus μ → List μ × MessageBus μ) :=
  (List.range ((bus.transport.map RdmaTransport.workerCount).getD 0)).map receiveOne ++ [takeInbox]

/-! ### The sections undisturbed -/

theorem foldl_sendOne (bus : MessageBus μ) (w : WorkerId) (msgs : List μ) :
    (msgs.map (sendOne w)).foldl (fun b f => f b) bus =
      match bus.useRdma, bus.transport with
      | true, some t => { bus with transport := some (t.sendBatch w msgs).2 }
      | _, _ => bus := by
  obtain ⟨localId, workerCount, useRdma, transport, outboxes, inbox, sent, received⟩ := bus
  cases useRdma with
  | false =>
      induction msgs with
      | nil => rfl
      | cons m msgs ih => exact ih
  | true =>
      cases transport with
      | none =>
          induction msgs with
          | nil => rfl
          | cons m msgs ih => exact ih
      | some t =>
          simp only [RdmaTransport.sendBatch_eq]
          induction msgs generalizing t with
          | nil => rfl
          | cons m msgs ih => exact ih (t.send w m).2

theorem foldl_boxSections (boxes : WorkerId → List μ) (bus : MessageBus μ) (w : WorkerId) :
    (boxSections boxes bus.localId w).foldl (fun b f => f b) bus = flushBox boxes bus w := by
  unfold boxSections flushBox
  split
  · rfl
  · rw [List.foldl_cons]
    by_cases hlocal : w = bus.localId
    · rw [if_pos hlocal]
      exact (if_pos hlocal).symm
    · rw [if_neg hlocal, foldl_sendOne]
      exact (if_neg hlocal).symm

/-- Undisturbed, the sections of a flush are `flush`. -/
theorem foldl_flushSections (bus : MessageBus μ) :
    bus.flushSections.foldl (fun b f => f b) bus = bus.flush := by
  have hfold : ∀ (ws : List WorkerId) (b : MessageBus μ), b.localId = bus.localId →
      (ws.flatMap (boxSections bus.outboxes bus.localId)).foldl (fun b f => f b) b =
        ws.foldl (flushBox bus.outboxes) b := by
    intro ws
    induction ws with
    | nil => exact fun _ _ => rfl
    | cons w ws ih =>
        intro b hb
        rw [List.flatMap_cons, List.foldl_append, ← hb, foldl_boxSections, hb]
        exact ih _ ((flushBox_frame bus.outboxes b w).1.trans hb)
  exact hfold _ { bus with outboxes := fun _ => [] } rfl

theorem foldl_receiveOne (bus : MessageBus μ) (t : RdmaTransport μ) (hrdma : bus.useRdma = true)
    (is : List WorkerId) (acc : List μ) :
    (is.map receiveOne).foldl (fun s f => f s) (acc, { bus with transport := some t }) =
      ((is.foldl RdmaTransport.receiveStep (acc, t)).1,
        { bus with transport := some (is.foldl RdmaTransport.receiveStep (acc, t)).2 }) := by
  induction is generalizing acc t with
  | nil => rfl
  | cons i is ih =>
      have hone : receiveOne i (acc, { bus with transport := some t }) =
          ((RdmaTransport.receiveStep (acc, t) i).1,
            { bus with transport := some (RdmaTransport.receiveStep (acc, t) i).2 }) := by
        simp [receiveOne, hrdma]
      rw [List.map_cons, List.foldl_cons, hone, ih]
      rfl

/-- Undisturbed, the sections of a drain are `drainInbox`. -/
theorem foldl_drainSections (bus : MessageBus μ) :
    bus.drainSections.foldl (fun s f => f s) ([], bus) = bus.drainInbox := by
  unfold drainSections
  rw [List.foldl_append, List.foldl_cons, List.foldl_nil]
  cases ht : bus.transport with
  | none => simp [takeInbox, drainInbox, receiveRemote, ht]
  | some t =>
      cases hrdma : bus.useRdma with
      | false =>
          have hidle : ∀ (is : List WorkerId),
              (is.map receiveOne).foldl (fun s f => f s) ([], bus) = ([], bus) := by
            intro is
            induction is with
            | nil => rfl
            | cons i is ih => simpa [receiveOne, hrdma] using ih
          rw [hidle]
          simp [takeInbox, drainInbox, receiveRemote, hrdma]
      | true =>
          have hbus : bus = { bus with transport := some t } := by rw [← ht]
          rw [hbus, foldl_receiveOne bus t hrdma]
          simp [takeInbox, drainInbox, receiveRemote, hrdma, RdmaTransport.receiveAll]

/-! ### What a bus holds stays in the bus -/

section Within

variable {P : μ → Prop} {bus : MessageBus μ}

theorem within_sendOne (h : Within P bus) {w : WorkerId} {m : μ} (hm : P m) :
    Within P (bus.sendOne w m) := by
  unfold sendOne
  split
  · rename_i t _ ht
    refine ⟨h.outboxes, h.inbox, ?_⟩
    rintro m' ⟨t', ht', hm'⟩
    cases ht'
    rcases RdmaTransport.holds_send hm' with hold | rfl
    · exact h.queuePairs m' ⟨t, ht, hold⟩
    · exact hm
  · exact h

/-- Every section of a flush keeps the bus within what it holds. -/
theorem within_flushSections (h : Within P bus) :
    ∀ f ∈ bus.flushSections, ∀ b, Within P b → Within P (f b) := by
  intro f hf b hb
  rcases List.mem_cons.mp hf with rfl | hf
  · exact ⟨fun _ _ hm => (by cases hm), hb.inbox, hb.queuePairs⟩
  · obtain ⟨w, -, hf⟩ := List.mem_flatMap.mp hf
    have hbox : ∀ m ∈ bus.outboxes w, P m := h.outboxes w
    unfold boxSections at hf
    split at hf
    · cases hf
    · rcases List.mem_cons.mp hf with rfl | hf
      · exact ⟨hb.outboxes, hb.inbox, hb.queuePairs⟩
      · split at hf
        · obtain rfl := List.mem_singleton.mp hf
          refine ⟨hb.outboxes, fun m hm => ?_, hb.queuePairs⟩
          rcases List.mem_append.mp hm with hm | hm
          · exact hb.inbox m hm
          · exact hbox m hm
        · obtain ⟨m, hm, rfl⟩ := List.mem_map.mp hf
          exact within_sendOne hb (hbox m hm)

/-- Every section of a drain keeps the bus, and what it has received, within what
the bus holds. -/
theorem within_drainSections :
    ∀ f ∈ bus.drainSections, ∀ s : List μ × MessageBus μ,
      ((∀ m ∈ s.1, P m) ∧ Within P s.2) → (∀ m ∈ (f s).1, P m) ∧ Within P (f s).2 := by
  rintro f hf s ⟨hacc, hb⟩
  rcases List.mem_append.mp hf with hf | hf
  · obtain ⟨i, -, rfl⟩ := List.mem_map.mp hf
    unfold receiveOne
    split
    · rename_i t _ ht
      have hall : ∀ m, m ∈ (RdmaTransport.receiveStep (s.1, t) i).1 ∨
          (RdmaTransport.receiveStep (s.1, t) i).2.Holds m → P m := by
        intro m hm
        rcases RdmaTransport.receiveStep_sub hm with hm | hm
        · exact hacc m hm
        · exact hb.queuePairs m ⟨t, ht, hm⟩
      refine ⟨fun m hm => hall m (Or.inl hm), hb.outboxes, hb.inbox, ?_⟩
      rintro m ⟨t', ht', hm⟩
      cases ht'
      exact hall m (Or.inr hm)
    · exact ⟨hacc, hb⟩
  · obtain rfl := List.mem_singleton.mp hf
    refine ⟨fun m hm => ?_, hb.outboxes, fun _ hm => (by cases hm), hb.queuePairs⟩
    rcases List.mem_append.mp hm with hm | hm
    · exact hb.inbox m hm
    · exact hacc m hm

end Within

end MessageBus

/-- A message that can be followed. -/
structure Traced (μ : Type) where
  msg : μ
  traced : Bool
  deriving DecidableEq, Repr

instance {μ : Type} [Addressed μ] : Addressed (Traced μ) := ⟨fun m => dst m.msg⟩

namespace Delivery

variable {μ : Type}

/-- What the thread of a bus does, and a network thread of it. -/
inductive Event (μ : Type) where
  | enqueue (msgs : List μ)
  | flush
  | drain (out : List μ)
  | network (timing : WorkerId → Nat)

section Steps

variable [Addressed μ]

/-- The steps of one bus. -/
inductive Step (pmap : PartitionMap) : MessageBus μ → Event μ → MessageBus μ → Prop where
  | enqueue (bus : MessageBus μ) (msgs : List μ) :
      Step pmap bus (.enqueue msgs) (bus.enqueueBatch pmap msgs)
  | flush {bus bus' : MessageBus μ}
      (run : Interrupted (fun timing b => b.network timing) bus.flushSections bus bus') :
      Step pmap bus .flush bus'
  | drain {bus bus' : MessageBus μ} {out : List μ}
      (run : Interrupted (fun timing s => (s.1, s.2.network timing)) bus.drainSections ([], bus)
        (out, bus')) :
      Step pmap bus (.drain out) bus'
  | network (bus : MessageBus μ) (timing : WorkerId → Nat) :
      Step pmap bus (.network timing) (bus.network timing)

/-- The buses of `workerCount` workers. -/
def Buses (pmap : PartitionMap) (workerCount : Nat) :
    (WorkerId → MessageBus μ) → WorkerId × Event μ → (WorkerId → MessageBus μ) → Prop :=
  Interleave fun w bus ev bus' => w < workerCount ∧ Step pmap bus ev bus'

end Steps

section Undisturbed

variable [Addressed μ] (pmap : PartitionMap) (bus : MessageBus μ)

theorem step_flush : Step pmap bus .flush bus.flush := by
  refine .flush ?_
  rw [← bus.foldl_flushSections]
  exact .undisturbed _ _

theorem step_drain : Step pmap bus (.drain bus.drainInbox.1) bus.drainInbox.2 := by
  refine .drain ?_
  show Interrupted _ bus.drainSections ([], bus) bus.drainInbox
  rw [← bus.foldl_drainSections]
  exact .undisturbed _ _

end Undisturbed

/-! ### Confinement -/

section Confinement

variable [Addressed μ] {pmap : PartitionMap} {P : μ → Prop}

/-- What an event brings into its bus. -/
def Event.enqueued : Event μ → List μ
  | .enqueue msgs => msgs
  | _ => []

/-- What an event takes out of its bus. -/
def Event.drained : Event μ → List μ
  | .drain out => out
  | _ => []

/-- **One step of a bus**: it holds what it held and what it enqueues, and drains
only that. -/
theorem within_step {bus bus' : MessageBus μ} {ev : Event μ} (h : bus.Within P)
    (hev : ∀ m ∈ ev.enqueued, P m) (step : Step pmap bus ev bus') :
    bus'.Within P ∧ ∀ m ∈ ev.drained, P m := by
  cases step with
  | enqueue => exact ⟨MessageBus.within_enqueueBatch h hev, fun _ hm => (by cases hm)⟩
  | flush run =>
      refine ⟨?_, fun _ hm => (by cases hm)⟩
      exact run.invariant (MessageBus.Within P)
        (fun timing _ hb => MessageBus.within_network hb timing) (MessageBus.within_flushSections h) h
  | drain run =>
      have hothers : ∀ (timing : WorkerId → Nat) (s : List μ × MessageBus μ),
          ((∀ m ∈ s.1, P m) ∧ s.2.Within P) →
            (∀ m ∈ s.1, P m) ∧ (s.2.network timing).Within P :=
        fun timing s hs => ⟨hs.1, MessageBus.within_network hs.2 timing⟩
      have hend := run.invariant (fun s => (∀ m ∈ s.1, P m) ∧ s.2.Within P) hothers
        MessageBus.within_drainSections ⟨by simp, h⟩
      exact ⟨hend.2, hend.1⟩
  | network => exact ⟨MessageBus.within_network h _, fun _ hm => (by cases hm)⟩

/-- **A bus of a run**: if what it enqueues satisfies `P`, so does what it drains. -/
theorem within_run {bus bus' : MessageBus μ} {evs : List (Event μ)}
    (run : Run (Step pmap) bus evs bus') (h : bus.Within P)
    (hevs : ∀ ev ∈ evs, ∀ m ∈ ev.enqueued, P m) :
    ∀ ev ∈ evs, ∀ m ∈ ev.drained, P m := by
  induction run with
  | nil => simp
  | cons step _ ih =>
      obtain ⟨h', hdrained⟩ := within_step h (hevs _ List.mem_cons_self) step
      intro ev hev
      rcases List.mem_cons.mp hev with rfl | hev
      · exact hdrained
      · exact ih h' (fun e he => hevs e (List.mem_cons_of_mem _ he)) ev hev

/-- **Confinement.** What a bus drains in a run of all buses depends on what that bus
enqueues, and on nothing another one does. -/
theorem confined {workerCount : Nat} {buses buses' : WorkerId → MessageBus μ}
    {ls : List (WorkerId × Event μ)} (run : Run (Buses pmap workerCount) buses ls buses')
    {w : WorkerId} (h : (buses w).Within P)
    (henqueued : ∀ msgs, (w, Event.enqueue msgs) ∈ ls → ∀ m ∈ msgs, P m) {out : List μ}
    (hdrain : (w, Event.drain out) ∈ ls) : ∀ m ∈ out, P m := by
  have hrun : Run (Step pmap) (buses w) (labelsOf w ls) (buses' w) :=
    (Interleave.proj run w).mono fun _ _ _ hstep => hstep.2
  refine within_run hrun h ?_ (.drain out) (mem_labelsOf.mpr hdrain)
  intro ev hev m hm
  cases ev with
  | enqueue msgs => exact henqueued msgs (mem_labelsOf.mp hev) m hm
  | _ => cases hm

end Confinement

/-! ### Delivery across workers -/

section Delivery

variable [Addressed μ]

/-- The traced messages of a list, in order. -/
def tracedOf (ms : List (Traced μ)) : List (Traced μ) := ms.filter Traced.traced

/-- The traced messages that bus `i` enqueues, in order. -/
def sentBy (i : WorkerId) (ls : List (WorkerId × Event (Traced μ))) : List (Traced μ) :=
  (labelsOf i ls).flatMap fun ev => tracedOf ev.enqueued

/-- A run in which the traced messages are those that bus `i` enqueues for worker `j`
before a drain of bus `j`. -/
structure Sending (pmap : PartitionMap) (workerCount : Nat) (i j : WorkerId)
    (buses : WorkerId → MessageBus (Traced μ)) (before after : List (WorkerId × Event (Traced μ))) :
    Prop where
  distinct : i ≠ j
  sender : i < workerCount
  receiver : j < workerCount
  untraced : ∀ w, (buses w).Within fun m => m.traced = false
  before : ∀ w msgs, (w, Event.enqueue msgs) ∈ before → ∀ m ∈ msgs, m.traced = true →
    w = i ∧ pmap.ownerOf (dst m) = j
  after : ∀ w msgs, (w, Event.enqueue msgs) ∈ after → ∀ m ∈ msgs, m.traced = false

/-- The drain of bus `j` returns all traced messages once and in order, and no drain
of another bus returns one. -/
def Delivered (j : WorkerId) (sent : List (Traced μ))
    (before : List (WorkerId × Event (Traced μ))) (out : List (Traced μ))
    (after : List (WorkerId × Event (Traced μ))) : Prop :=
  tracedOf out = sent ∧
    ∀ w o, w ≠ j → (w, Event.drain o) ∈ before ++ after → tracedOf o = []

omit [Addressed μ] in
theorem tracedOf_eq_nil {ms : List (Traced μ)} (h : ∀ m ∈ ms, m.traced = false) :
    tracedOf ms = [] := by
  apply List.filter_eq_nil_iff.mpr
  intro m hm
  simp [h m hm]

variable {pmap : PartitionMap} {workerCount : Nat} {i j : WorkerId}
  {buses buses' : WorkerId → MessageBus (Traced μ)} {out : List (Traced μ)}
  {before after : List (WorkerId × Event (Traced μ))}

/-- A bus that enqueues no traced message drains none. -/
theorem Sending.drains_untraced (h : Sending pmap workerCount i j buses before after)
    (run : Run (Buses pmap workerCount) buses (before ++ (j, .drain out) :: after) buses')
    {w : WorkerId} (hw : w = i → sentBy i before = []) {o : List (Traced μ)}
    (hdrain : (w, Event.drain o) ∈ before ++ (j, .drain out) :: after) : tracedOf o = [] := by
  refine tracedOf_eq_nil (confined run (h.untraced w) ?_ hdrain)
  intro msgs hmem m hm
  by_contra htraced
  have htraced : m.traced = true := by simpa using htraced
  rcases List.mem_append.mp hmem with hbefore | hafter
  · obtain ⟨rfl, -⟩ := h.before w msgs hbefore m hm htraced
    have hsent : m ∈ sentBy w before := by
      refine List.mem_flatMap.mpr ⟨_, mem_labelsOf.mpr hbefore, ?_⟩
      exact List.mem_filter.mpr ⟨hm, htraced⟩
    rw [hw rfl] at hsent
    cases hsent
  · rcases List.mem_cons.mp hafter with heq | hafter
    · cases heq
    · rw [h.after w msgs hafter m hm] at htraced
      cases htraced

/-- **Messages for another worker are delivered if and only if there are none.**
Whatever the threads of the buses and of the queue pairs do, a drain of bus `j`
returns no message that bus `i` has enqueued. -/
theorem cross_worker_delivery (h : Sending pmap workerCount i j buses before after)
    (run : Run (Buses pmap workerCount) buses (before ++ (j, .drain out) :: after) buses') :
    Delivered j (sentBy i before) before out after ↔ sentBy i before = [] := by
  have hnone : tracedOf out = [] :=
    h.drains_untraced run (fun heq => absurd heq.symm h.distinct)
      (List.mem_append_right _ List.mem_cons_self)
  constructor
  · rintro ⟨hall, -⟩
    rw [← hall, hnone]
  · intro hempty
    refine ⟨by rw [hnone, hempty], fun w o _ hdrain => ?_⟩
    apply h.drains_untraced run (w := w) (fun _ => hempty)
    rcases List.mem_append.mp hdrain with hmem | hmem
    · exact List.mem_append_left _ hmem
    · exact List.mem_append_right _ (List.mem_cons_of_mem _ hmem)

end Delivery

/-! ### Two workers and one message -/

/-- A message from worker 0 to vertex 1, which worker 1 owns. -/
def crossing : Traced Message := ⟨⟨0, 1, 0, .heartbeat⟩, true⟩

def crossingBefore : List (WorkerId × Event (Traced Message)) :=
  [(0, .enqueue [crossing]), (0, .flush), (1, .flush), (0, .network fun _ => 4)]

theorem crossing_sending (rdma : Bool) (out : List (Traced Message)) :
    Sending ⟨2, fun _ => none⟩ 2 0 1 (fun w => MessageBus.new w 2 rdma) crossingBefore
      [(0, .drain out)] where
  distinct := by decide
  sender := by decide
  receiver := by decide
  untraced w := MessageBus.within_new w 2 rdma
  before w msgs hmem m hm _ := by
    simp only [crossingBefore, List.mem_cons, Prod.mk.injEq, Event.enqueue.injEq, reduceCtorEq,
      and_false, List.not_mem_nil, or_false] at hmem
    obtain ⟨rfl, rfl⟩ := hmem
    obtain rfl := List.mem_singleton.mp hm
    exact ⟨rfl, rfl⟩
  after w msgs hmem := by simp at hmem

/-- The flush of worker 0, the flush of worker 1, and the drains of both. -/
theorem crossing_run (rdma : Bool) (out : List (Traced Message))
    (hout : ((((MessageBus.new 0 2 rdma).enqueueBatch ⟨2, fun _ => none⟩
      [crossing]).flush.network fun _ => 4).drainInbox).1 = out) :
    ∃ buses', Run (Buses ⟨2, fun _ => none⟩ 2) (fun w => MessageBus.new w 2 rdma)
      (crossingBefore ++ (1, .drain []) :: [(0, .drain out)]) buses' := by
  subst hout
  cases rdma with
  | false =>
      exact ⟨_, .cons ⟨_, ⟨by decide, .enqueue _ _⟩, rfl⟩ <|
        .cons ⟨_, ⟨by decide, step_flush _ _⟩, rfl⟩ <|
        .cons ⟨_, ⟨by decide, step_flush _ _⟩, rfl⟩ <|
        .cons ⟨_, ⟨by decide, .network _ _⟩, rfl⟩ <|
        .cons ⟨_, ⟨by decide, step_drain _ _⟩, rfl⟩ <|
        .one ⟨_, ⟨by decide, step_drain _ _⟩, rfl⟩⟩
  | true =>
      exact ⟨_, .cons ⟨_, ⟨by decide, .enqueue _ _⟩, rfl⟩ <|
        .cons ⟨_, ⟨by decide, step_flush _ _⟩, rfl⟩ <|
        .cons ⟨_, ⟨by decide, step_flush _ _⟩, rfl⟩ <|
        .cons ⟨_, ⟨by decide, .network _ _⟩, rfl⟩ <|
        .cons ⟨_, ⟨by decide, step_drain _ _⟩, rfl⟩ <|
        .one ⟨_, ⟨by decide, step_drain _ _⟩, rfl⟩⟩

/-- With and without the transport, worker 1 does not get the message; with it, the
message comes back to worker 0. -/
theorem crossing_not_delivered :
    (∃ buses', Run (Buses ⟨2, fun _ => none⟩ 2) (fun w => MessageBus.new w 2 true)
      (crossingBefore ++ (1, .drain []) :: [(0, .drain [crossing])]) buses') ∧
    (∃ buses', Run (Buses ⟨2, fun _ => none⟩ 2) (fun w => MessageBus.new w 2 false)
      (crossingBefore ++ (1, .drain []) :: [(0, .drain [])]) buses') ∧
    sentBy 0 crossingBefore = [crossing] ∧
    ¬ Delivered 1 (sentBy 0 crossingBefore) crossingBefore [] [(0, .drain [crossing])] ∧
    ¬ Delivered 1 (sentBy 0 crossingBefore) crossingBefore [] [(0, .drain [])] := by
  refine ⟨crossing_run true _ (by decide), crossing_run false _ (by decide), rfl, ?_, ?_⟩
  · rintro ⟨hall, -⟩
    cases hall
  · rintro ⟨hall, -⟩
    cases hall

/-- The equivalence at the run of `crossing_not_delivered` over the transport. -/
theorem cross_worker_delivery_two :
    Delivered 1 (sentBy 0 crossingBefore) crossingBefore [] [(0, .drain [crossing])] ↔
      sentBy 0 crossingBefore = [] := by
  obtain ⟨buses', run⟩ := crossing_run true [crossing] (by decide)
  exact cross_worker_delivery (crossing_sending true _) run

end Delivery

end Pregel
