import Pregel.OrderBook.Order

/-!
The life cycle of an order.

An order reads one stream of messages, cut into inboxes in any way. It ends at the first
CANCEL_ACK or at the first fill that completes it, wherever in an inbox that is; from there
on it ignores the stream, sends nothing and votes to halt in every superstep.

* `staysOpen_iff`: an order ends at the first message that ends it.
* `compute_of_ended`: a superstep after which an order is inactive.
* `order_life_cycle`: the life of an order depends on the stream alone.
* `remaining_never_underflows`: an active order has something left in it, and its fills are
  over what is left.
-/

namespace Pregel

namespace OrderVertex

/-- What is filled after these messages, if nothing wraps. -/
def cumulative (filled : UInt64) (ms : List Message) : Nat :=
  filled.toNat + (ms.map fillQty).sum

/-- Message `m` after `before` ends an order over `quantity`: it is a CANCEL_ACK, or a fill
that brings the cumulative quantity to the one ordered. -/
def Ends (quantity filled : UInt64) (before : List Message) (m : Message) : Prop :=
  m.type = .cancelAck ∨
    m.type = .orderFill ∧ quantity.toNat ≤ cumulative filled (before ++ [m])

/-- A property of every element with what comes before it. -/
theorem forall_split_cons {α : Type} {P : List α → α → Prop} (a : α) (as : List α) :
    (∀ before x after, a :: as = before ++ x :: after → P before x) ↔
      P [] a ∧ ∀ before x after, as = before ++ x :: after → P (a :: before) x := by
  constructor
  · intro h
    exact ⟨h [] a as rfl, fun before x after heq => h (a :: before) x after (by rw [heq]; rfl)⟩
  · rintro ⟨hfirst, hrest⟩ before x after heq
    cases before with
    | nil =>
        cases heq
        exact hfirst
    | cons b before =>
        obtain ⟨rfl, htail⟩ := List.cons.inj heq
        exact hrest before x after htail

section Open

variable {quantity filled : UInt64}

theorem ends_cons_fill {price : Int} {qty trade : UInt64} {m : Message}
    (hm : m.payload = .orderFill price qty trade) (nowrap : filled.toNat + qty.toNat < 2 ^ 64)
    (before : List Message) (x : Message) :
    Ends quantity filled (m :: before) x ↔ Ends quantity (filled + qty) before x := by
  have hqty : fillQty m = qty.toNat := by simp [fillQty, hm]
  have hsum : (filled + qty).toNat = filled.toNat + qty.toNat := by
    rw [UInt64.toNat_add, Nat.mod_eq_of_lt nowrap]
  have hcumulative : cumulative filled (m :: before ++ [x]) =
      cumulative (filled + qty) (before ++ [x]) := by
    simp only [cumulative, List.cons_append, List.map_cons, List.sum_cons, hqty, hsum]
    omega
  rw [Ends, Ends, hcumulative]

theorem ends_cons_other {m : Message} (hm : fillQty m = 0) (before : List Message) (x : Message) :
    Ends quantity filled (m :: before) x ↔ Ends quantity filled before x := by
  have hcumulative : cumulative filled (m :: before ++ [x]) = cumulative filled (before ++ [x]) := by
    simp [cumulative, hm]
  rw [Ends, Ends, hcumulative]

/-- **An order ends at the first message that ends it**, if the cumulative quantity does not
wrap. -/
theorem staysOpen_iff {ms : List Message} (nowrap : cumulative filled ms < 2 ^ 64) :
    staysOpen quantity filled ms = true ↔
      ∀ before m after, ms = before ++ m :: after → ¬ Ends quantity filled before m := by
  induction ms generalizing filled with
  | nil => simp [staysOpen]
  | cons m ms ih =>
      rw [forall_split_cons]
      cases hm : m.payload with
      | orderFill price qty trade =>
          have hqty : fillQty m = qty.toNat := by simp [fillQty, hm]
          have hwhole : cumulative filled (m :: ms) =
              filled.toNat + qty.toNat + (ms.map fillQty).sum := by
            simp only [cumulative, List.map_cons, List.sum_cons, hqty]
            omega
          have hstep : filled.toNat + qty.toNat < 2 ^ 64 := by omega
          have hsum : (filled + qty).toNat = filled.toNat + qty.toNat := by
            rw [UInt64.toNat_add, Nat.mod_eq_of_lt hstep]
          have hrest : cumulative (filled + qty) ms < 2 ^ 64 := by
            rw [cumulative, hsum]
            omega
          have hfirst : ¬ Ends quantity filled [] m ↔ filled + qty < quantity := by
            rw [UInt64.lt_iff_toNat_lt, hsum]
            simp [Ends, Message.type, hm, cumulative, hqty]
          simp only [staysOpen, hm, Bool.and_eq_true, decide_eq_true_eq, ih hrest,
            ends_cons_fill hm hstep, hfirst]
      | cancelAck => simp [staysOpen, hm, Ends, Message.type]
      | _ =>
          have hqty : fillQty m = 0 := by simp [fillQty, hm]
          have hsame : cumulative filled ms < 2 ^ 64 := by
            simpa [cumulative, hqty] using nowrap
          have hfirst : ¬ Ends quantity filled [] m := by simp [Ends, Message.type, hm]
          simp only [staysOpen, hm, ih hsame, ends_cons_other hqty, hfirst, not_false_iff, true_and]

end Open

section Calls

variable (v : Vertex OrderVertex Message) (inbox : List Message) (step : Superstep)

/-- `compute` does not look at whether the vertex was halted. -/
theorem compute_wakeUp : (compute v.wakeUp inbox step).state = (compute v inbox step).state ∧
    (compute v.wakeUp inbox step).outbox = (compute v inbox step).outbox := by
  cases hactive : v.state.active with
  | false => simp [compute, hactive, Vertex.wakeUp, Vertex.voteToHalt]
  | true =>
      have hkeep : v.wakeUp.state = v.state ∧ v.wakeUp.outbox = v.outbox := ⟨rfl, rfl⟩
      cases hreturned : (v.state.readInbox inbox).1 with
      | true => simp [compute, hactive, hreturned, hkeep, Vertex.voteToHalt]
      | false =>
          cases hmarketable : (v.state.readInbox inbox).2.marketable with
          | true =>
              simp only [compute, hactive, hreturned, hmarketable, hkeep, Vertex.sendAll_eq,
                not_true, if_false, if_true, Bool.false_eq_true, true_and]
              rfl
          | false =>
              by_cases hlate : (v.state.readInbox inbox).2.stepsWithoutFill + 1 > 10
              · simp [compute, hactive, hreturned, hmarketable, hkeep, hlate, Vertex.voteToHalt]
              · simp [compute, hactive, hreturned, hmarketable, hkeep, hlate]

variable {v inbox step}

/-- A superstep after which an order is inactive: it sends nothing and votes to halt. -/
theorem compute_of_ended (ended : (compute v inbox step).state.active = false) :
    (compute v inbox step).outbox = v.outbox ∧ (compute v inbox step).halted = true := by
  obtain ⟨⟨n, hstate⟩, -, -, hsent⟩ := compute_spec v inbox step
  have hreceive : (v.state.receive inbox).active = false := by
    rw [hstate] at ended
    exact ended
  refine ⟨by simpa [fires, hreceive] using hsent, ?_⟩
  cases hactive : v.state.active with
  | false => simp [compute, hactive, Vertex.voteToHalt]
  | true =>
      have hreturned := returned_eq hactive inbox
      rw [receive, if_pos hactive] at hreceive
      rw [hreceive] at hreturned
      simp only [compute, hactive, hreturned, Vertex.voteToHalt, not_true, if_false, Bool.not_false,
        if_true]

end Calls

/-- The fields of an order that its messages change. -/
def life (o : OrderVertex) : UInt64 × Bool × Int := (o.filledQty, o.active, o.bestMarketPrice)

theorem life_feed (v : Vertex OrderVertex Message) (inputs : List (List Message × Superstep)) :
    (v.feed compute inputs).2.state.life = (v.state.receive (Vertex.received inputs)).life := by
  obtain ⟨n, hstate⟩ := feed_state v inputs
  rw [hstate]
  rfl

/-- **The life cycle of an order.** After any inboxes, its filled quantity, its active flag
and the price it remembers depend on the concatenation of the inboxes alone. An active order
is inactive afterwards if and only if the concatenation contains a message that ends it, as
long as the cumulative quantity fits into 64 bits. Whatever comes after that message, in the
same inbox or in later ones, changes nothing; and in every superstep after which the order is
inactive it sends nothing and is halted, whether it had been woken up for it or not. -/
theorem order_life_cycle (v : Vertex OrderVertex Message) :
    (∀ inputs inputs', Vertex.received inputs = Vertex.received inputs' →
      (v.feed compute inputs).2.state.life = (v.feed compute inputs').2.state.life) ∧
    (v.state.active = true → ∀ inputs,
      cumulative v.state.filledQty (Vertex.received inputs) < 2 ^ 64 →
      ((v.feed compute inputs).2.state.active = false ↔
        ∃ before m after, Vertex.received inputs = before ++ m :: after ∧
          Ends v.state.quantity v.state.filledQty before m)) ∧
    (∀ inputs inputs' rest, Vertex.received inputs' = Vertex.received inputs ++ rest →
      (v.feed compute inputs).2.state.active = false →
      (v.feed compute inputs').2.state.life = (v.feed compute inputs).2.state.life) ∧
    ∀ inputs inbox step, (v.feed compute (inputs ++ [(inbox, step)])).2.state.active = false →
      ∀ w ∈ [(v.feed compute inputs).2, (v.feed compute inputs).2.wakeUp],
        (compute w inbox step).outbox = w.outbox ∧ (compute w inbox step).halted = true ∧
          (compute w inbox step).state.life =
            (v.feed compute (inputs ++ [(inbox, step)])).2.state.life := by
  have hactive : ∀ inputs, (v.feed compute inputs).2.state.active =
      (v.state.receive (Vertex.received inputs)).active := fun inputs =>
    congrArg (fun l => l.2.1) (life_feed v inputs)
  refine ⟨fun inputs inputs' hsame => ?_, fun hopen inputs nowrap => ?_,
    fun inputs inputs' rest hmore hended => ?_, fun inputs inbox step hended w hw => ?_⟩
  · rw [life_feed, life_feed, hsame]
  · rw [hactive, receive, if_pos hopen, readInbox_active hopen, ← Bool.not_eq_true,
      staysOpen_iff nowrap]
    push Not
    rfl
  · rw [hactive] at hended
    rw [life_feed, life_feed, hmore, receive_append, receive_of_inactive hended]
  · rw [Vertex.feed_concat] at hended ⊢
    have hcall : (compute w inbox step).state =
        (compute (v.feed compute inputs).2 inbox step).state := by
      rcases List.mem_pair.mp hw with rfl | rfl
      · rfl
      · exact (compute_wakeUp _ inbox step).1
    have hafter : (compute w inbox step).state.active = false := by
      rw [hcall]
      exact hended
    obtain ⟨hsent, hhalted⟩ := compute_of_ended hafter
    refine ⟨hsent, hhalted, ?_⟩
    rw [hcall]
    rfl

/-! ### What is left of an order -/

/-- The order after one more call of `compute`. -/
theorem compute_feed_state (v : Vertex OrderVertex Message)
    (inputs : List (List Message × Superstep)) (inbox : List Message) (step : Superstep) : ∃ n,
    (compute (v.feed compute inputs).2 inbox step).state =
      (v.state.receive (Vertex.received inputs ++ inbox)).withSteps n := by
  obtain ⟨n, hstate⟩ := feed_state v (inputs ++ [(inbox, step)])
  rw [Vertex.feed_concat, Vertex.received_concat] at hstate
  exact ⟨n, hstate⟩

/-- An order that was created with nothing filled has something left as long as it is active. -/
theorem filledQty_lt_of_active {o : OrderVertex} (hfilled : o.filledQty = 0)
    (hquantity : 0 < o.quantity) {ms : List Message} (hactive : (o.receive ms).active = true) :
    (o.receive ms).filledQty < o.quantity := by
  obtain ⟨-, hkept | hless⟩ := receive_filledQty hactive
  · rw [hkept, hfilled]
    exact hquantity
  · rwa [(receive_frame o ms).2.1] at hless

/-- **The remaining quantity never underflows.** Take an order created with nothing filled
and over a positive quantity, active or not, and any inboxes, with any quantities in the
fills, also such that their sum wraps around. After every call of `compute` an active order
is filled below its quantity, and everything it sends is a fill over what is left: more than
nothing, at most its quantity, and together with what is filled the quantity. -/
theorem remaining_never_underflows (id : VertexId) (owner : WorkerId) {st : State}
    (edges : List Edge) (hfilled : st.filledQty = 0)
    (hquantity : 0 < st.quantity) (inputs : List (List Message × Superstep))
    (inbox : List Message) (step : Superstep) :
    let v := compute ((placed id owner st edges).feed compute inputs).2 inbox step
    v.state.quantity = st.quantity ∧
      (v.state.active = true → v.state.filledQty < v.state.quantity) ∧
      ∀ m ∈ v.outbox, ∃ r trade, m.payload = .orderFill st.limitPrice r trade ∧
        0 < r ∧ r ≤ st.quantity ∧ r.toNat + v.state.filledQty.toNat = st.quantity.toNat := by
  intro v
  obtain ⟨n, hstate⟩ := compute_feed_state (placed id owner st edges) inputs inbox step
  set ms := Vertex.received inputs ++ inbox with hms
  set o : OrderVertex := (placed id owner st edges).state.receive ms with ho
  obtain ⟨hlimit, hsame, -⟩ := receive_frame (placed id owner st edges).state ms
  have hopen : o.active = true → o.filledQty < st.quantity :=
    filledQty_lt_of_active (o := (placed id owner st edges).state) hfilled hquantity
  have hv : v.state.quantity = st.quantity ∧ v.state.active = o.active ∧
      v.state.filledQty = o.filledQty := by
    rw [hstate]
    exact ⟨hsame, rfl, rfl⟩
  refine ⟨hv.1, fun h => ?_, fun m hm => ?_⟩
  · rw [hv.1, hv.2.2]
    exact hopen (hv.2.1 ▸ h)
  · rw [sent_next rfl inputs inbox step, ← hms, ← ho] at hm
    split at hm
    next hfires =>
      obtain ⟨e, -, rfl⟩ := List.mem_map.mp hm
      have hless : o.filledQty < o.quantity := by
        rw [hsame]
        exact hopen (Bool.and_eq_true_iff.mp hfires).1
      have hnat := UInt64.lt_iff_toNat_lt.mp hless
      have hr : (o.quantity - o.filledQty).toNat = o.quantity.toNat - o.filledQty.toNat :=
        UInt64.toNat_sub_of_le _ _ (UInt64.le_of_lt hless)
      have hq : o.quantity = st.quantity := hsame
      have hprice : o.limitPrice = st.limitPrice := hlimit
      refine ⟨o.quantity - o.filledQty, _, by rw [← hprice]; rfl, ?_, ?_, ?_⟩
      · rw [UInt64.lt_iff_toNat_lt, hr, UInt64.toNat_zero]
        omega
      · rw [UInt64.le_iff_toNat_le, hr, ← hq]
        omega
      · rw [hr, hv.2.2, ← hq]
        omega
    next => cases hm

/-- An order for 10 gets a fill of 5 and one of 2^64 - 2, and goes on with 3 filled; at the
quote it sends a fill over the remaining 7. -/
theorem remaining_after_wrap :
    let bid : State := ⟨100, 10, 0, .bid, true, 0, 0, 0⟩
    let inputs : List (List Message × Superstep) :=
      [([⟨1, 7, 0, .orderFill 100 5 0⟩, ⟨1, 7, 0, .orderFill 100 (-2) 0⟩], 1)]
    let v := compute ((placed 7 0 bid [⟨1, 1, 0⟩]).feed compute inputs).2
      [⟨1, 7, 1, .priceUpdate 90 110 5 5⟩] 2
    v.state.filledQty = 3 ∧ v.outbox = [⟨7, 1, 2, .orderFill 100 7 8589934599⟩] ∧
      (v.state.active = true → v.state.filledQty < v.state.quantity) := by
  intro bid inputs
  have hpositive : 0 < bid.quantity := by decide
  have h := remaining_never_underflows 7 0 [⟨1, 1, 0⟩] rfl hpositive inputs
    [⟨1, 7, 1, .priceUpdate 90 110 5 5⟩] 2
  exact ⟨by decide +kernel, by decide +kernel, h.2.1⟩

end OrderVertex

end Pregel
