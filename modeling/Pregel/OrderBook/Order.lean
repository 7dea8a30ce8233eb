import Mathlib.Algebra.GroupWithZero.Nat
import Pregel.OrderBook.Basic

/-!
`OrderVertex` (`order_book_graph.hpp`, `order_book_graph.cpp`).

An order remembers one price of the last quote and sends a fill over every edge in each
superstep in which that price is within its limit. Its filled quantity changes only by
fills that it receives, never by those it sends.

* `readInbox_append`, `receive_append`: an order does not see where one inbox ends and the
  next begins.
* `compute_spec`, `feed_spec`, `sent_next`: one call of `compute`, and the call after any
  number of calls, in terms of the messages received so far.
* `trades_le`, `exists_overtrading`, `order_trades_at_most_its_size`: an order trades what
  is left in it once for each superstep in which it is marketable.
* `sends_fill_iff`, `only_marketable_orders_fill`: a bid looks at the price bid and an ask
  at the asked price.
-/

namespace Pregel

/-- `OrderVertex::State`. -/
structure OrderVertex.State where
  limitPrice : Int
  quantity : UInt64
  filledQty : UInt64 := 0
  side : Side
  active : Bool := true
  venueId : Nat
  traderId : UInt64
  timestampNs : UInt64
  deriving DecidableEq, Repr

/-- `OrderVertex`: the fields of the derived class. -/
structure OrderVertex extends OrderVertex.State where
  bestMarketPrice : Int := 0
  stepsWithoutFill : UInt32 := 0
  deriving DecidableEq, Repr

namespace OrderVertex

/-- `OrderVertex::OrderVertex`. -/
def new (id : VertexId) (owner : WorkerId) (state : State) : Vertex OrderVertex Message where
  id := id
  type := .order
  owner := owner
  state := { toState := state }

/-- The loop of `compute` over the inbox. The flag says that `compute` returned from
inside the loop. -/
def readInbox (o : OrderVertex) : List Message → Bool × OrderVertex
  | [] => (false, o)
  | msg :: inbox =>
      match msg.payload with
      | .priceUpdate bid ask _ _ =>
          readInbox { o with bestMarketPrice := if o.side = .bid then bid else ask } inbox
      | .orderFill _ qty _ =>
          let filled := o.filledQty + qty
          if filled ≥ o.quantity then (true, { o with filledQty := filled, active := false })
          else readInbox { o with filledQty := filled } inbox
      | .cancelAck => (true, { o with active := false })
      | _ => readInbox o inbox

/-- The variable `marketable` of `compute`. -/
def marketable (o : OrderVertex) : Bool :=
  o.bestMarketPrice > 0 &&
    ((o.side = .bid && o.bestMarketPrice ≤ o.limitPrice) ||
      (o.side = .ask && o.bestMarketPrice ≥ o.limitPrice))

/-- The message `fill` of `compute`. -/
def fill (id : VertexId) (o : OrderVertex) (step : Superstep) : Message :=
  .plain step (.orderFill o.limitPrice (o.quantity - o.filledQty)
    (UInt64.ofNat id ^^^ (UInt64.ofNat step <<< 32)))

/-- `OrderVertex::compute`. -/
def compute : Compute OrderVertex Message := fun v inbox step =>
  if ¬ v.state.active then v.voteToHalt
  else
    let (returned, o) := v.state.readInbox inbox
    let v := { v with state := o }
    if returned then v.voteToHalt
    else if o.marketable then
      { v.sendAll v.edges (fill v.id o step) with state := { o with stepsWithoutFill := 0 } }
    else
      let steps := o.stepsWithoutFill + 1
      let v := { v with state := { o with stepsWithoutFill := steps } }
      if steps > 10 then v.voteToHalt else v

/-! ### What a call of `compute` does -/

/-- The order with another count of supersteps without a fill. -/
def withSteps (o : OrderVertex) (n : UInt32) : OrderVertex := { o with stepsWithoutFill := n }

@[simp] theorem withSteps_active (o : OrderVertex) (n : UInt32) :
    (o.withSteps n).active = o.active := rfl

@[simp] theorem withSteps_quantity (o : OrderVertex) (n : UInt32) :
    (o.withSteps n).quantity = o.quantity := rfl

@[simp] theorem withSteps_filledQty (o : OrderVertex) (n : UInt32) :
    (o.withSteps n).filledQty = o.filledQty := rfl

@[simp] theorem withSteps_self (o : OrderVertex) : o.withSteps o.stepsWithoutFill = o := rfl

@[simp] theorem withSteps_withSteps (o : OrderVertex) (m n : UInt32) :
    (o.withSteps m).withSteps n = o.withSteps n := rfl

/-- The fields of the derived class after an inbox, but for `stepsWithoutFill`. -/
def receive (o : OrderVertex) (inbox : List Message) : OrderVertex :=
  if o.active then (o.readInbox inbox).2 else o

/-- The order goes into the branch that sends fills. -/
def fires (o : OrderVertex) (inbox : List Message) : Bool :=
  (o.receive inbox).active && (o.receive inbox).marketable

section Reading

variable {o : OrderVertex} {inbox : List Message}

/-- Reading an inbox does not change what the order is. -/
theorem readInbox_frame (o : OrderVertex) (inbox : List Message) :
    (o.readInbox inbox).2.limitPrice = o.limitPrice ∧
      (o.readInbox inbox).2.quantity = o.quantity ∧ (o.readInbox inbox).2.side = o.side := by
  fun_induction readInbox o inbox with
  | case1 o => exact ⟨rfl, rfl, rfl⟩
  | case2 o _ _ _ _ _ _ _ ih => exact ih
  | case3 => exact ⟨rfl, rfl, rfl⟩
  | case4 o _ _ _ _ _ _ _ _ ih => exact ih
  | case5 => exact ⟨rfl, rfl, rfl⟩
  | case6 o _ _ _ _ _ ih => exact ih

/-- `compute` returns from the loop exactly when the order has become inactive. -/
theorem returned_eq (hactive : o.active = true) (inbox : List Message) :
    (o.readInbox inbox).1 = !(o.readInbox inbox).2.active := by
  fun_induction readInbox o inbox with
  | case1 o => simp [hactive]
  | case2 o _ _ _ _ _ _ _ ih => exact ih hactive
  | case3 => rfl
  | case4 o _ _ _ _ _ _ _ _ ih => exact ih hactive
  | case5 => rfl
  | case6 o _ _ _ _ _ ih => exact ih hactive

theorem readInbox_append (o : OrderVertex) (inbox inbox' : List Message) :
    o.readInbox (inbox ++ inbox') =
      if (o.readInbox inbox).1 then o.readInbox inbox
      else (o.readInbox inbox).2.readInbox inbox' := by
  fun_induction readInbox o inbox with
  | case1 o => simp
  | case2 o msg inbox bid ask bq aq hmsg ih => simp [readInbox, hmsg, ih]
  | case3 o msg inbox price qty trade hmsg filled hfull => simp [readInbox, hmsg, filled, hfull]
  | case4 o msg inbox price qty trade hmsg filled hfull ih =>
      simp [readInbox, hmsg, filled, hfull, ih]
  | case5 o msg inbox hmsg => simp [readInbox, hmsg]
  | case6 o msg inbox h₁ h₂ h₃ ih => simp [readInbox, ih]

theorem readInbox_steps (o : OrderVertex) (inbox : List Message) (n : UInt32) :
    (o.withSteps n).readInbox inbox =
      ((o.readInbox inbox).1, (o.readInbox inbox).2.withSteps n) := by
  fun_induction readInbox o inbox with
  | case1 o => rfl
  | case2 o msg inbox bid ask bq aq hmsg ih =>
      rw [← ih]
      simp only [readInbox, hmsg]
      rfl
  | case3 o msg inbox price qty trade hmsg filled hfull =>
      have hfull : o.filledQty + qty ≥ o.quantity := hfull
      simp [readInbox, hmsg, withSteps, hfull, filled]
  | case4 o msg inbox price qty trade hmsg filled hfull ih =>
      have hfull : ¬ o.filledQty + qty ≥ o.quantity := hfull
      rw [← ih]
      simp [readInbox, hmsg, withSteps, hfull, filled]
  | case5 o msg inbox hmsg => simp [readInbox, hmsg, withSteps]
  | case6 o msg inbox h₁ h₂ h₃ ih =>
      rw [← ih]
      simp [readInbox]

/-- Reading two inboxes is reading their concatenation. -/
theorem receive_append (o : OrderVertex) (inbox inbox' : List Message) :
    o.receive (inbox ++ inbox') = (o.receive inbox).receive inbox' := by
  cases hactive : o.active with
  | false => simp [receive, hactive]
  | true =>
      have hreturned := returned_eq hactive inbox
      cases hafter : (o.readInbox inbox).2.active with
      | false => simp [receive, hactive, hafter, readInbox_append, hreturned]
      | true => simp [receive, hactive, hafter, readInbox_append, hreturned]

theorem receive_steps (o : OrderVertex) (inbox : List Message) (n : UInt32) :
    (o.withSteps n).receive inbox =
      (o.receive inbox).withSteps n := by
  cases hactive : o.active with
  | false => simp [receive, hactive]
  | true => simp [receive, hactive, readInbox_steps]

theorem receive_frame (o : OrderVertex) (inbox : List Message) :
    (o.receive inbox).limitPrice = o.limitPrice ∧
      (o.receive inbox).quantity = o.quantity ∧ (o.receive inbox).side = o.side := by
  unfold receive
  split
  · exact readInbox_frame o inbox
  · exact ⟨rfl, rfl, rfl⟩

/-- Quotes neither fill nor end an order. -/
theorem receive_of_quotes (o : OrderVertex) {inbox : List Message}
    (quotes : ∀ m ∈ inbox, m.type = .priceUpdate) :
    (o.receive inbox).filledQty = o.filledQty ∧ (o.receive inbox).active = o.active := by
  have hread : (o.readInbox inbox).2.filledQty = o.filledQty ∧
      (o.readInbox inbox).2.active = o.active := by
    fun_induction readInbox o inbox with
    | case1 o => exact ⟨rfl, rfl⟩
    | case2 o msg inbox bid ask bq aq hmsg ih =>
        exact ih fun m hm => quotes m (List.mem_cons_of_mem msg hm)
    | case3 o msg inbox price qty trade hmsg =>
        have htype := quotes msg List.mem_cons_self
        simp [Message.type, hmsg] at htype
    | case4 o msg inbox price qty trade hmsg =>
        have htype := quotes msg List.mem_cons_self
        simp [Message.type, hmsg] at htype
    | case5 o msg inbox hmsg =>
        have htype := quotes msg List.mem_cons_self
        simp [Message.type, hmsg] at htype
    | case6 o msg inbox h₁ h₂ h₃ ih =>
        exact ih fun m hm => quotes m (List.mem_cons_of_mem msg hm)
  unfold receive
  split
  · exact hread
  · exact ⟨rfl, rfl⟩

/-- An inactive order stays inactive. -/
theorem receive_of_inactive (hactive : o.active = false) : o.receive inbox = o := by
  simp [receive, hactive]

end Reading

section Compute

variable (v : Vertex OrderVertex Message) (inbox : List Message) (step : Superstep)

theorem compute_frame : v.SameFrame (compute v inbox step) := by
  unfold compute
  split
  · exact ⟨rfl, rfl, rfl, rfl⟩
  · dsimp only
    split
    · exact ⟨rfl, rfl, rfl, rfl⟩
    · split
      · rw [Vertex.sendAll_eq]
        exact ⟨rfl, rfl, rfl, rfl⟩
      · split
        · exact ⟨rfl, rfl, rfl, rfl⟩
        · exact ⟨rfl, rfl, rfl, rfl⟩

/-- **One call of `compute`**: what it makes of the fields, and what it sends. -/
theorem compute_spec :
    (∃ n, (compute v inbox step).state =
        (v.state.receive inbox).withSteps n) ∧
      (compute v inbox step).id = v.id ∧ (compute v inbox step).edges = v.edges ∧
      (compute v inbox step).outbox = v.outbox ++
        if v.state.fires inbox then
          v.edges.map (v.stamp (fill v.id (v.state.receive inbox) step))
        else [] := by
  cases hactive : v.state.active with
  | false => exact ⟨⟨v.state.stepsWithoutFill, by simp [compute, hactive, receive, Vertex.voteToHalt]⟩,
      by simp [compute, hactive, Vertex.voteToHalt], by simp [compute, hactive, Vertex.voteToHalt],
      by simp [compute, hactive, Vertex.voteToHalt, fires, receive]⟩
  | true =>
      have hreceive : v.state.receive inbox = (v.state.readInbox inbox).2 := by
        simp [receive, hactive]
      have hreturned := returned_eq hactive inbox
      rw [fires, hreceive]
      cases hafter : (v.state.readInbox inbox).2.active with
      | false =>
          simp only [hafter, Bool.not_false] at hreturned
          simp only [compute, hactive, hreturned, Vertex.voteToHalt, not_true, if_false, if_true,
            Bool.false_and, Bool.false_eq_true, List.append_nil, and_self, and_true]
          exact ⟨_, rfl⟩
      | true =>
          simp only [hafter, Bool.not_true] at hreturned
          cases hmarketable : (v.state.readInbox inbox).2.marketable with
          | false =>
              simp only [compute, hactive, hreturned, hmarketable, not_true, if_false,
                Bool.true_and, Bool.false_eq_true, List.append_nil]
              split
              · exact ⟨⟨_, rfl⟩, rfl, rfl, rfl⟩
              · exact ⟨⟨_, rfl⟩, rfl, rfl, rfl⟩
          | true =>
              simp only [compute, hactive, hreturned, hmarketable, not_true, if_false,
                Bool.true_and, Bool.false_eq_true, if_true, Vertex.sendAll_eq]
              exact ⟨⟨_, rfl⟩, trivial, trivial, rfl⟩

end Compute

/-! ### The life of an order -/

section Feed

variable {v : Vertex OrderVertex Message}

theorem fires_steps (o : OrderVertex) (inbox : List Message) (n : UInt32) :
    (o.withSteps n).fires inbox = o.fires inbox := by
  unfold fires
  rw [receive_steps]
  rfl

variable (v) in
/-- After any inputs, an order is what the concatenation of its inboxes makes of it. -/
theorem feed_state (inputs : List (List Message × Superstep)) : ∃ n,
    (v.feed compute inputs).2.state = (v.state.receive (Vertex.received inputs)).withSteps n := by
  induction inputs generalizing v with
  | nil =>
      refine ⟨v.state.stepsWithoutFill, ?_⟩
      cases hactive : v.state.active with
      | false => simp [Vertex.feed, receive_of_inactive hactive]
      | true => simp [Vertex.feed, receive, hactive, readInbox]
  | cons input inputs ih =>
      obtain ⟨inbox, step⟩ := input
      obtain ⟨⟨n, hstate⟩, -⟩ := compute_spec v inbox step
      obtain ⟨m, hstate'⟩ := ih (compute v inbox step).clearOutbox
      refine ⟨m, ?_⟩
      show ((compute v inbox step).clearOutbox.feed compute inputs).2.state = _
      rw [hstate', Vertex.received_cons, receive_append]
      show ((compute v inbox step).state.receive _).withSteps m = _
      rw [hstate, receive_steps, withSteps_withSteps]

theorem feed_spec (hv : v.outbox = []) (inputs : List (List Message × Superstep)) :
    (∃ n, (v.feed compute inputs).2.state =
        (v.state.receive (Vertex.received inputs)).withSteps n) ∧
      (v.feed compute inputs).2.id = v.id ∧ (v.feed compute inputs).2.edges = v.edges ∧
      (v.feed compute inputs).2.outbox = [] := by
  refine ⟨feed_state v inputs, ?_⟩
  induction inputs generalizing v with
  | nil => exact ⟨rfl, rfl, hv⟩
  | cons input inputs ih =>
      obtain ⟨inbox, step⟩ := input
      obtain ⟨-, hid, hedges, -⟩ := compute_spec v inbox step
      obtain ⟨hid', hedges', houtbox'⟩ := ih (v := (compute v inbox step).clearOutbox) rfl
      exact ⟨hid'.trans hid, hedges'.trans hedges, houtbox'⟩

/-- What an order sends in its next superstep. -/
theorem sent_next (hv : v.outbox = []) (inputs : List (List Message × Superstep))
    (inbox : List Message) (step : Superstep) :
    (compute (v.feed compute inputs).2 inbox step).outbox =
      if (v.state.receive (Vertex.received inputs ++ inbox)).active &&
          (v.state.receive (Vertex.received inputs ++ inbox)).marketable then
        v.edges.map (v.stamp (fill v.id (v.state.receive (Vertex.received inputs ++ inbox)) step))
      else [] := by
  obtain ⟨⟨n, hstate⟩, hid, hedges, houtbox⟩ := feed_spec hv inputs
  obtain ⟨-, -, -, hsent⟩ := compute_spec (v.feed compute inputs).2 inbox step
  have hstamp : (v.feed compute inputs).2.stamp = v.stamp := by
    funext m e
    simp [Vertex.stamp, hid]
  rw [hsent, houtbox, hstate, fires_steps, hedges, hid, receive_steps, List.nil_append, hstamp,
    receive_append]
  rfl

end Feed

/-! ### How much an order trades -/

/-- The quantity of a fill. -/
def fillQty (m : Message) : Nat :=
  match m.payload with
  | .orderFill _ qty _ => qty.toNat
  | _ => 0

/-- The quantities of all fills sent to `target`. -/
def traded (target : VertexId) (outs : List (List Message)) : Nat :=
  ((outs.flatten.filter fun m => m.dst = target).map fillQty).sum

/-- The quantities of the fills of an order with one edge. -/
def trades (o : OrderVertex) : List (List Message × Superstep) → Nat
  | [] => 0
  | (inbox, _) :: inputs =>
      (if o.fires inbox then ((o.receive inbox).quantity - (o.receive inbox).filledQty).toNat
        else 0) + trades (o.receive inbox) inputs

/-- The number of supersteps in which the order goes into the branch that sends fills. -/
def firings (o : OrderVertex) : List (List Message × Superstep) → Nat
  | [] => 0
  | (inbox, _) :: inputs => (o.fires inbox).toNat + firings (o.receive inbox) inputs

theorem trades_steps (o : OrderVertex) (inputs : List (List Message × Superstep)) (n : UInt32) :
    trades (o.withSteps n) inputs = trades o inputs := by
  induction inputs generalizing o with
  | nil => rfl
  | cons input inputs ih =>
      obtain ⟨inbox, step⟩ := input
      simp only [trades, fires_steps, receive_steps, withSteps_quantity, withSteps_filledQty, ih]

theorem traded_eq {v : Vertex OrderVertex Message} (hv : v.outbox = []) {e : Edge}
    (one : v.edges = [e]) (inputs : List (List Message × Superstep)) :
    traded e.dst (v.feed compute inputs).1 = trades v.state inputs := by
  induction inputs generalizing v with
  | nil => rfl
  | cons input inputs ih =>
      obtain ⟨inbox, step⟩ := input
      obtain ⟨⟨n, hstate⟩, -, hedges, houtbox⟩ := compute_spec v inbox step
      have hrest : traded e.dst ((compute v inbox step).clearOutbox.feed compute inputs).1 =
          trades (v.state.receive inbox) inputs := by
        rw [ih (v := (compute v inbox step).clearOutbox) rfl (hedges.trans one)]
        show trades (compute v inbox step).state inputs = _
        rw [hstate, trades_steps]
      have hsplit : traded e.dst (v.feed compute ((inbox, step) :: inputs)).1 =
          traded e.dst [(compute v inbox step).outbox] +
            traded e.dst ((compute v inbox step).clearOutbox.feed compute inputs).1 := by
        simp [traded, Vertex.feed]
      rw [hsplit, hrest, trades, houtbox, hv, one]
      congr 1
      split
      · simp [traded, Vertex.stamp, fill, Message.plain, fillQty]
      · rfl

section Trades

variable {o : OrderVertex}

theorem readInbox_filledQty {inbox : List Message}
    (hactive : (o.readInbox inbox).2.active = true) :
    (o.readInbox inbox).2.filledQty = o.filledQty ∨
      (o.readInbox inbox).2.filledQty < (o.readInbox inbox).2.quantity := by
  fun_induction readInbox o inbox with
  | case1 o => exact Or.inl rfl
  | case2 o _ _ _ _ _ _ _ ih => exact ih hactive
  | case3 => cases hactive
  | case4 o _ inbox _ _ _ _ filled hfull ih =>
      rcases ih hactive with hkept | hless
      · -- the last fill left something, as it did not end the order
        refine Or.inr ?_
        rw [hkept, (readInbox_frame _ inbox).2.1]
        exact UInt64.not_le.mp hfull
      · exact Or.inr hless
  | case5 => cases hactive
  | case6 o _ _ _ _ _ ih => exact ih hactive

/-- An order that is still active has got no fill, or has something left. The sum of the
fills may have wrapped around. -/
theorem receive_filledQty {inbox : List Message} (hactive : (o.receive inbox).active = true) :
    o.active = true ∧ ((o.receive inbox).filledQty = o.filledQty ∨
      (o.receive inbox).filledQty < (o.receive inbox).quantity) := by
  unfold receive at hactive ⊢
  split at hactive
  · rename_i hbefore
    rw [if_pos hbefore]
    exact ⟨hbefore, readInbox_filledQty hactive⟩
  · rename_i hbefore
    exact absurd hactive hbefore

/-- An order that was not overfilled is not, as long as it is active. -/
theorem receive_filledQty_le (h : o.active = true → o.filledQty ≤ o.quantity)
    {inbox : List Message} (hactive : (o.receive inbox).active = true) :
    (o.receive inbox).filledQty ≤ (o.receive inbox).quantity := by
  obtain ⟨hbefore, hkept | hless⟩ := receive_filledQty hactive
  · rw [hkept, (receive_frame o inbox).2.1]
    exact h hbefore
  · exact UInt64.le_of_lt hless

/-- Each firing trades at most the quantity of the order. -/
theorem trades_le (h : o.active = true → o.filledQty ≤ o.quantity)
    (inputs : List (List Message × Superstep)) :
    o.trades inputs ≤ o.firings inputs * o.quantity.toNat := by
  induction inputs generalizing o with
  | nil => exact Nat.zero_le _
  | cons input inputs ih =>
      obtain ⟨inbox, step⟩ := input
      have hquantity := (receive_frame o inbox).2.1
      have hrest := ih (o := o.receive inbox) (receive_filledQty_le h)
      rw [hquantity] at hrest
      simp only [trades, firings]
      cases hfires : o.fires inbox with
      | false => simpa using hrest
      | true =>
          have hactive : (o.receive inbox).active = true := by
            simp only [fires, Bool.and_eq_true] at hfires
            exact hfires.1
          have hfill : ((o.receive inbox).quantity - (o.receive inbox).filledQty).toNat ≤
              o.quantity.toNat := by
            rw [UInt64.toNat_sub_of_le _ _ (receive_filledQty_le h hactive), hquantity]
            exact Nat.sub_le _ _
          simp only [if_true, Bool.toNat_true, Nat.add_mul, Nat.one_mul]
          omega

/-- An order with nothing left in it whenever it is marketable. -/
theorem trades_eq_zero (h : ∀ ms, (o.receive ms).active = true → (o.receive ms).marketable = true →
      (o.receive ms).quantity = (o.receive ms).filledQty)
    (inputs : List (List Message × Superstep)) : o.trades inputs = 0 := by
  induction inputs generalizing o with
  | nil => rfl
  | cons input inputs ih =>
      obtain ⟨inbox, step⟩ := input
      have hrest : (o.receive inbox).trades inputs = 0 := by
        apply ih
        intro ms
        rw [← receive_append]
        exact h (inbox ++ ms)
      rw [trades, hrest, Nat.add_zero]
      split
      · rename_i hfires
        simp only [fires, Bool.and_eq_true] at hfires
        rw [h inbox hfires.1 hfires.2, UInt64.sub_self]
        rfl
      · rfl

/-- No price makes a bid with a limit below 1 marketable. -/
theorem not_marketable_of_bid (hside : o.side = .bid) (hlimit : o.limitPrice ≤ 0)
    (ms : List Message) : (o.receive ms).marketable = false := by
  obtain ⟨hprice, -, hsame⟩ := receive_frame o ms
  have hneg : ¬ (0 < (o.receive ms).bestMarketPrice ∧
      (o.receive ms).bestMarketPrice ≤ (o.receive ms).limitPrice) := by
    rw [hprice]
    omega
  rw [Bool.eq_false_iff]
  intro hmarketable
  simp only [marketable, hsame, hside, Bool.and_eq_true, decide_eq_true_eq] at hmarketable
  exact hneg (by simpa using hmarketable)

/-- An order over nothing is filled by any fill. -/
theorem filledQty_of_empty (hq : o.quantity = 0) (hf : o.filledQty = 0) {ms : List Message}
    (hactive : (o.receive ms).active = true) : (o.receive ms).filledQty = 0 := by
  have hle := receive_filledQty_le (o := o) (fun _ => by rw [hq, hf]; exact UInt64.le_refl _) hactive
  rw [(receive_frame o ms).2.1, hq] at hle
  exact UInt64.le_zero_iff.mp hle

/-- A quote with one price on both sides. -/
def quoteAt (price : Int) : Message := .plain 0 (.priceUpdate price price 0 0)

theorem receive_quoteAt (hactive : o.active = true) (price : Int) :
    o.receive [quoteAt price] = { o with bestMarketPrice := price } := by
  simp [receive, hactive, readInbox, quoteAt, Message.plain]

/-- An order that stays marketable trades what is left in it in every superstep. -/
theorem trades_replicate (hactive : o.active = true) {price : Int}
    (hmarketable : ({ o with bestMarketPrice := price } : OrderVertex).marketable = true) (k : Nat) :
    o.trades (List.replicate k ([quoteAt price], 0)) = k * (o.quantity - o.filledQty).toNat := by
  induction k generalizing o with
  | zero => simp [trades]
  | succ k ih =>
      have hrest := ih (o := { o with bestMarketPrice := price }) hactive hmarketable
      rw [List.replicate_succ, trades, fires, receive_quoteAt hactive, hrest, hmarketable]
      simp only [hactive, Bool.and_self, if_true]
      rw [Nat.succ_mul, Nat.add_comm]

theorem receive_fill_quoteAt (hactive : o.active = true) {qty : UInt64}
    (hless : ¬ o.filledQty + qty ≥ o.quantity) (price : Int) :
    o.receive [.plain 0 (.orderFill 0 qty 0), quoteAt price] =
      { o with filledQty := o.filledQty + qty, bestMarketPrice := price } := by
  simp [receive, hactive, readInbox, quoteAt, Message.plain, hless]

/-- Filled quantities wrap around. -/
theorem exists_wrapping {q : UInt64} (hpos : q ≠ 0) : ∃ qty : UInt64, q + qty < q := by
  have hne : q.toNat ≠ 0 := fun h => hpos (UInt64.toNat_inj.mp h)
  have hlt := q.toNat_lt
  refine ⟨UInt64.ofNat (2 ^ 64 - 1), ?_⟩
  rw [UInt64.lt_iff_toNat_lt, UInt64.toNat_add, UInt64.toNat_ofNat']
  omega

theorem toNat_sub_pos {a b : UInt64} (hne : a ≠ b) : 0 < (a - b).toNat := by
  have ha := a.toNat_lt
  have hb := b.toNat_lt
  have hne : a.toNat ≠ b.toNat := fun h => hne (UInt64.toNat_inj.mp h)
  rw [UInt64.toNat_sub]
  omega

/-- A price at which the order is marketable, if there is one. -/
def crossingPrice (st : State) : Int :=
  match st.side with
  | .bid => st.limitPrice
  | .ask => max st.limitPrice 1

theorem marketable_crossingPrice (h : ¬ (o.side = .bid ∧ o.limitPrice ≤ 0)) :
    ({ o with bestMarketPrice := crossingPrice o.toState } : OrderVertex).marketable = true := by
  cases hside : o.side with
  | bid =>
      have hpos : 0 < o.limitPrice := by
        by_contra hle
        exact h ⟨hside, by omega⟩
      simp [marketable, crossingPrice, hside, hpos]
  | ask =>
      simp only [marketable, crossingPrice, hside, Bool.and_eq_true, Bool.or_eq_true,
        decide_eq_true_eq]
      exact ⟨by omega, Or.inr ⟨trivial, by omega⟩⟩

/-- An active order that can be marketable, over more than nothing, trades more than its
quantity in some life. -/
theorem exists_overtrading (hactive : o.active = true)
    (hprice : ¬ (o.side = .bid ∧ o.limitPrice ≤ 0))
    (hempty : ¬ (o.quantity = 0 ∧ o.filledQty = 0)) :
    ∃ inputs, o.quantity.toNat < o.trades inputs := by
  -- with anything left in it, the order trades it again and again
  have hagain : ∀ o' : OrderVertex, o'.active = true →
      ({ o' with bestMarketPrice := crossingPrice o.toState } : OrderVertex).marketable = true →
      o'.quantity = o.quantity → o'.quantity ≠ o'.filledQty →
      o.quantity.toNat < o'.trades
        (List.replicate (o.quantity.toNat + 1) ([quoteAt (crossingPrice o.toState)], 0)) := by
    intro o' hactive' hmarketable hquantity hne
    rw [trades_replicate hactive' hmarketable]
    exact Nat.lt_of_lt_of_le (Nat.lt_succ_self _) (Nat.le_mul_of_pos_right _ (toNat_sub_pos hne))
  by_cases hne : o.quantity = o.filledQty
  · -- a fill that wraps around leaves something
    have hpos : o.filledQty ≠ 0 := fun hzero => hempty ⟨hne.trans hzero, hzero⟩
    obtain ⟨qty, hless⟩ := exists_wrapping hpos
    have hbelow : o.filledQty + qty < o.quantity := hne.symm ▸ hless
    refine ⟨([.plain 0 (.orderFill 0 qty 0), quoteAt (crossingPrice o.toState)], 0) ::
      List.replicate (o.quantity.toNat + 1) ([quoteAt (crossingPrice o.toState)], 0), ?_⟩
    rw [trades, receive_fill_quoteAt hactive (UInt64.not_le.mpr hbelow)]
    have hrest := hagain
      { o with filledQty := o.filledQty + qty, bestMarketPrice := crossingPrice o.toState } hactive
      (marketable_crossingPrice hprice) rfl (UInt64.ne_of_lt hbelow).symm
    omega
  · exact ⟨_, hagain o hactive (marketable_crossingPrice hprice) rfl hne⟩

end Trades

/-- A new order with these edges. -/
def placed (id : VertexId) (owner : WorkerId) (st : State) (edges : List Edge) :
    Vertex OrderVertex Message :=
  { new id owner st with edges := edges }

/-- **When an order trades at most its size.** For an order with one edge, in every life,
if and only if the order is inactive from the start, or a bid with a limit below 1, or an
order over nothing. Any other order that was not overfilled keeps to its size in every
life in which it goes into the branch that sends fills at most once. -/
theorem order_trades_at_most_its_size (id : VertexId) (owner : WorkerId) (st : State) (e : Edge) :
    ((∀ inputs, traded e.dst ((placed id owner st [e]).feed compute inputs).1 ≤ st.quantity.toNat) ↔
        st.active = false ∨ (st.side = .bid ∧ st.limitPrice ≤ 0) ∨
          (st.quantity = 0 ∧ st.filledQty = 0)) ∧
      ∀ inputs, st.filledQty ≤ st.quantity → (placed id owner st [e]).state.firings inputs ≤ 1 →
        traded e.dst ((placed id owner st [e]).feed compute inputs).1 ≤ st.quantity.toNat := by
  have htraded : ∀ inputs, traded e.dst ((placed id owner st [e]).feed compute inputs).1 =
      ({ toState := st } : OrderVertex).trades inputs := fun inputs => traded_eq rfl rfl inputs
  simp only [htraded]
  refine ⟨⟨fun hall => ?_, fun hcond inputs => ?_⟩, fun inputs hle honce => ?_⟩
  · by_contra hcond
    simp only [not_or] at hcond
    obtain ⟨hactive, hprice, hempty⟩ := hcond
    obtain ⟨inputs, hover⟩ := exists_overtrading (o := { toState := st })
      (Bool.not_eq_false _ ▸ hactive) hprice hempty
    exact absurd (hall inputs) (Nat.not_le.mpr hover)
  · have hzero : ({ toState := st } : OrderVertex).trades inputs = 0 := by
      apply trades_eq_zero
      intro ms hactive hmarketable
      rcases hcond with hinactive | ⟨hside, hlimit⟩ | ⟨hq, hf⟩
      · rw [receive_of_inactive (o := { toState := st }) hinactive] at hactive
        exact absurd hactive (by simp [hinactive])
      · rw [not_marketable_of_bid (o := { toState := st }) hside hlimit] at hmarketable
        cases hmarketable
      · rw [filledQty_of_empty (o := { toState := st }) hq hf hactive, (receive_frame _ ms).2.1]
        exact hq
    rw [hzero]
    exact Nat.zero_le _
  · have honce : ({ toState := st } : OrderVertex).firings inputs ≤ 1 := honce
    calc ({ toState := st } : OrderVertex).trades inputs
        ≤ ({ toState := st } : OrderVertex).firings inputs * st.quantity.toNat :=
          trades_le (o := { toState := st }) (fun _ => hle) inputs
      _ ≤ 1 * st.quantity.toNat := Nat.mul_le_mul_right _ honce
      _ = st.quantity.toNat := Nat.one_mul _

/-- A bid for 10 at a limit of 100, and a quote of 90 to 110: the order fills its 10 in
each of two supersteps. -/
theorem order_trades_twice_its_size :
    let bid : State := ⟨100, 10, 0, .bid, true, 0, 0, 0⟩
    let inputs : List (List Message × Superstep) :=
      [([⟨1, 7, 0, .priceUpdate 90 110 5 5⟩], 1), ([], 2)]
    traded 1 ((placed 7 0 bid [⟨1, 1, 0⟩]).feed compute inputs).1 = 20 ∧
      ¬ ∀ inputs, traded 1 ((placed 7 0 bid [⟨1, 1, 0⟩]).feed compute inputs).1 ≤ 10 := by
  intro bid inputs
  have htwice : traded 1 ((placed 7 0 bid [⟨1, 1, 0⟩]).feed compute inputs).1 = 20 := by
    decide +kernel
  refine ⟨htwice, fun hall => ?_⟩
  have hle := hall inputs
  rw [htwice] at hle
  omega

/-! ### Which orders fill -/

/-- Bid and ask of a PRICE_UPDATE. -/
def quote (m : Message) : Option (Int × Int) :=
  match m.payload with
  | .priceUpdate bid ask _ _ => some (bid, ask)
  | _ => none

/-- The most recent PRICE_UPDATE among these messages. -/
def lastQuote (ms : List Message) : Option (Int × Int) := (ms.filterMap quote).getLast?

/-- These messages contain no CANCEL_ACK, and no fill that brings the filled quantity to
`quantity`. -/
def staysOpen (quantity : UInt64) : UInt64 → List Message → Bool
  | _, [] => true
  | filled, m :: ms =>
      match m.payload with
      | .orderFill _ qty _ => filled + qty < quantity && staysOpen quantity (filled + qty) ms
      | .cancelAck => false
      | _ => staysOpen quantity filled ms

/-- The price of a quote that the code compares with the limit. -/
def priceFor (side : Side) (q : Int × Int) : Int := if side = .bid then q.1 else q.2

section Quotes

variable {o : OrderVertex}

theorem readInbox_active (hactive : o.active = true) (ms : List Message) :
    (o.readInbox ms).2.active = staysOpen o.quantity o.filledQty ms := by
  fun_induction readInbox o ms with
  | case1 o => simp [staysOpen, hactive]
  | case2 o msg inbox bid ask bq aq hmsg ih =>
      rw [ih hactive]
      simp [staysOpen, hmsg]
  | case3 o msg inbox price qty trade hmsg filled hfull =>
      have hfull : ¬ o.filledQty + qty < o.quantity := UInt64.not_lt.mpr hfull
      simp [staysOpen, hmsg, hfull]
  | case4 o msg inbox price qty trade hmsg filled hfull ih =>
      have hless : o.filledQty + qty < o.quantity := UInt64.not_le.mp hfull
      rw [ih hactive]
      simp [staysOpen, hmsg, hless, filled]
  | case5 o msg inbox hmsg => simp [staysOpen, hmsg]
  | case6 o msg inbox h₁ h₂ h₃ ih =>
      rw [ih hactive]
      cases hmsg : msg.payload with
      | priceUpdate bid ask bq aq => exact absurd hmsg (h₁ bid ask bq aq)
      | orderFill price qty trade => exact absurd hmsg (h₂ price qty trade)
      | cancelAck => exact absurd hmsg h₃
      | _ => simp [staysOpen, hmsg]

theorem lastQuote_cons (m : Message) (ms : List Message) :
    lastQuote (m :: ms) = (lastQuote ms).or (quote m) := by
  unfold lastQuote
  cases hm : quote m with
  | none => simp [hm]
  | some q =>
      rw [List.filterMap_cons, hm, List.getLast?_cons]
      cases (ms.filterMap quote).getLast? <;> rfl

/-- An active order remembers one side of the most recent quote. -/
theorem readInbox_bestMarketPrice {ms : List Message}
    (hafter : (o.readInbox ms).2.active = true) :
    (o.readInbox ms).2.bestMarketPrice =
      ((lastQuote ms).map (priceFor o.side)).getD o.bestMarketPrice := by
  fun_induction readInbox o ms with
  | case1 o => rfl
  | case2 o msg inbox bid ask bq aq hmsg ih =>
      have hquote : quote msg = some (bid, ask) := by simp [quote, hmsg]
      rw [ih hafter, lastQuote_cons, hquote]
      cases lastQuote inbox <;> rfl
  | case3 => cases hafter
  | case4 o msg inbox price qty trade hmsg filled hfull ih =>
      have hquote : quote msg = none := by simp [quote, hmsg]
      rw [ih hafter, lastQuote_cons, hquote, Option.or_none]
  | case5 => cases hafter
  | case6 o msg inbox h₁ h₂ h₃ ih =>
      have hquote : quote msg = none := by
        unfold quote
        split
        · rename_i bid ask bq aq hmsg
          exact absurd hmsg (h₁ bid ask bq aq)
        · rfl
      rw [ih hafter, lastQuote_cons, hquote, Option.or_none]

end Quotes

/-- The order is marketable: for a bid the asked price, for an ask the price bid is
positive and within the limit. -/
def Crosses (st : State) (q : Int × Int) : Prop :=
  match st.side with
  | .bid => 0 < q.2 ∧ q.2 ≤ st.limitPrice
  | .ask => 0 < q.1 ∧ st.limitPrice ≤ q.1

/-- The test of the code: for a bid the price bid, for an ask the asked price is positive
and within the limit. -/
def Passes (st : State) (q : Int × Int) : Prop :=
  match st.side with
  | .bid => 0 < q.1 ∧ q.1 ≤ st.limitPrice
  | .ask => 0 < q.2 ∧ st.limitPrice ≤ q.2

/-- In every superstep of this life in which the order sends a fill, the most recent quote
crosses its limit. -/
def OnlyMarketable (id : VertexId) (owner : WorkerId) (st : State) (edges : List Edge)
    (inputs : List (List Message × Superstep)) : Prop :=
  ∀ before inbox step after, inputs = before ++ (inbox, step) :: after →
    (∃ m ∈ (compute ((placed id owner st edges).feed compute before).2 inbox step).outbox,
      m.type = .orderFill) →
    ∃ q, lastQuote (Vertex.received before ++ inbox) = some q ∧ Crosses st q

theorem marketable_iff (o : OrderVertex) : o.marketable = true ↔
    0 < o.bestMarketPrice ∧ match o.side with
      | .bid => o.bestMarketPrice ≤ o.limitPrice
      | .ask => o.limitPrice ≤ o.bestMarketPrice := by
  cases hside : o.side <;> simp [marketable, hside]

/-- A new order that has read `ms` and is active is marketable by the test of the code on
the most recent quote. -/
theorem readInbox_marketable (st : State) (ms : List Message)
    (hafter : (({ toState := st } : OrderVertex).readInbox ms).2.active = true) :
    (({ toState := st } : OrderVertex).readInbox ms).2.marketable = true ↔
      ∃ q, lastQuote ms = some q ∧ Passes st q := by
  obtain ⟨hlimit, -, hside⟩ := readInbox_frame { toState := st } ms
  have hprice := readInbox_bestMarketPrice hafter
  rw [marketable_iff, hprice, hlimit, hside]
  cases hquote : lastQuote ms with
  | none => simp
  | some q => cases hst : st.side <;> simp [Passes, priceFor, hst]

theorem receive_active_iff (st : State) (ms : List Message) :
    (({ toState := st } : OrderVertex).receive ms).active = true ↔
      st.active = true ∧ staysOpen st.quantity st.filledQty ms = true := by
  cases hactive : st.active with
  | false =>
      rw [receive_of_inactive (o := { toState := st }) hactive]
      simp [hactive]
  | true =>
      have hread := readInbox_active (o := { toState := st }) hactive ms
      simp [receive, hactive, hread]

/-- A new order sends a fill if and only if it has an edge, is still open and the most
recent quote passes the test of the code. -/
theorem sends_fill_iff (id : VertexId) (owner : WorkerId) (st : State) (edges : List Edge)
    (before : List (List Message × Superstep)) (inbox : List Message) (step : Superstep) :
    (∃ m ∈ (compute ((placed id owner st edges).feed compute before).2 inbox step).outbox,
        m.type = .orderFill) ↔
      edges ≠ [] ∧ (st.active = true ∧
        staysOpen st.quantity st.filledQty (Vertex.received before ++ inbox) = true) ∧
        ∃ q, lastQuote (Vertex.received before ++ inbox) = some q ∧ Passes st q := by
  rw [sent_next (v := placed id owner st edges) rfl before inbox step]
  set ms := Vertex.received before ++ inbox
  show (∃ m ∈ (if (({ toState := st } : OrderVertex).receive ms).active &&
    (({ toState := st } : OrderVertex).receive ms).marketable then _ else []), _) ↔ _
  rw [← receive_active_iff]
  by_cases hafter : (({ toState := st } : OrderVertex).receive ms).active = true
  · have hactive := ((receive_active_iff st ms).mp hafter).1
    have hreceive : ({ toState := st } : OrderVertex).receive ms =
        (({ toState := st } : OrderVertex).readInbox ms).2 := by simp [receive, hactive]
    have hmarketable := readInbox_marketable st ms (hreceive ▸ hafter)
    rw [← hmarketable, ← hreceive]
    by_cases hm : (({ toState := st } : OrderVertex).receive ms).marketable = true
    · simp only [hafter, hm, Bool.and_self, if_true, and_true]
      constructor
      · rintro ⟨m, hmem, -⟩ hnil
        simp [placed, hnil] at hmem
      · intro hedges
        obtain ⟨e, hmem⟩ := List.exists_mem_of_ne_nil _ hedges
        exact ⟨_, List.mem_map.mpr ⟨e, hmem, rfl⟩, rfl⟩
    · simp [hm]
  · simp [hafter]

/-- **Which orders fill.** In a life of an order every fill answers a quote that crosses
its limit, if and only if whenever the order has an edge, is still open and has as its
most recent quote one that passes the test of the code, this quote crosses the limit too.
A bid tests the price bid and an ask the asked one, so that a quote whose spread contains
the limit passes and does not cross. -/
theorem only_marketable_orders_fill (id : VertexId) (owner : WorkerId) (st : State)
    (edges : List Edge) (inputs : List (List Message × Superstep)) :
    OnlyMarketable id owner st edges inputs ↔
      ∀ before inbox step after, inputs = before ++ (inbox, step) :: after →
        edges ≠ [] → st.active = true →
        staysOpen st.quantity st.filledQty (Vertex.received before ++ inbox) = true →
        ∀ q, lastQuote (Vertex.received before ++ inbox) = some q → Passes st q → Crosses st q := by
  unfold OnlyMarketable
  simp only [sends_fill_iff]
  constructor
  · intro h before inbox step after heq hedges hactive hopen q hquote hpasses
    obtain ⟨q', hquote', hcrosses⟩ :=
      h before inbox step after heq ⟨hedges, ⟨hactive, hopen⟩, q, hquote, hpasses⟩
    obtain rfl : q = q' := Option.some.inj (hquote.symm.trans hquote')
    exact hcrosses
  · rintro h before inbox step after heq ⟨hedges, ⟨hactive, hopen⟩, q, hquote, hpasses⟩
    exact ⟨q, hquote, h before inbox step after heq hedges hactive hopen q hquote hpasses⟩

/-- A quote of 90 to 110: the bid at 100 fills, though nobody sells below 110. -/
theorem unmarketable_order_fills :
    let bid : State := ⟨100, 10, 0, .bid, true, 0, 0, 0⟩
    ¬ OnlyMarketable 7 0 bid [⟨1, 1, 0⟩] [([⟨1, 7, 0, .priceUpdate 90 110 5 5⟩], 1)] := by
  intro bid h
  obtain ⟨q, hquote, -, hcrosses⟩ := h [] [⟨1, 7, 0, .priceUpdate 90 110 5 5⟩] 1 [] rfl
    ⟨⟨7, 1, 1, .orderFill 100 10 4294967303⟩, by decide +kernel, rfl⟩
  have hq : q = (90, 110) := Option.some.inj (hquote.symm.trans rfl)
  rw [hq] at hcrosses
  exact absurd hcrosses (by decide)

end OrderVertex

end Pregel
