import Mathlib.Algebra.Group.Int.Defs
import Mathlib.Data.List.Induction
import Pregel.OrderBook.Basic

/-!
`MarketMakerVertex` (`order_book_graph.hpp`, `order_book_graph.cpp`).

A market maker keeps one bid and one ask, those of the last quote that had one. Both come
from the same quote whenever the quote is two-sided, and the bid of one venue is then never
compared with the ask of another.

* `readInbox_last`: the two prices after an inbox with two-sided quotes.
* `silent_of_quotes`: after such an inbox a market maker sends nothing.
* `arbitrage_never_missed_iff`: the arbitrage between two venues is seen if and only if
  there is none.
-/

namespace Pregel

/-- `MarketMakerVertex::State`. The limit is a floating-point number in the source; the
code stores whole numbers in it. -/
structure MarketMakerVertex.State where
  mmId : Nat
  netPosition : Int := 0
  pnlFixed : Int := 0
  fillCount : UInt64 := 0
  arbSignalsSent : UInt64 := 0
  inventoryLimit : Int := 1000000
  deriving DecidableEq, Repr

/-- `MarketMakerVertex`: the fields of the derived class. -/
structure MarketMakerVertex extends MarketMakerVertex.State where
  lastKnownBid : Int := 0
  lastKnownAsk : Int := 0
  deriving DecidableEq, Repr

namespace MarketMakerVertex

/-- `MarketMakerVertex::MarketMakerVertex`. -/
def new (id : VertexId) (owner : WorkerId) (state : State) : Vertex MarketMakerVertex Message where
  id := id
  type := .marketMaker
  owner := owner
  state := { toState := state }

/-- One round of the loop of `compute` over the inbox. The quantity of a fill is cast to
a signed integer. -/
def readMessage (m : MarketMakerVertex) (msg : Message) : MarketMakerVertex :=
  match msg.payload with
  | .orderFill price qty _ =>
      let deltaQty := qty.toInt64.toInt
      { m with
        netPosition := m.netPosition + deltaQty
        fillCount := m.fillCount + 1
        pnlFixed := m.pnlFixed - price * deltaQty }
  | .priceUpdate bid ask _ _ =>
      { m with
        lastKnownBid := if bid > 0 then bid else m.lastKnownBid
        lastKnownAsk := if ask > 0 then ask else m.lastKnownAsk }
  | _ => m

/-- The loop of `compute` over the inbox. -/
def readInbox (m : MarketMakerVertex) (inbox : List Message) : MarketMakerVertex :=
  inbox.foldl readMessage m

/-- The spread of two prices in basis points of their midpoint, rounded towards zero. -/
def bps (bid ask : Int) : Int :=
  let mid := (bid + ask).tdiv 2
  if mid > 0 then ((bid - ask) * 10000).tdiv mid else 0

/-- The arbitrage signal that `compute` sends, if it sends one. -/
def signal (m : MarketMakerVertex) : Option Int :=
  if m.lastKnownBid > 0 ∧ m.lastKnownAsk > 0 ∧ m.lastKnownBid - m.lastKnownAsk > 0 ∧
      bps m.lastKnownBid m.lastKnownAsk ≥ arbThresholdBps then
    some (bps m.lastKnownBid m.lastKnownAsk)
  else none

/-- The part of `compute` that looks for arbitrage. -/
def sendSignal (v : Vertex MarketMakerVertex Message) (step : Superstep) :
    Vertex MarketMakerVertex Message :=
  match v.state.signal with
  | none => v
  | some spread =>
      { v with state := { v.state with arbSignalsSent := v.state.arbSignalsSent + 1 } }.sendAll
        v.edges (.plain step (.arbitrageSignal spread 0 1))

/-- `MarketMakerVertex::compute`. -/
def compute : Compute MarketMakerVertex Message := fun v inbox step =>
  let v := sendSignal { v with state := v.state.readInbox inbox } step
  if (v.state.netPosition.natAbs : Int) > v.state.inventoryLimit then v.voteToHalt
  else if inbox.isEmpty ∧ v.outbox.isEmpty then v.voteToHalt
  else v

/-! ### What a call of `compute` sends -/

/-- The messages that a call of `compute` adds to the outbox. -/
def sent (v : Vertex MarketMakerVertex Message) (inbox : List Message) (step : Superstep) :
    List Message :=
  (compute v inbox step).outbox.drop v.outbox.length

/-- The signals that a market maker with these prices sends. -/
theorem compute_outbox (v : Vertex MarketMakerVertex Message) (inbox : List Message)
    (step : Superstep) :
    (compute v inbox step).outbox = v.outbox ++
      match (v.state.readInbox inbox).signal with
      | none => []
      | some spread => v.edges.map (v.stamp (.plain step (.arbitrageSignal spread 0 1))) := by
  have hsend : (sendSignal { v with state := v.state.readInbox inbox } step).outbox = v.outbox ++
      match (v.state.readInbox inbox).signal with
      | none => []
      | some spread => v.edges.map (v.stamp (.plain step (.arbitrageSignal spread 0 1))) := by
    unfold sendSignal
    cases hsignal : (v.state.readInbox inbox).signal with
    | none => simp
    | some spread => simp [Vertex.sendAll_eq, Vertex.stamp]
  unfold compute
  dsimp only
  split
  · exact hsend
  · split
    · exact hsend
    · exact hsend

theorem sendSignal_frame (v : Vertex MarketMakerVertex Message) (step : Superstep) :
    v.SameFrame (sendSignal v step) := by
  unfold sendSignal
  split
  · exact .refl v
  · refine .trans ?_ (Vertex.sendAll_frame _ _ _)
    exact ⟨rfl, rfl, rfl, rfl⟩

theorem compute_frame (v : Vertex MarketMakerVertex Message) (inbox : List Message)
    (step : Superstep) : v.SameFrame (compute v inbox step) := by
  have hsend := sendSignal_frame { v with state := v.state.readInbox inbox } step
  have hframe : v.SameFrame (sendSignal { v with state := v.state.readInbox inbox } step) :=
    ⟨hsend.id, hsend.type, hsend.owner, hsend.edges⟩
  unfold compute
  dsimp only
  split
  · exact hframe.trans ⟨rfl, rfl, rfl, rfl⟩
  · split
    · exact hframe.trans ⟨rfl, rfl, rfl, rfl⟩
    · exact hframe

/-- A market maker that sends no signal only reads its inbox. -/
theorem compute_state_of_silent {v : Vertex MarketMakerVertex Message} {inbox : List Message}
    (silent : (v.state.readInbox inbox).signal = none) (step : Superstep) :
    (compute v inbox step).state = v.state.readInbox inbox := by
  have hsend : (sendSignal { v with state := v.state.readInbox inbox } step).state =
      v.state.readInbox inbox := by
    simp [sendSignal, silent]
  unfold compute
  dsimp only
  split
  · exact hsend
  · split
    · exact hsend
    · exact hsend

/-! ### Quotes -/

/-- Venue, bid and ask of a PRICE_UPDATE. -/
def quote (m : Message) : Option (VertexId × Int × Int) :=
  match m.payload with
  | .priceUpdate bid ask _ _ => some (m.src, bid, ask)
  | _ => none

def quotes (inbox : List Message) : List (VertexId × Int × Int) := inbox.filterMap quote

/-- A quote whose ask is above its bid. -/
def IsQuote (m : Message) : Prop :=
  ∃ bid ask bidQty askQty, m.payload = .priceUpdate bid ask bidQty askQty ∧ 0 < bid ∧ bid < ask

/-- A market maker that never traded and sees no arbitrage. -/
structure Calm (m : MarketMakerVertex) : Prop where
  netPosition : m.netPosition = 0
  pnlFixed : m.pnlFixed = 0
  fillCount : m.fillCount = 0
  arbSignalsSent : m.arbSignalsSent = 0
  uncrossed : m.lastKnownBid ≤ m.lastKnownAsk

theorem Calm.signal {m : MarketMakerVertex} (h : m.Calm) : m.signal = none := by
  have huncrossed := h.uncrossed
  unfold MarketMakerVertex.signal
  rw [if_neg]
  rintro ⟨-, -, hspread, -⟩
  omega

/-- Quotes leave a market maker calm. -/
theorem Calm.readInbox {m : MarketMakerVertex} (h : m.Calm) {inbox : List Message}
    (quotes : ∀ msg ∈ inbox, IsQuote msg) : (m.readInbox inbox).Calm := by
  unfold MarketMakerVertex.readInbox
  induction inbox generalizing m with
  | nil => exact h
  | cons msg inbox ih =>
      obtain ⟨bid, ask, bq, aq, hmsg, hbid, hask⟩ := quotes msg List.mem_cons_self
      refine ih ?_ fun x hx => quotes x (List.mem_cons_of_mem msg hx)
      have hask' : ask > 0 := Int.lt_trans hbid hask
      refine ⟨?_, ?_, ?_, ?_, ?_⟩
      · simpa [readMessage, hmsg] using h.netPosition
      · simpa [readMessage, hmsg] using h.pnlFixed
      · simpa [readMessage, hmsg] using h.fillCount
      · simpa [readMessage, hmsg] using h.arbSignalsSent
      · simpa [readMessage, hmsg, hbid, hask'] using Int.le_of_lt hask

/-- The quotes of an inbox are two-sided, below 2 ^ 40 and from distinct venues. -/
structure Quoted (inbox : List Message) : Prop where
  twoSided : ∀ q ∈ quotes inbox, 0 < q.2.1 ∧ q.2.1 < q.2.2
  bounded : ∀ q ∈ quotes inbox, q.2.1 < 2 ^ 40 ∧ q.2.2 < 2 ^ 40
  distinct : ((quotes inbox).map Prod.fst).Nodup

/-- The bid of one venue exceeds the ask of another by five basis points of their
midpoint. -/
def Crossed (inbox : List Message) : Prop :=
  ∃ a ∈ quotes inbox, ∃ b ∈ quotes inbox, a.1 ≠ b.1 ∧ a.2.1 > b.2.2 ∧
    ((a.2.1 - b.2.2) * 10000).tdiv ((a.2.1 + b.2.2).tdiv 2) ≥ 5

/-- `compute` sends an ARBITRAGE_SIGNAL over every edge. -/
def SignalsAll (v : Vertex MarketMakerVertex Message) (inbox : List Message) (step : Superstep) :
    Prop :=
  ∀ e ∈ v.edges, ∃ m ∈ sent v inbox step, m.dst = e.dst ∧ m.type = .arbitrageSignal

/-- After a two-sided quote the remembered bid is below the remembered ask, whatever came
before and whatever else comes after. -/
theorem readInbox_last {inbox : List Message}
    (twoSided : ∀ q ∈ quotes inbox, 0 < q.2.1 ∧ q.2.1 < q.2.2) (some : quotes inbox ≠ [])
    (m : MarketMakerVertex) :
    (m.readInbox inbox).lastKnownBid < (m.readInbox inbox).lastKnownAsk := by
  induction inbox using List.reverseRecOn with
  | nil => exact absurd rfl some
  | append_singleton inbox msg ih =>
      have hquotes : quotes (inbox ++ [msg]) = quotes inbox ++ (quote msg).toList := by
        cases hq : quote msg <;> simp [quotes, hq]
      rw [hquotes] at twoSided some
      have hread : m.readInbox (inbox ++ [msg]) = (m.readInbox inbox).readMessage msg := by
        simp [readInbox]
      rw [hread]
      cases hmsg : msg.payload with
      | priceUpdate bid ask bq aq =>
          have hq : quote msg = Option.some (msg.src, bid, ask) := by simp [quote, hmsg]
          obtain ⟨hbid, hask⟩ := twoSided (msg.src, bid, ask) (by simp [hq])
          have hask' : ask > 0 := Int.lt_trans hbid hask
          simpa [readMessage, hmsg, hbid, hask'] using hask
      | _ =>
          have hq : quote msg = none := by simp [quote, hmsg]
          rw [hq] at twoSided some
          have hlast := ih (by simpa using twoSided) (by simpa using some)
          simpa [readMessage, hmsg] using hlast

/-- **After any two-sided quote a market maker sends nothing.** -/
theorem silent_of_quotes {inbox : List Message}
    (twoSided : ∀ q ∈ quotes inbox, 0 < q.2.1 ∧ q.2.1 < q.2.2) (some : quotes inbox ≠ [])
    (v : Vertex MarketMakerVertex Message) (step : Superstep) : sent v inbox step = [] := by
  have hlast := readInbox_last twoSided some v.state
  have hsignal : (v.state.readInbox inbox).signal = none := by
    unfold signal
    rw [if_neg]
    rintro ⟨-, -, hspread, -⟩
    omega
  simp [sent, compute_outbox, hsignal]

/-- **The arbitrage between two venues is seen if and only if there is none.** Whatever the
market maker remembers and in whichever order the quotes arrive: as soon as two venues
cross, no signal is sent. -/
theorem arbitrage_never_missed_iff {v : Vertex MarketMakerVertex Message} (edges : v.edges ≠ [])
    {inbox : List Message} (quoted : Quoted inbox) (step : Superstep) :
    (Crossed inbox → SignalsAll v inbox step) ↔ ¬ Crossed inbox := by
  refine ⟨fun h crossed => ?_, fun h crossed => absurd crossed h⟩
  obtain ⟨e, he⟩ := List.exists_mem_of_ne_nil _ edges
  obtain ⟨m, hm, -⟩ := h crossed e he
  obtain ⟨a, ha, -⟩ := crossed
  rw [silent_of_quotes quoted.twoSided (List.ne_nil_of_mem ha)] at hm
  cases hm

/-- Venue 0 quotes 100 to 101 and venue 1 quotes 110 to 111. -/
def crossedInbox : List Message :=
  [⟨1, 7, 0, .priceUpdate 110 111 5 5⟩, ⟨0, 7, 0, .priceUpdate 100 101 5 5⟩]

theorem crossed_crossedInbox : Crossed crossedInbox :=
  ⟨(1, 110, 111), by decide, (0, 100, 101), by decide, by decide, by decide, by decide⟩

/-- The order of the two quotes makes no difference. -/
theorem arbitrage_never_missed_iff_two :
    let v : Vertex MarketMakerVertex Message := { new 7 0 { mmId := 0 } with edges := [⟨0, 1, 0⟩] }
    ¬ (Crossed crossedInbox.reverse → SignalsAll v crossedInbox.reverse 3) := by
  intro v h
  apply (arbitrage_never_missed_iff (v := v) (by decide) ⟨by decide, by decide, by decide⟩ 3).mp h
  exact ⟨(1, 110, 111), by decide, (0, 100, 101), by decide, by decide, by decide, by decide⟩

/-- The market maker sees a bid of 110 and an ask of 101, and sends nothing. -/
theorem arbitrage_missed :
    let v : Vertex MarketMakerVertex Message := { new 7 0 { mmId := 0 } with edges := [⟨0, 1, 0⟩] }
    Quoted crossedInbox ∧ Crossed crossedInbox ∧ (compute v crossedInbox 3).outbox = [] ∧
      ¬ SignalsAll v crossedInbox 3 := by
  intro v
  have hnone : (compute v crossedInbox 3).outbox = [] := by decide +kernel
  refine ⟨⟨by decide, by decide, by decide⟩, crossed_crossedInbox, hnone, fun h => ?_⟩
  obtain ⟨m, hm, -⟩ := h ⟨0, 1, 0⟩ (by simp [v])
  rw [sent, hnone] at hm
  cases hm

end MarketMakerVertex

end Pregel
