import Mathlib.Data.Stream.Init
import Mathlib.Data.UInt
import Pregel.Lib.Record
import Pregel.OrderBook.Basic

/-!
`VenueVertex` (`order_book_graph.hpp`, `order_book_graph.cpp`).

A venue folds the reports of its price levels into its best prices, moves the midpoint by
a random amount and quotes both sides around it over every edge.

The random generator is the stream of whole amounts by which it moves the midpoint. The
field `latency_us` is written and never read, and is left out.

* `compute_frame`: `compute` leaves alone what the graph is made of.
* `compute_outbox`: a venue sends one quote, and the ask is above the bid.
* `foldl_readMessage_bid`, `foldl_readMessage_ask`: the prices and sizes after an inbox. The
  bids add up; of the asks only those count that were, when they came, the lowest so far.
* `venue_order_independent_iff`: when the order of an inbox makes no difference.
-/

namespace Pregel

/-- `VenueVertex::State`. -/
structure VenueVertex.State where
  venueId : Nat
  name : String
  bestBid : Int := 0
  bestAsk : Int := 0
  bidSize : UInt64 := 0
  askSize : UInt64 := 0
  isPrimary : Bool := false

/-- `VenueVertex`: the fields of the derived class. -/
structure VenueVertex extends VenueVertex.State where
  tick : UInt32 := 0
  rng : Stream' Int

namespace VenueVertex

/-- The seed of the generator of a venue. -/
def seed (venueId : Nat) : UInt64 := UInt64.ofNat venueId * 0xDEADBEEF12345678

/-- `VenueVertex::VenueVertex`. `noise` is what a generator with a given seed yields. -/
def new (noise : UInt64 → Stream' Int) (id : VertexId) (owner : WorkerId) (state : State) :
    Vertex VenueVertex Message where
  id := id
  type := .venue
  owner := owner
  state := { toState := state, rng := noise (seed state.venueId) }

/-- The branch of the loop for the bid of a report. -/
def readBid (u : VenueVertex) (bid : Int) (qty : UInt64) : VenueVertex :=
  if bid > 0 then { u with bestBid := max u.bestBid bid, bidSize := u.bidSize + qty } else u

/-- The branch of the loop for the ask of a report. -/
def readAsk (u : VenueVertex) (ask : Int) (qty : UInt64) : VenueVertex :=
  if ask > 0 ∧ (u.bestAsk = 0 ∨ ask < u.bestAsk) then
    { u with bestAsk := ask, askSize := u.askSize + qty }
  else u

/-- One round of the loop of `compute` over the inbox. -/
def readMessage (u : VenueVertex) (msg : Message) : VenueVertex :=
  match msg.payload with
  | .priceUpdate bid ask bidQty askQty => (u.readBid bid bidQty).readAsk ask askQty
  | _ => u

/-- The midpoint that the noise is added to. -/
def mid (u : VenueVertex) : Int :=
  let mid := (u.bestBid + u.bestAsk).tdiv 2
  if mid = 0 then 100000 * fixedScale else mid

/-- The random move of the midpoint and the new prices around it. -/
def move (u : VenueVertex) : VenueVertex :=
  let mid := u.mid + u.rng.head
  let halfSpread := tickSize * 2
  { u with
    bestBid := mid - halfSpread
    bestAsk := mid + halfSpread
    tick := u.tick + 1
    rng := u.rng.tail }

/-- The message `nbbo`. -/
def nbbo (u : VenueVertex) (step : Superstep) : Message :=
  .plain step (.priceUpdate u.bestBid u.bestAsk u.bidSize u.askSize)

/-- `VenueVertex::compute`. -/
def compute : Compute VenueVertex Message := fun v inbox step =>
  let u := (inbox.foldl readMessage v.state).move
  { v with state := u }.sendAll v.edges (u.nbbo step)

/-! ### What a call of `compute` sends -/

theorem compute_frame (v : Vertex VenueVertex Message) (inbox : List Message) (step : Superstep) :
    v.SameFrame (compute v inbox step) := by
  unfold compute
  refine .trans ?_ (Vertex.sendAll_frame _ _ _)
  exact ⟨rfl, rfl, rfl, rfl⟩

/-- A venue quotes its new prices over every edge. -/
theorem compute_outbox (v : Vertex VenueVertex Message) (inbox : List Message) (step : Superstep) :
    (compute v inbox step).outbox =
      v.outbox ++ v.edges.map (v.stamp ((compute v inbox step).state.nbbo step)) := by
  unfold compute
  rw [Vertex.sendAll_eq]
  rfl

/-- The new ask is above the new bid. -/
theorem compute_bid_lt_ask (v : Vertex VenueVertex Message) (inbox : List Message)
    (step : Superstep) :
    (compute v inbox step).state.bestBid < (compute v inbox step).state.bestAsk := by
  have hspread : (0 : Int) < tickSize * 2 := by decide
  simp only [compute, Vertex.sendAll_state, move]
  omega

/-! ### The reports of an inbox -/

/-- Price and quantity of the bid of a report. -/
def bidOf (m : Message) : Option (Int × UInt64) :=
  match m.payload with
  | .priceUpdate bid _ bidQty _ => if bid > 0 then some (bid, bidQty) else none
  | _ => none

/-- Price and quantity of the ask of a report. -/
def askOf (m : Message) : Option (Int × UInt64) :=
  match m.payload with
  | .priceUpdate _ ask _ askQty => if ask > 0 then some (ask, askQty) else none
  | _ => none

def bids (inbox : List Message) : List (Int × UInt64) := inbox.filterMap bidOf

def asks (inbox : List Message) : List (Int × UInt64) := inbox.filterMap askOf

/-- The best ask, where 0 says that there is none. -/
def lowest (ask : Int) : WithTop Int := if ask = 0 then ⊤ else ask

/-- An ask is looked at: there is none yet, or it is below the best one. -/
def Improves (best ask : Int) : Prop := best = 0 ∨ ask < best

theorem improves_iff {best ask : Int} : Improves best ask ↔ Record.Below (lowest best) ask := by
  unfold Improves lowest Record.Below
  by_cases hzero : best = 0
  · simp [hzero]
  · simp [hzero]

theorem lowest_inj {a b : Int} : lowest a = lowest b ↔ a = b := by
  unfold lowest
  by_cases ha : a = 0
  · by_cases hb : b = 0
    · simp [ha, hb]
    · simp [ha, hb, Ne.symm hb]
  · by_cases hb : b = 0
    · simp [ha, hb]
    · simp [ha, hb]

section Fold

variable (u : VenueVertex) (inbox : List Message)

/-- A part of the state that each message changes by what it contributes. -/
theorem foldl_readMessage_part {β γ : Type} (part : VenueVertex → β) (of : Message → Option γ)
    (add : β → γ → β)
    (one : ∀ u m, part (readMessage u m) = ((of m).map (add (part u))).getD (part u)) :
    part (inbox.foldl readMessage u) = (inbox.filterMap of).foldl add (part u) := by
  induction inbox generalizing u with
  | nil => rfl
  | cons m inbox ih =>
      rw [List.foldl_cons, ih, one]
      cases hm : of m with
      | none => simp [hm]
      | some x => simp [hm]

theorem foldl_readMessage_bid :
    ((inbox.foldl readMessage u).bestBid, (inbox.foldl readMessage u).bidSize) =
      (bids inbox).foldl (fun s x => (max s.1 x.1, s.2 + x.2)) (u.bestBid, u.bidSize) := by
  apply foldl_readMessage_part u inbox (fun u => (u.bestBid, u.bidSize)) bidOf _
  intro u m
  unfold readMessage bidOf
  split
  next bid ask bidQty askQty hm =>
    have hask : ∀ w : VenueVertex, (w.readAsk ask askQty).bestBid = w.bestBid ∧
        (w.readAsk ask askQty).bidSize = w.bidSize := by
      intro w
      unfold readAsk
      split <;> exact ⟨rfl, rfl⟩
    rw [(hask _).1, (hask _).2, readBid]
    split <;> rfl
  · rfl

theorem foldl_readMessage_ask :
    (lowest (inbox.foldl readMessage u).bestAsk, (inbox.foldl readMessage u).askSize) =
      (asks inbox).foldl Record.record (lowest u.bestAsk, u.askSize) := by
  apply foldl_readMessage_part u inbox (fun u => (lowest u.bestAsk, u.askSize)) askOf _
  intro u m
  unfold readMessage askOf
  split
  next bid ask bidQty askQty hm =>
    have hbid : (u.readBid bid bidQty).bestAsk = u.bestAsk ∧
        (u.readBid bid bidQty).askSize = u.askSize := by
      unfold readBid
      split <;> exact ⟨rfl, rfl⟩
    rw [readAsk, hbid.1]
    by_cases hpos : ask > 0
    · have hlowest : lowest ask = ask := if_neg (by omega)
      by_cases himproves : Improves u.bestAsk ask
      · rw [if_pos ⟨hpos, himproves⟩]
        simp [hpos, Record.record_of_below (improves_iff.mp himproves), hlowest, hbid.2]
      · rw [if_neg fun h => himproves h.2]
        simp [hpos, Record.record_of_not_below (improves_iff.not.mp himproves), hbid]
    · rw [if_neg fun h => hpos h.1]
      simp [hpos, hbid]
  · rfl

theorem bestAsk_eq : lowest (inbox.foldl readMessage u).bestAsk =
    ((asks inbox).foldl Record.record (lowest u.bestAsk, u.askSize)).1 :=
  congrArg Prod.fst (foldl_readMessage_ask u inbox)

theorem askSize_eq : (inbox.foldl readMessage u).askSize =
    ((asks inbox).foldl Record.record (lowest u.bestAsk, u.askSize)).2 :=
  congrArg Prod.snd (foldl_readMessage_ask u inbox)

/-- Reading an inbox leaves the generator alone. -/
theorem foldl_readMessage_rng : (inbox.foldl readMessage u).rng = u.rng := by
  refine (foldl_readMessage_part u inbox VenueVertex.rng (fun _ => none)
    (fun s (_ : Unit) => s) ?_).trans
    (by simp)
  intro u m
  unfold readMessage readBid readAsk
  split
  · split <;> split <;> rfl
  · rfl

end Fold

/-! ### The order of an inbox -/

/-- Whatever the order of the inbox, a call of `compute` leaves the same prices and sizes and
sends the same quote over every edge. -/
def OrderIndependent (v : Vertex VenueVertex Message) (inbox : List Message) : Prop :=
  ∀ inbox', inbox'.Perm inbox → ∀ step,
    (compute v inbox' step).state.bestBid = (compute v inbox step).state.bestBid ∧
    (compute v inbox' step).state.bestAsk = (compute v inbox step).state.bestAsk ∧
    (compute v inbox' step).state.bidSize = (compute v inbox step).state.bidSize ∧
    (compute v inbox' step).state.askSize = (compute v inbox step).state.askSize ∧
    (compute v inbox' step).outbox = (compute v inbox step).outbox

theorem compute_state (v : Vertex VenueVertex Message) (inbox : List Message) (step : Superstep) :
    (compute v inbox step).state = (inbox.foldl readMessage v.state).move := by
  simp only [compute, Vertex.sendAll_state]

/-- The bids, the lowest ask and the size of the bids do not depend on the order. -/
theorem foldl_readMessage_perm (u : VenueVertex) {inbox inbox' : List Message}
    (perm : inbox'.Perm inbox) :
    (inbox'.foldl readMessage u).bestBid = (inbox.foldl readMessage u).bestBid ∧
      (inbox'.foldl readMessage u).bidSize = (inbox.foldl readMessage u).bidSize ∧
      (inbox'.foldl readMessage u).bestAsk = (inbox.foldl readMessage u).bestAsk := by
  have hbid : ((inbox'.foldl readMessage u).bestBid, (inbox'.foldl readMessage u).bidSize) =
      ((inbox.foldl readMessage u).bestBid, (inbox.foldl readMessage u).bidSize) := by
    rw [foldl_readMessage_bid, foldl_readMessage_bid]
    refine (perm.filterMap bidOf).foldl_eq' (fun x _ y _ s => ?_) _
    rw [max_right_comm, UInt64.add_assoc, UInt64.add_assoc, UInt64.add_comm x.2]
  have hask : lowest (inbox'.foldl readMessage u).bestAsk =
      lowest (inbox.foldl readMessage u).bestAsk := by
    rw [bestAsk_eq, bestAsk_eq]
    exact Record.foldl_record_fst_perm _ (perm.filterMap askOf)
  obtain ⟨hbest, hsize⟩ := Prod.ext_iff.mp hbid
  exact ⟨hbest, hsize, lowest_inj.mp hask⟩

/-- All that depends on the order of an inbox is the size of the asks. -/
theorem orderIndependent_iff_askSize (v : Vertex VenueVertex Message) (inbox : List Message) :
    OrderIndependent v inbox ↔ ∀ inbox' : List Message, inbox'.Perm inbox →
      (inbox'.foldl readMessage v.state).askSize = (inbox.foldl readMessage v.state).askSize := by
  constructor
  · intro h inbox' perm
    have hsize := (h inbox' perm 0).2.2.2.1
    rw [compute_state, compute_state] at hsize
    exact hsize
  · intro h inbox' perm step
    obtain ⟨hbid, hbidSize, hask⟩ := foldl_readMessage_perm v.state perm
    have haskSize := h inbox' perm
    have hrng : (inbox'.foldl readMessage v.state).rng = (inbox.foldl readMessage v.state).rng :=
      (foldl_readMessage_rng _ _).trans (foldl_readMessage_rng _ _).symm
    have hmid : (inbox'.foldl readMessage v.state).mid = (inbox.foldl readMessage v.state).mid := by
      rw [mid, mid, hbid, hask]
    have hnbbo : (compute v inbox' step).state.nbbo step = (compute v inbox step).state.nbbo step := by
      rw [compute_state, compute_state]
      simp only [nbbo, move, hmid, hrng, hbidSize, haskSize]
    rw [compute_outbox, compute_outbox, hnbbo, compute_state, compute_state]
    exact ⟨by simp only [move, hmid, hrng], by simp only [move, hmid, hrng], hbidSize, haskSize, rfl⟩

/-- **When the order of an inbox makes no difference to a venue.** If and only if among the
asks that it looks at, those above the lowest one have no quantity, and the lowest ones the
same. -/
theorem venue_order_independent_iff (v : Vertex VenueVertex Message) (inbox : List Message) :
    OrderIndependent v inbox ↔
      ∀ x ∈ asks inbox, ∀ y ∈ asks inbox,
        Improves v.state.bestAsk x.1 → Improves v.state.bestAsk y.1 →
          (x.1 < y.1 → y.2 = 0) ∧ (x.1 = y.1 → x.2 = y.2) := by
  have hdetermined : (∀ ys : List (Int × UInt64), ys.Perm (asks inbox) →
      (ys.foldl Record.record (lowest v.state.bestAsk, v.state.askSize)).2 =
        ((asks inbox).foldl Record.record (lowest v.state.bestAsk, v.state.askSize)).2) ↔
      Record.Determined (lowest v.state.bestAsk) (asks inbox) := Record.foldl_record_perm_iff
  rw [orderIndependent_iff_askSize]
  simp only [askSize_eq, improves_iff]
  refine Iff.trans ?_ hdetermined
  constructor
  · intro h ys perm
    obtain ⟨inbox', hperm, hasks⟩ := Record.exists_perm_filterMap perm
    rw [← hasks]
    exact h inbox' hperm
  · intro h inbox' perm
    exact h (asks inbox') (perm.filterMap askOf)

/-- A venue that asks 150000700 gets an ask of 150000200 over 3 and one of 150000100 over 4.
In this order it counts 7 more, in the other one 4. -/
theorem venue_depends_on_order :
    let v : Vertex VenueVertex Message := new (fun _ => Stream'.const 0) 0 0
      { venueId := 0, name := "NYSE", bestBid := 150000300, bestAsk := 150000700 }
    let high : Message := ⟨1, 0, 0, .priceUpdate 0 150000200 0 3⟩
    let low : Message := ⟨2, 0, 0, .priceUpdate 0 150000100 0 4⟩
    (compute v [high, low] 1).state.askSize = 7 ∧ (compute v [low, high] 1).state.askSize = 4 ∧
      ¬ OrderIndependent v [high, low] := by
  intro v high low
  have hfirst : (compute v [high, low] 1).state.askSize = 7 := by decide +kernel
  have hsecond : (compute v [low, high] 1).state.askSize = 4 := by decide +kernel
  refine ⟨hfirst, hsecond, fun h => ?_⟩
  have hsame := (h [low, high] (.swap _ _ _) 1).2.2.2.1
  rw [hfirst, hsecond] at hsame
  exact absurd hsame (by decide)

end VenueVertex

end Pregel
