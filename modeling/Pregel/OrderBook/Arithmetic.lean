import Mathlib.Algebra.Group.Int.Defs
import Pregel.OrderBook.Flow

/-!
The signed arithmetic on prices.

Prices are 64-bit signed integers in the source. `arithmetic` lists the results of all
signed additions, subtractions and multiplications in a call of `compute` on a venue or on
a market maker. A venue feeds its own quotes back and moves them by at most the noise and
the half spread, so that in superstep `k` no price exceeds `priceBound k`.

* `VenueVertex.small_move`, `VenueVertex.fits`, `MarketMakerVertex.fits`: one call.
* `pricedRule`: the bound grows from superstep to superstep as the prices do.
* `no_price_overflow`: in runs of up to 2^32 supersteps every result fits.
-/

namespace Pregel

open Lts
open WorkerNode (Phase Event)

/-- A value of type `int64_t`. -/
def FitsInt64 (x : Int) : Prop := -2 ^ 63 ≤ x ∧ x < 2 ^ 63

/-- No price is larger when superstep `k` begins. -/
def priceBound (k : Nat) : Int := 500000000000 + k * 10200

/-- A price within the bound. -/
def Small (k : Nat) (x : Int) : Prop := -priceBound k ≤ x ∧ x ≤ priceBound k

/-- A PRICE_UPDATE has only such prices. -/
def SmallPrices (k : Nat) (m : Message) : Prop :=
  ∀ bid ask bidQty askQty, m.payload = .priceUpdate bid ask bidQty askQty → Small k bid ∧ Small k ask

theorem Small.mono {j k : Nat} {x : Int} (h : Small j x) (hjk : j ≤ k) : Small k x := by
  unfold Small priceBound at h ⊢
  omega

theorem small_zero (k : Nat) : Small k 0 := by
  unfold Small priceBound
  omega

theorem SmallPrices.mono {j k : Nat} {m : Message} (h : SmallPrices j m) (hjk : j ≤ k) :
    SmallPrices k m := by
  intro bid ask bidQty askQty hm
  obtain ⟨hbid, hask⟩ := h bid ask bidQty askQty hm
  exact ⟨hbid.mono hjk, hask.mono hjk⟩

/-- The midpoint of two prices, rounded towards zero. -/
theorem Small.mid {k : Nat} {bid ask : Int} (hbid : Small k bid) (hask : Small k ask) :
    Small k ((bid + ask).tdiv 2) := by
  have habs : ((bid + ask).tdiv 2).natAbs = (bid + ask).natAbs / 2 := Int.natAbs_tdiv _ _
  unfold Small at hbid hask ⊢
  omega

namespace VenueVertex

/-- The signed results in a call of `compute`. -/
def arithmetic (u : VenueVertex) (inbox : List Message) : List Int :=
  let u := inbox.foldl readMessage u
  let mid := u.mid + u.rng.head
  let halfSpread := tickSize * 2
  [u.bestBid + u.bestAsk, 100000 * fixedScale, mid, halfSpread, mid - halfSpread, mid + halfSpread]

section Bounds

variable {k : Nat} {u : VenueVertex} {inbox : List Message}

theorem small_readMessage {m : Message} (hbid : Small k u.bestBid) (hask : Small k u.bestAsk)
    (hm : SmallPrices k m) :
    Small k (u.readMessage m).bestBid ∧ Small k (u.readMessage m).bestAsk := by
  unfold readMessage
  split
  next bid ask bidQty askQty hpayload =>
    obtain ⟨hbid', hask'⟩ := hm bid ask bidQty askQty hpayload
    have hmax : Small k (max u.bestBid bid) := by
      rcases max_choice u.bestBid bid with heq | heq
      · rwa [heq]
      · rwa [heq]
    have hread : Small k (u.readBid bid bidQty).bestBid ∧ Small k (u.readBid bid bidQty).bestAsk := by
      unfold readBid
      split
      · exact ⟨hmax, hask⟩
      · exact ⟨hbid, hask⟩
    unfold readAsk
    split
    · exact ⟨hread.1, hask'⟩
    · exact hread
  · exact ⟨hbid, hask⟩

theorem small_foldl (hbid : Small k u.bestBid) (hask : Small k u.bestAsk)
    (hinbox : ∀ m ∈ inbox, SmallPrices k m) :
    Small k (inbox.foldl readMessage u).bestBid ∧ Small k (inbox.foldl readMessage u).bestAsk := by
  induction inbox generalizing u with
  | nil => exact ⟨hbid, hask⟩
  | cons m inbox ih =>
      obtain ⟨hbid', hask'⟩ := small_readMessage hbid hask (hinbox m List.mem_cons_self)
      exact ih hbid' hask' fun x hx => hinbox x (List.mem_cons_of_mem m hx)

theorem small_mid (hbid : Small k u.bestBid) (hask : Small k u.bestAsk) : Small k u.mid := by
  unfold mid
  dsimp only
  split
  · unfold Small priceBound fixedScale
    omega
  · exact hbid.mid hask

/-- The noise and the half spread are what the bound grows by. -/
theorem small_move (hbid : Small k u.bestBid) (hask : Small k u.bestAsk)
    (noise : u.rng.head.natAbs ≤ 10 ^ 4) :
    Small (k + 1) u.move.bestBid ∧ Small (k + 1) u.move.bestAsk := by
  have hmid := small_mid hbid hask
  unfold Small priceBound at hmid ⊢
  simp only [move, tickSize]
  omega

/-- **A call of `compute` on a venue.** -/
theorem fits (hk : k < 2 ^ 32) (hbid : Small k u.bestBid) (hask : Small k u.bestAsk)
    (hinbox : ∀ m ∈ inbox, SmallPrices k m) (noise : u.rng.head.natAbs ≤ 10 ^ 4) :
    ∀ x ∈ u.arithmetic inbox, FitsInt64 x := by
  obtain ⟨hbid', hask'⟩ := small_foldl hbid hask hinbox
  have hmid := small_mid hbid' hask'
  rw [← foldl_readMessage_rng u inbox] at noise
  simp only [arithmetic, tickSize, fixedScale, List.forall_mem_cons]
  unfold Small priceBound at hbid' hask' hmid
  unfold FitsInt64
  refine ⟨by omega, by omega, by omega, by omega, by omega, by omega, fun x hx => by cases hx⟩

end Bounds

end VenueVertex

namespace MarketMakerVertex

/-- The signed results in the loop over the inbox. -/
def fillArithmetic (m : MarketMakerVertex) : List Message → List Int
  | [] => []
  | msg :: inbox =>
      (match msg.payload with
        | .orderFill price qty _ =>
            let deltaQty := qty.toInt64.toInt
            [m.netPosition + deltaQty, price * deltaQty, m.pnlFixed - price * deltaQty]
        | _ => []) ++ (m.readMessage msg).fillArithmetic inbox

/-- The signed results in the search for arbitrage. -/
def arbArithmetic (bid ask : Int) : List Int :=
  if bid > 0 ∧ ask > 0 then
    (bid - ask) ::
      if bid - ask > 0 then
        (bid + ask) :: if (bid + ask).tdiv 2 > 0 then [(bid - ask) * 10000] else []
      else []
  else []

/-- The signed results in a call of `compute`. -/
def arithmetic (m : MarketMakerVertex) (inbox : List Message) : List Int :=
  m.fillArithmetic inbox ++
    arbArithmetic (m.readInbox inbox).lastKnownBid (m.readInbox inbox).lastKnownAsk

/-- The prices that a market maker remembers are those it has read. -/
theorem compute_prices (v : Vertex MarketMakerVertex Message) (inbox : List Message)
    (step : Superstep) :
    (compute v inbox step).state.lastKnownBid = (v.state.readInbox inbox).lastKnownBid ∧
      (compute v inbox step).state.lastKnownAsk = (v.state.readInbox inbox).lastKnownAsk := by
  have hsend : ∀ w : Vertex MarketMakerVertex Message,
      (sendSignal w step).state.lastKnownBid = w.state.lastKnownBid ∧
        (sendSignal w step).state.lastKnownAsk = w.state.lastKnownAsk := by
    intro w
    unfold sendSignal
    split
    · exact ⟨rfl, rfl⟩
    · rw [Vertex.sendAll_state]
      exact ⟨rfl, rfl⟩
  unfold compute
  dsimp only
  split
  · exact hsend _
  · split
    · exact hsend _
    · exact hsend _

section Bounds

variable {k : Nat} {m : MarketMakerVertex} {inbox : List Message}

theorem small_readInbox (hbid : Small k m.lastKnownBid) (hask : Small k m.lastKnownAsk)
    (hinbox : ∀ msg ∈ inbox, SmallPrices k msg) :
    Small k (m.readInbox inbox).lastKnownBid ∧ Small k (m.readInbox inbox).lastKnownAsk := by
  unfold readInbox
  induction inbox generalizing m with
  | nil => exact ⟨hbid, hask⟩
  | cons msg inbox ih =>
      have hread : Small k (m.readMessage msg).lastKnownBid ∧
          Small k (m.readMessage msg).lastKnownAsk := by
        unfold readMessage
        split
        · exact ⟨hbid, hask⟩
        next bid ask bidQty askQty hpayload =>
          obtain ⟨hbid', hask'⟩ := hinbox msg List.mem_cons_self bid ask bidQty askQty hpayload
          refine ⟨?_, ?_⟩
          · dsimp only
            split
            · exact hbid'
            · exact hbid
          · dsimp only
            split
            · exact hask'
            · exact hask
        · exact ⟨hbid, hask⟩
      exact ih hread.1 hread.2 fun x hx => hinbox x (List.mem_cons_of_mem msg hx)

/-- Without fills the loop over the inbox computes nothing. -/
theorem fillArithmetic_eq_nil (noFill : ∀ msg ∈ inbox, msg.type ≠ .orderFill) :
    m.fillArithmetic inbox = [] := by
  induction inbox generalizing m with
  | nil => rfl
  | cons msg inbox ih =>
      have hfirst := noFill msg List.mem_cons_self
      rw [fillArithmetic, ih fun x hx => noFill x (List.mem_cons_of_mem msg hx), List.append_nil]
      cases hpayload : msg.payload with
      | orderFill price qty trade => simp [Message.type, hpayload] at hfirst
      | _ => rfl

theorem arbArithmetic_fits (hk : k < 2 ^ 32) {bid ask : Int} (hbid : Small k bid)
    (hask : Small k ask) : ∀ x ∈ arbArithmetic bid ask, FitsInt64 x := by
  have hall : FitsInt64 (bid - ask) ∧ FitsInt64 (bid + ask) ∧ FitsInt64 ((bid - ask) * 10000) := by
    unfold Small priceBound at hbid hask
    unfold FitsInt64
    exact ⟨by omega, by omega, by omega⟩
  intro x hx
  unfold arbArithmetic at hx
  split at hx
  · rcases List.mem_cons.mp hx with rfl | hx
    · exact hall.1
    · split at hx
      · rcases List.mem_cons.mp hx with rfl | hx
        · exact hall.2.1
        · split at hx
          · rw [List.mem_singleton.mp hx]
            exact hall.2.2
          · cases hx
      · cases hx
  · cases hx

/-- **A call of `compute` on a market maker** that gets no fill. -/
theorem fits (hk : k < 2 ^ 32) (hbid : Small k m.lastKnownBid) (hask : Small k m.lastKnownAsk)
    (hinbox : ∀ msg ∈ inbox, SmallPrices k msg) (noFill : ∀ msg ∈ inbox, msg.type ≠ .orderFill) :
    ∀ x ∈ m.arithmetic inbox, FitsInt64 x := by
  obtain ⟨hbid', hask'⟩ := small_readInbox hbid hask hinbox
  rw [arithmetic, fillArithmetic_eq_nil noFill, List.nil_append]
  exact arbArithmetic_fits hk hbid' hask'

end Bounds

end MarketMakerVertex

namespace OrderBook

/-- The signed results in a call of `compute`. -/
def arithmetic (v : Vertex BookState Message) (inbox : List Message) : List Int :=
  match v.state with
  | .venue u => u.arithmetic inbox
  | .marketMaker m => m.arithmetic inbox
  | _ => []

/-! ### The bound from superstep to superstep -/

/-- A message when superstep `k` begins. -/
structure Priced (vs : List (Vertex BookState Message)) (k : Nat) (m : Message) : Prop where
  prices : SmallPrices k m
  noFill : ∀ u ∈ vs, u.id = m.dst → u.type = .marketMaker → m.type ≠ .orderFill

/-- The prices of a vertex when superstep `k` begins. A venue has drawn at most `k` numbers
from one of the generators in `noise`. -/
def PricedState (noise : Set (Stream' Int)) (k : Nat) : BookState → Prop
  | .order _ => True
  | .priceLevel l => Small k l.price
  | .venue u => Small k u.bestBid ∧ Small k u.bestAsk ∧ ∃ s ∈ noise, ∃ j ≤ k, u.rng = s.drop j
  | .marketMaker m => Small k m.lastKnownBid ∧ Small k m.lastKnownAsk

/-- A vertex when superstep `k` begins. -/
structure PricedVertex (noise : Set (Stream' Int)) (vs : List (Vertex BookState Message)) (k : Nat)
    (vid : VertexId) (v : Vertex BookState Message) : Prop where
  origin : ∃ u ∈ vs, u.id = vid ∧ u.SameFrame v
  typed : v.state.type = v.type
  state : PricedState noise k v.state
  outbox : ∀ m ∈ v.outbox, Priced vs k m

variable {noise : Set (Stream' Int)} {vs loaded : List (Vertex BookState Message)}

theorem Priced.mono {j k : Nat} {m : Message} (h : Priced vs j m) (hjk : j ≤ k) : Priced vs k m :=
  ⟨h.prices.mono hjk, h.noFill⟩

/-- A message that is no fill. -/
theorem priced_of_prices {k : Nat} {m : Message} (prices : SmallPrices k m)
    (noFill : m.type ≠ .orderFill) : Priced vs k m :=
  ⟨prices, fun _ _ _ _ => noFill⟩

theorem PricedState.mono {j k : Nat} {s : BookState} (h : PricedState noise j s) (hjk : j ≤ k) :
    PricedState noise k s := by
  cases s with
  | order o => trivial
  | priceLevel l => exact Small.mono h hjk
  | venue u =>
      obtain ⟨hbid, hask, stream, hstream, i, hi, hrng⟩ := h
      exact ⟨hbid.mono hjk, hask.mono hjk, stream, hstream, i, by omega, hrng⟩
  | marketMaker m => exact ⟨h.1.mono hjk, h.2.mono hjk⟩

section Compute

variable {k : Nat} {vid : VertexId} {v : Vertex BookState Message} {inbox : List Message}
  (wired : Wired vs) (priced : PricedVertex noise vs k vid v)
  (received : ∀ m ∈ inbox, Priced vs k m ∧ m.dst = vid)

include priced in
/-- What is left to show of a call of `compute`. -/
theorem pricedVertex_of_sent
    (state : PricedState noise (k + 1) (BookState.compute v inbox k).state)
    (sent : ∀ m ∈ (BookState.compute v inbox k).outbox, m ∉ v.outbox → Priced vs (k + 1) m) :
    PricedVertex noise vs (k + 1) vid (BookState.compute v inbox k) := by
  have hframe := compute_frame v inbox k
  obtain ⟨u, hu, hid, horigin⟩ := priced.origin
  refine ⟨⟨u, hu, hid, horigin.trans hframe⟩, ?_, state, fun m hm => ?_⟩
  · rw [compute_type, priced.typed, hframe.type]
  · by_cases hold : m ∈ v.outbox
    · exact (priced.outbox m hold).mono (Nat.le_succ k)
    · exact sent m hm hold

include priced

include wired in
/-- An order sends fills, and only to price levels. -/
theorem priced_order {o : OrderVertex} (hstate : v.state = .order o) :
    PricedVertex noise vs (k + 1) vid (BookState.compute v inbox k) := by
  have hcompute : BookState.compute v inbox k =
      (OrderVertex.compute (v.map fun _ => o) inbox k).map .order := by
    simp only [BookState.compute, hstate]
  have htype : v.type = .order := by rw [← priced.typed, hstate]; rfl
  obtain ⟨u, hu, hid, horigin⟩ := priced.origin
  apply pricedVertex_of_sent priced
  · rw [hcompute]
    trivial
  · intro m hm hnew
    obtain ⟨hfill, w, hw, hdst, hlevel⟩ := order_sends wired hu horigin htype hstate hm hnew
    refine ⟨fun _ _ _ _ hpayload => ?_, fun x hx hxid hmaker => ?_⟩
    · rw [Message.type, hpayload] at hfill
      cases hfill
    · obtain rfl := List.inj_on_of_nodup_map wired.distinct hx hw (hxid.trans hdst.symm)
      rw [hlevel] at hmaker
      cases hmaker

include received

/-- A price level hands quotes on and reports its own price. -/
theorem priced_priceLevel {l : PriceLevelVertex} (hstate : v.state = .priceLevel l) :
    PricedVertex noise vs (k + 1) vid (BookState.compute v inbox k) := by
  have hcompute : BookState.compute v inbox k =
      (PriceLevelVertex.compute (v.map fun _ => l) inbox k).map .priceLevel := by
    simp only [BookState.compute, hstate]
  have hprice : Small k l.price := by
    have h := priced.state
    rwa [hstate] at h
  have hside : ∀ side : Side, Small k (if l.side = side then l.price else 0) := by
    intro side
    split
    · exact hprice
    · exact small_zero k
  apply pricedVertex_of_sent priced
  · obtain ⟨qty, count, hfold⟩ :=
      PriceLevelVertex.foldl_fill_frame l (PriceLevelVertex.fills inbox)
    rw [hcompute, PriceLevelVertex.compute_eq]
    show Small (k + 1) ((PriceLevelVertex.fills inbox).foldl PriceLevelVertex.fill l).price
    rw [hfold]
    exact hprice.mono (Nat.le_succ k)
  · intro m hm hnew
    rw [hcompute] at hm
    have htype : m.type = .priceUpdate :=
      ((PriceLevelVertex.mem_compute_outbox hm).resolve_left hnew).1
    refine priced_of_prices ?_ (by simp [htype])
    rcases (PriceLevelVertex.payload_compute_outbox hm).resolve_left hnew with
      ⟨msg, hmsg, -, hpayload⟩ | ⟨bidQty, askQty, hpayload⟩
    · intro bid ask bidQty askQty hprices
      apply ((received msg hmsg).1.prices.mono (Nat.le_succ k)) bid ask bidQty askQty
      rw [← hpayload, hprices]
    · intro bid ask bidQty' askQty' hprices
      rw [hpayload] at hprices
      cases hprices
      exact ⟨(hside .bid).mono (Nat.le_succ k), (hside .ask).mono (Nat.le_succ k)⟩

/-- A venue draws one number and quotes its new prices. -/
theorem priced_venue {u : VenueVertex} (hstate : v.state = .venue u)
    (hnoise : ∀ s ∈ noise, ∀ i ≤ k, (s.get i).natAbs ≤ 10 ^ 4) :
    PricedVertex noise vs (k + 1) vid (BookState.compute v inbox k) := by
  have hcompute : BookState.compute v inbox k =
      (VenueVertex.compute (v.map fun _ => u) inbox k).map .venue := by
    simp only [BookState.compute, hstate]
  have hpriced : PricedState noise k (.venue u) := hstate ▸ priced.state
  obtain ⟨hbid, hask, stream, hstream, j, hj, hrng⟩ := hpriced
  obtain ⟨hbid', hask'⟩ := VenueVertex.small_foldl hbid hask fun m hm => (received m hm).1.prices
  have hrng' : (inbox.foldl VenueVertex.readMessage u).rng = stream.drop j :=
    (VenueVertex.foldl_readMessage_rng u inbox).trans hrng
  have hhead : (inbox.foldl VenueVertex.readMessage u).rng.head.natAbs ≤ 10 ^ 4 := by
    rw [hrng', Stream'.head_drop]
    exact hnoise stream hstream j hj
  have hmove := VenueVertex.small_move hbid' hask' hhead
  have hafter : (VenueVertex.compute (v.map fun _ => u) inbox k).state =
      (inbox.foldl VenueVertex.readMessage u).move :=
    VenueVertex.compute_state _ inbox k
  apply pricedVertex_of_sent priced
  · rw [hcompute]
    show PricedState noise (k + 1) (.venue (VenueVertex.compute _ inbox k).state)
    rw [hafter]
    refine ⟨hmove.1, hmove.2, stream, hstream, j + 1, by omega, ?_⟩
    show (inbox.foldl VenueVertex.readMessage u).rng.tail = _
    rw [hrng', Stream'.tail_drop']
  · intro m hm hnew
    rw [hcompute] at hm
    change m ∈ (VenueVertex.compute _ inbox k).outbox at hm
    rw [VenueVertex.compute_outbox, hafter, List.mem_append] at hm
    obtain ⟨e, -, rfl⟩ := List.mem_map.mp (hm.resolve_left hnew)
    refine priced_of_prices (fun bid ask bidQty askQty hpayload => ?_)
      (show MsgType.priceUpdate ≠ .orderFill by simp)
    cases hpayload
    exact hmove

/-- A market maker remembers the prices of a quote. -/
theorem priced_marketMaker {m : MarketMakerVertex} (hstate : v.state = .marketMaker m) :
    PricedVertex noise vs (k + 1) vid (BookState.compute v inbox k) := by
  have hcompute : BookState.compute v inbox k =
      (MarketMakerVertex.compute (v.map fun _ => m) inbox k).map .marketMaker := by
    simp only [BookState.compute, hstate]
  have hpriced : PricedState noise k (.marketMaker m) := hstate ▸ priced.state
  have hread := MarketMakerVertex.small_readInbox hpriced.1 hpriced.2
    fun msg hmsg => (received msg hmsg).1.prices
  apply pricedVertex_of_sent priced
  · rw [hcompute]
    show PricedState noise (k + 1) (.marketMaker (MarketMakerVertex.compute _ inbox k).state)
    have hprices := MarketMakerVertex.compute_prices (v.map fun _ => m) inbox k
    refine PricedState.mono (j := k) ?_ (Nat.le_succ k)
    show Small k _ ∧ Small k _
    rw [hprices.1, hprices.2]
    exact hread
  · intro msg hmsg hnew
    rw [hcompute] at hmsg
    change msg ∈ (MarketMakerVertex.compute _ inbox k).outbox at hmsg
    rw [MarketMakerVertex.compute_outbox, List.mem_append] at hmsg
    have hsent := hmsg.resolve_left hnew
    split at hsent
    · cases hsent
    · obtain ⟨e, -, rfl⟩ := List.mem_map.mp hsent
      exact priced_of_prices (fun _ _ _ _ hpayload => by cases hpayload)
        (show MsgType.arbitrageSignal ≠ .orderFill by simp)

include wired in
/-- **A call of `compute` keeps to the bound.** -/
theorem priced_compute (hnoise : ∀ s ∈ noise, ∀ i ≤ k, (s.get i).natAbs ≤ 10 ^ 4) :
    PricedVertex noise vs (k + 1) vid (BookState.compute v inbox k) := by
  cases hstate : v.state with
  | order o => exact priced_order wired priced hstate
  | priceLevel l => exact priced_priceLevel priced received hstate
  | venue u => exact priced_venue priced received hstate hnoise
  | marketMaker m => exact priced_marketMaker priced received hstate

/-- The results in a call of `compute` fit. -/
theorem fits_arithmetic (hk : k < 2 ^ 32)
    (hnoise : ∀ s ∈ noise, ∀ i ≤ k, (s.get i).natAbs ≤ 10 ^ 4) :
    ∀ x ∈ arithmetic v inbox, FitsInt64 x := by
  have hprices : ∀ m ∈ inbox, SmallPrices k m := fun m hm => (received m hm).1.prices
  have hstate := priced.state
  unfold arithmetic
  split
  next u hu =>
    rw [hu] at hstate
    obtain ⟨hbid, hask, stream, hstream, j, hj, hrng⟩ := hstate
    apply VenueVertex.fits hk hbid hask hprices
    rw [hrng, Stream'.head_drop]
    exact hnoise stream hstream j hj
  next m hm =>
    rw [hm] at hstate
    obtain ⟨u, hu, hid, horigin⟩ := priced.origin
    have htype : u.type = .marketMaker := by
      rw [← horigin.type, ← priced.typed, hm]
      rfl
    apply MarketMakerVertex.fits hk hstate.1 hstate.2 hprices
    intro msg hmsg
    exact (received msg hmsg).1.noFill u hu (hid.trans (received msg hmsg).2.symm) htype
  · exact fun x hx => absurd hx List.not_mem_nil

end Compute

/-- The program of the order book meets the rule up to superstep `last`. -/
theorem pricedRule (wired : Wired vs) {last : Nat}
    (hnoise : ∀ s ∈ noise, ∀ i ≤ last, (s.get i).natAbs ≤ 10 ^ 4) :
    StagedRule BookState.compute (fun _ => True) (fun k m => k ≤ last + 1 → Priced vs k m)
      (fun k vid v => k ≤ last + 1 → PricedVertex noise vs k vid v) where
  keepsMessages k m hm hk := (hm (by omega)).mono (Nat.le_succ k)
  keepsVertices k vid v hv hk := by
    obtain ⟨origin, typed, state, outbox⟩ := hv (by omega)
    exact ⟨origin, typed, state.mono (Nat.le_succ k), fun m hm => (outbox m hm).mono (Nat.le_succ k)⟩
  sends k vid v hv m hm hk := (hv hk).outbox m hm
  wakes k vid v hv hk := by
    obtain ⟨⟨u, hu, hid, horigin⟩, typed, state, outbox⟩ := hv hk
    exact ⟨⟨u, hu, hid, horigin.trans ⟨rfl, rfl, rfl, rfl⟩⟩, typed, state, outbox⟩
  collected k vid v hv hk := by
    obtain ⟨⟨u, hu, hid, horigin⟩, typed, state, -⟩ := hv hk
    exact ⟨⟨u, hu, hid, horigin.trans ⟨rfl, rfl, rfl, rfl⟩⟩, typed, state,
      fun m hm => absurd hm List.not_mem_nil⟩
  computes k vid v inbox hv hinbox _ hk := by
    have hk' : k ≤ last := by omega
    refine priced_compute wired (hv (by omega)) (fun m hm => ⟨(hinbox m hm).1 (by omega), ?_⟩)
      fun s hs i hi => hnoise s hs i (hi.trans hk')
    exact (hinbox m hm).2

/-- A loaded graph has no message anywhere. -/
theorem staged_load (wired : Wired vs) (order : loaded.Perm vs)
    (prices : ∀ u ∈ vs, PricedState noise 0 u.state) (last : Nat) (config : EngineConfig)
    (i : WorkerId) :
    StagedFlows (fun k m => k ≤ last + 1 → Priced vs k m)
      (fun k vid v => k ≤ last + 1 → PricedVertex noise vs k vid v) 0
      ((GraphEngine.load config loaded).workers i, .ready) := by
  have hworker := GraphEngine.load_worker config loaded i
  have hvertex : ∀ k vid v,
      ((GraphEngine.load config loaded).workers i).vertices.lookup vid = some v →
        PricedVertex noise vs k vid v := by
    intro k vid v hv
    obtain ⟨hmem, hid⟩ := mem_of_load_lookup wired order hv
    refine ⟨⟨v, hmem, hid, .refl v⟩, wired.typed v hmem, (prices v hmem).mono (Nat.zero_le k), ?_⟩
    rw [(wired.fresh v hmem).1]
    exact fun _ hm => absurd hm List.not_mem_nil
  refine ⟨?_, ?_, fun vid v hv _ => hvertex _ vid v hv, fun vid v hv _ _ => hvertex _ vid v hv,
    fun _ _ _ hphase => by cases hphase⟩
  · rw [hworker]
    exact MessageBus.within_new _ _ _
  · rw [hworker]
    exact fun vid m hm => absurd hm List.not_mem_nil

/-! ### The prices of the builder -/

/-- The generators of the venues. -/
def venueStreams (p : OrderBookGraphParams) (d : Draws) : Set (Stream' Int) :=
  {s | ∃ v < p.venueCount.toNat, s = d.venueNoise (VenueVertex.seed v)}

open Layout in
theorem prices_vertices {p : OrderBookGraphParams} {d : Draws}
    (hnoise : ∀ i < drawn p (levels p), (d.priceNoise i).natAbs ≤ 10 ^ 4) :
    ∀ u ∈ vertices p d, PricedState (venueStreams p d) 0 u.state := by
  intro u hu
  rcases mem_vertices.mp hu with ⟨v, hv, rfl⟩ | ⟨j, hj, o, ho, rfl⟩ | ⟨j, hj, rfl⟩ | ⟨m, hm, rfl⟩
  · have hdrawn : 2 * v + 1 < drawn p (levels p) := by
      unfold drawn
      omega
    have hbid := hnoise (2 * v) (by omega)
    have hask := hnoise (2 * v + 1) hdrawn
    refine ⟨?_, ?_, d.venueNoise (VenueVertex.seed v), ⟨v, hv, rfl⟩, 0, Nat.le_refl 0, rfl⟩
    · show Small 0 (basePrice - 100 + d.priceNoise (2 * v))
      unfold Small priceBound basePrice fixedScale
      omega
    · show Small 0 (basePrice + 100 + d.priceNoise (2 * v + 1))
      unfold Small priceBound basePrice fixedScale
      omega
  · trivial
  · have hdrawn : drawn p j < drawn p (levels p) :=
      Nat.add_lt_add_left (Nat.mul_lt_mul_of_lt_of_le hj (Nat.le_refl _) (by omega)) _
    have hlevel := hnoise (drawn p j) hdrawn
    -- a level is at most as many ticks away from the base price as a side has levels
    have hpos : 0 < depth p := by
      apply Nat.pos_of_ne_zero
      intro hzero
      rw [levels, hzero] at hj
      exact Nat.not_lt_zero j hj
    have hdepth : levelDepth p j < 2 ^ 32 :=
      (Nat.mod_lt j hpos).trans p.priceLevels.toNat_lt
    show Small 0 (levelPrice p d j)
    unfold levelPrice Small priceBound basePrice fixedScale tickSize
    split <;> omega
  · exact ⟨small_zero 0, small_zero 0⟩

/-- The prices in a graph of the builder, whatever the parameters. -/
theorem prices_of_run {p : OrderBookGraphParams} {d : Draws} {b : Builder}
    (built : Builder.run p d = .ok b) (hnoise : ∀ i < b.noises, (d.priceNoise i).natAbs ≤ 10 ^ 4) :
    ∀ u ∈ b.vertices, PricedState (venueStreams p d) 0 u.state := by
  rcases Layout.vertices_of_run built with hvertices | ⟨hvertices, hnoises⟩
  · rw [hvertices]
    exact fun u hu => absurd hu List.not_mem_nil
  · rw [hvertices]
    exact prices_vertices (hnoises ▸ hnoise)

/-- **No signed overflow in the arithmetic on prices.** Take any parameters and any graph
that the builder makes of them, with any number of price levels, loaded into an engine with
its vertex maps in any order; any run of up to 2^32 supersteps, and any moment of the last one
in which a task is about to call `compute` on a vertex. If every noise that the builder and
the venues have drawn by then is at most 10^4 in absolute value, then every signed result in
this call fits into 64 bits. -/
theorem no_price_overflow (p : OrderBookGraphParams) (d : Draws) {b : Builder}
    (built : Builder.run p d = .ok b)
    (builderNoise : ∀ i < b.noises, (d.priceNoise i).natAbs ≤ 10 ^ 4) (config : EngineConfig)
    {e₀ : GraphEngine BookState Message}
    (order : (GraphEngine.load config b.vertices).Reordered e₀)
    {trs : List (List (WorkerId × Event Message))} {k : Nat} {e : GraphEngine BookState Message}
    (exec : GraphEngine.Execution BookState.compute e₀ trs k e)
    (steps : k < 2 ^ 32)
    (venueNoise : ∀ v < p.venueCount.toNat, ∀ i ≤ k,
      ((d.venueNoise (VenueVertex.seed v)).get i).natAbs ≤ 10 ^ 4)
    {timing : WorkerId → WorkerId → Nat} {tr : List (WorkerId × Event Message)}
    {ws : WorkerId → WorkerNode BookState Message × Phase Message}
    (superstep : Run (Interleave (e.WorkerStep BookState.compute k timing))
      (fun i => (e.workers i, .ready)) tr ws)
    {i : WorkerId} {ts : VertexId → WorkerNode.TaskState Message} {vid : VertexId}
    {inbox : List Message} {v : Vertex BookState Message} (computing : (ws i).2 = .computing ts)
    (running : ts vid = .running inbox) (hv : (ws i).1.vertices.lookup vid = some v) :
    ∀ x ∈ arithmetic v inbox, FitsInt64 x := by
  have wired := wired_of_run built
  obtain ⟨loaded, perm, rfl⟩ := GraphEngine.exists_load_of_reordered wired.distinct order
  have hprices := prices_of_run built builderNoise
  have hnoise : ∀ s ∈ venueStreams p d, ∀ i ≤ k, (s.get i).natAbs ≤ 10 ^ 4 := by
    rintro s ⟨v, hv, rfl⟩
    exact venueNoise v hv
  have rule := pricedRule wired hnoise
  have hstart := exec.checked.staged rule (staged_load wired perm hprices k config)
  have hflows := GraphEngine.staged_during rule hstart (GraphEngine.checkedRun_true superstep) i
  have hpending : Pending (ws i).2 vid := by
    rw [computing]
    simp [Pending, running]
  refine fits_arithmetic (hflows.pending vid v hv hpending (Nat.le_succ k)) (fun m hm => ?_) steps
    hnoise
  obtain ⟨hpriced, hdst⟩ := hflows.running ts vid inbox computing running m hm
  exact ⟨hpriced (Nat.le_succ k), hdst⟩

/-- In superstep 1 of the run of `duo` the market maker is about to read the quote of the
venue, and computes a spread of -400. -/
theorem no_price_overflow_duo : ∃ ws ts v,
    Run (Interleave (duoNext.WorkerStep BookState.compute 1 fun _ _ => 0))
      (fun i => (duoNext.workers i, .ready)) [(0, .start), (0, .take 1)] ws ∧
    (ws 0).2 = .computing ts ∧ ts 1 = .running [duoQuote] ∧
    (ws 0).1.vertices.lookup 1 = some v ∧ arithmetic v [duoQuote] = [-400] ∧
    ∀ x ∈ arithmetic v [duoQuote], FitsInt64 x := by
  obtain ⟨b, built, hvertices⟩ : ∃ b, Builder.run duo .still = .ok b ∧
      b.vertices = duoGraph.vertices := ⟨_, rfl, rfl⟩
  have exec : GraphEngine.CheckedExecution PositiveBid BookState.compute
      (GraphEngine.load { workerCount := 1 } duoGraph.vertices) _ 1 duoNext :=
    .one ⟨rfl, _, GraphEngine.checkedSuperstep_single (by rfl) duo_first⟩
  obtain ⟨s, run, ts, hphase, hrunning, v, hv, harithmetic⟩ : ∃ s,
      Run (duoNext.WorkerStep BookState.compute 1 (fun _ _ => 0) 0) (duoNext.workers 0, .ready)
        [.start, .take 1] s ∧
      ∃ ts, s.2 = .computing ts ∧ ts 1 = .running [duoQuote] ∧
        ∃ v, s.1.vertices.lookup 1 = some v ∧ arithmetic v [duoQuote] = [-400] :=
    ⟨_, .cons ⟨Nat.one_pos, .start Nat.two_pos⟩ (.one ⟨Nat.one_pos, .take rfl⟩), _, rfl, rfl, _,
      rfl, by rfl⟩
  have superstep := Interleave.lift (fun i => (duoNext.workers i, Phase.ready)) run
  have hworker : Function.update (fun i => (duoNext.workers i, Phase.ready)) 0 s 0 = s :=
    Function.update_self ..
  refine ⟨_, ts, v, superstep, by rw [hworker, hphase], hrunning, by rw [hworker, hv], harithmetic, ?_⟩
  rw [← hvertices] at exec
  exact no_price_overflow duo .still built (fun _ _ => Nat.zero_le _) { workerCount := 1 }
    (.refl _) exec.execution (by decide) (fun _ _ _ _ => Nat.zero_le _) superstep
    (by rw [hworker, hphase]) hrunning (by rw [hworker, hv])

end OrderBook

end Pregel
