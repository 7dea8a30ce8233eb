import Mathlib.Algebra.BigOperators.Group.List.Basic
import Mathlib.Algebra.GroupWithZero.Nat
import Mathlib.Data.List.Induction
import Mathlib.Data.List.ReduceOption
import Pregel.OrderBook.Basic

/-!
`PriceLevelVertex` (`order_book_graph.hpp`, `order_book_graph.cpp`).

A price level takes the fills of its orders off its quantity, hands every quote it gets on
to its orders, and reports to its venue when its quantity has changed.

* `compute_eq`: one call of `compute`, and with it `compute_frame`, `mem_compute_outbox`:
  what it leaves alone, what it sends and over which edges.
* `foldl_fill`: the quantity and the number of orders after any fills.
* `fills_closed_form`: they depend on the number and the sum of the fills only.
* `order_count_zero_iff`: a level can run out of orders before it runs out of quantity.
* `upstream_never_stale`: the last report of a level has its quantity.
-/

namespace Pregel

/-- `PriceLevelVertex::State`. -/
structure PriceLevelVertex.State where
  price : Int
  side : Side
  totalQty : UInt64 := 0
  orderCount : UInt32 := 0
  venueId : Nat
  isBestLevel : Bool := false
  deriving DecidableEq, Repr

/-- `PriceLevelVertex`: the fields of the derived class. The quantity of the last report is
kept as a signed integer. -/
structure PriceLevelVertex extends PriceLevelVertex.State where
  prevTotalQty : Int64 := 0
  deriving DecidableEq, Repr

namespace PriceLevelVertex

/-- `PriceLevelVertex::PriceLevelVertex`. -/
def new (id : VertexId) (owner : WorkerId) (state : State) : Vertex PriceLevelVertex Message where
  id := id
  type := .priceLevel
  owner := owner
  state := { toState := state }

/-- The branch of `compute` for an ORDER_FILL. -/
def fill (l : PriceLevelVertex) (qty : UInt64) : PriceLevelVertex :=
  if qty ≥ l.totalQty then { l with totalQty := 0, orderCount := 0 }
  else
    { l with
      totalQty := l.totalQty - qty
      orderCount := if l.orderCount > 0 then l.orderCount - 1 else l.orderCount }

/-- One round of the loop of `compute` over the inbox. -/
def readMessage (step : Superstep) (v : Vertex PriceLevelVertex Message) (msg : Message) :
    Vertex PriceLevelVertex Message :=
  match msg.payload with
  | .orderFill _ qty _ => { v with state := v.state.fill qty }
  | .priceUpdate .. => v.sendAll (v.edges.filter (·.type = 1)) { msg with step := step }
  | _ => v

/-- The message `upd` that a level sends to its venue. -/
def update (l : PriceLevelVertex) (step : Superstep) : Message :=
  .plain step (.priceUpdate
    (if l.side = .bid then l.price else 0) (if l.side = .ask then l.price else 0)
    (if l.side = .bid then l.totalQty else 0) (if l.side = .ask then l.totalQty else 0))

/-- The part of `compute` that reports a changed quantity. The comparison converts the
remembered value back to an unsigned one. -/
def report (v : Vertex PriceLevelVertex Message) (step : Superstep) :
    Vertex PriceLevelVertex Message :=
  if v.state.totalQty ≠ v.state.prevTotalQty.toUInt64 then
    { v with state := { v.state with prevTotalQty := v.state.totalQty.toInt64 } }.sendAll
      (v.edges.filter (·.type = 2)) (v.state.update step)
  else v

/-- `PriceLevelVertex::compute`. -/
def compute : Compute PriceLevelVertex Message := fun v inbox step =>
  let v := report (inbox.foldl (readMessage step) v) step
  if v.state.totalQty = 0 ∧ inbox.isEmpty then v.voteToHalt else v

/-! ### What a call of `compute` does -/

/-- The quantity of an ORDER_FILL. -/
def fillQty (m : Message) : Option UInt64 :=
  match m.payload with
  | .orderFill _ qty _ => some qty
  | _ => none

/-- The quantities of the fills in an inbox, in order. -/
def fills (inbox : List Message) : List UInt64 := inbox.filterMap fillQty

/-- What a level sends to its orders: every quote it gets. -/
def forwarded (v : Vertex PriceLevelVertex Message) (inbox : List Message) (step : Superstep) :
    List Message :=
  inbox.flatMap fun m =>
    if m.type = .priceUpdate then
      (v.edges.filter (·.type = 1)).map (v.stamp { m with step := step })
    else []

/-- The report that a call of `compute` makes, if it makes one. -/
def generated (l : PriceLevelVertex) (inbox : List Message) (step : Superstep) : Option Message :=
  let l := (fills inbox).foldl fill l
  if l.totalQty ≠ l.prevTotalQty.toUInt64 then some (l.update step) else none

/-- A report as it goes over the edges to the venue. -/
def upstream (v : Vertex PriceLevelVertex Message) (upd : Option Message) : List Message :=
  upd.toList.flatMap fun upd => (v.edges.filter (·.type = 2)).map (v.stamp upd)

section Compute

variable (v : Vertex PriceLevelVertex Message) (inbox : List Message) (step : Superstep)

theorem foldl_readMessage_eq : inbox.foldl (readMessage step) v =
    { v with
      state := (fills inbox).foldl fill v.state
      outbox := v.outbox ++ forwarded v inbox step } := by
  induction inbox generalizing v with
  | nil => simp [fills, forwarded]
  | cons msg inbox ih =>
      -- what is forwarded depends on the id and the edges only
      have hsame : ∀ l outbox, forwarded { v with state := l, outbox := outbox } inbox step =
          forwarded v inbox step := fun _ _ => rfl
      rw [List.foldl_cons, ih]
      cases hmsg : msg.payload with
      | orderFill price qty trade =>
          have hnone : forwarded v (msg :: inbox) step = forwarded v inbox step := by
            simp [forwarded, Message.type, hmsg]
          simp [readMessage, fills, fillQty, hmsg, hsame, hnone]
      | priceUpdate bid ask bq aq =>
          have hsome : forwarded v (msg :: inbox) step =
              (v.edges.filter (·.type = 1)).map (v.stamp { msg with step := step }) ++
                forwarded v inbox step := by
            simp [forwarded, Message.type, hmsg]
          simp [readMessage, fills, fillQty, hmsg, hsame, hsome, Vertex.sendAll_eq]
      | _ =>
          have hnone : forwarded v (msg :: inbox) step = forwarded v inbox step := by
            simp [forwarded, Message.type, hmsg]
          simp [readMessage, fills, fillQty, hmsg, hnone]

/-- The report, made or not, and the quantity that is remembered. -/
theorem report_eq : report v step =
    { v with
      state := { v.state with prevTotalQty := v.state.totalQty.toInt64 }
      outbox := v.outbox ++ upstream v
        (if v.state.totalQty ≠ v.state.prevTotalQty.toUInt64 then some (v.state.update step)
          else none) } := by
  unfold report
  by_cases hchanged : v.state.totalQty = v.state.prevTotalQty.toUInt64
  · have hprev : v.state.totalQty.toInt64 = v.state.prevTotalQty := by simp [hchanged]
    rw [if_neg (not_not.mpr hchanged), if_neg (not_not.mpr hchanged), hprev]
    simp [upstream]
  · rw [if_pos hchanged, if_pos hchanged, Vertex.sendAll_eq]
    simp only [upstream, Option.toList_some, List.flatMap_singleton]
    rfl

/-- **One call of `compute`.** -/
theorem compute_eq : compute v inbox step =
    { v with
      state := { (fills inbox).foldl fill v.state with
        prevTotalQty := ((fills inbox).foldl fill v.state).totalQty.toInt64 }
      outbox := v.outbox ++ forwarded v inbox step ++ upstream v (generated v.state inbox step)
      halted := v.halted || (((fills inbox).foldl fill v.state).totalQty = 0 && inbox.isEmpty) } := by
  have hhalt : ∀ (w : Vertex PriceLevelVertex Message) (q : Prop) [Decidable q],
      (if q then w.voteToHalt else w) = { w with halted := w.halted || decide q } := by
    intro w q _
    by_cases hq : q <;> simp [hq, Vertex.voteToHalt]
  unfold compute
  rw [foldl_readMessage_eq, report_eq]
  dsimp only
  rw [hhalt]
  simp only [Bool.decide_and, Bool.decide_eq_true]
  rfl

theorem compute_frame : v.SameFrame (compute v inbox step) := by
  rw [compute_eq]
  exact ⟨rfl, rfl, rfl, rfl⟩

end Compute

/-- A fill changes nothing but the quantity and the number of orders. -/
theorem foldl_fill_frame (l : PriceLevelVertex) (qs : List UInt64) : ∃ qty count,
    qs.foldl fill l = { l with totalQty := qty, orderCount := count } := by
  induction qs generalizing l with
  | nil => exact ⟨_, _, rfl⟩
  | cons q qs ih =>
      obtain ⟨qty, count, heq⟩ := ih (l.fill q)
      refine ⟨qty, count, ?_⟩
      rw [List.foldl_cons, heq, fill]
      split <;> rfl

/-- A message to `dst` over an edge of this type. -/
def Over (v : Vertex PriceLevelVertex Message) (type : UInt8) (m : Message) : Prop :=
  ∃ e ∈ v.edges, e.type = type ∧ m.dst = e.dst

section Sent

variable {v : Vertex PriceLevelVertex Message} {inbox : List Message} {step : Superstep} {m : Message}

theorem mem_forwarded (hm : m ∈ forwarded v inbox step) :
    (∃ msg ∈ inbox, msg.type = .priceUpdate ∧ m.payload = msg.payload) ∧ Over v 1 m := by
  obtain ⟨msg, hmsg, hm⟩ := List.mem_flatMap.mp hm
  split at hm
  next htype =>
    obtain ⟨e, he, rfl⟩ := List.mem_map.mp hm
    rw [List.mem_filter] at he
    exact ⟨⟨msg, hmsg, htype, rfl⟩, e, he.1, by simpa using he.2, rfl⟩
  · cases hm

theorem mem_upstream {upd : Option Message} (hm : m ∈ upstream v upd) :
    (∃ u, upd = some u ∧ m.payload = u.payload) ∧ Over v 2 m := by
  obtain ⟨u, hu, hm⟩ := List.mem_flatMap.mp hm
  obtain ⟨e, he, rfl⟩ := List.mem_map.mp hm
  rw [List.mem_filter] at he
  exact ⟨⟨u, Option.mem_toList.mp hu, rfl⟩, e, he.1, by simpa using he.2, rfl⟩

/-- A report has the price of the level on its side, and no price on the other. -/
theorem payload_generated {l : PriceLevelVertex} {upd : Message}
    (hupd : generated l inbox step = some upd) : ∃ bidQty askQty, upd.payload = .priceUpdate
      (if l.side = .bid then l.price else 0) (if l.side = .ask then l.price else 0) bidQty askQty := by
  obtain ⟨qty, count, hfold⟩ := foldl_fill_frame l (fills inbox)
  unfold generated at hupd
  dsimp only at hupd
  split at hupd
  · cases hupd
    rw [hfold]
    exact ⟨_, _, rfl⟩
  · cases hupd

/-- **What a price level sends**: PRICE_UPDATEs to its orders and to its venue. -/
theorem mem_compute_outbox (hm : m ∈ (compute v inbox step).outbox) :
    m ∈ v.outbox ∨ m.type = .priceUpdate ∧ (Over v 1 m ∨ Over v 2 m) := by
  rw [compute_eq, List.mem_append, List.mem_append] at hm
  rcases hm with (hold | hforwarded) | hupstream
  · exact .inl hold
  · obtain ⟨⟨msg, -, htype, hpayload⟩, hover⟩ := mem_forwarded hforwarded
    refine .inr ⟨?_, .inl hover⟩
    rw [← htype, Message.type, hpayload, Message.type]
  · obtain ⟨⟨u, hu, hpayload⟩, hover⟩ := mem_upstream hupstream
    obtain ⟨bidQty, askQty, hprices⟩ := payload_generated hu
    exact .inr ⟨by simp [Message.type, hpayload, hprices], .inr hover⟩

/-- Their prices: those of a quote in the inbox, or the price of the level. -/
theorem payload_compute_outbox (hm : m ∈ (compute v inbox step).outbox) :
    m ∈ v.outbox ∨ (∃ msg ∈ inbox, msg.type = .priceUpdate ∧ m.payload = msg.payload) ∨
      ∃ bidQty askQty, m.payload = .priceUpdate (if v.state.side = .bid then v.state.price else 0)
        (if v.state.side = .ask then v.state.price else 0) bidQty askQty := by
  rw [compute_eq, List.mem_append, List.mem_append] at hm
  rcases hm with (hold | hforwarded) | hupstream
  · exact .inl hold
  · exact .inr (.inl (mem_forwarded hforwarded).1)
  · obtain ⟨⟨u, hu, hpayload⟩, -⟩ := mem_upstream hupstream
    rw [hpayload]
    exact .inr (.inr (payload_generated hu))

end Sent

/-! ### Fills -/

/-- The branch of `compute` for an ORDER_FILL, on integers without a bound. -/
def exactFill (s : Int × Int) (qty : UInt64) : Int × Int :=
  if (qty.toNat : Int) ≥ s.1 then (0, 0)
  else (s.1 - qty.toNat, if s.2 > 0 then s.2 - 1 else s.2)

/-- The quantity and the number of orders of a level. -/
def counters (l : PriceLevelVertex) : Int × Int := (l.totalQty.toNat, l.orderCount.toNat)

/-- The sum of these quantities, beyond 64 bits. -/
def total (qs : List UInt64) : Nat := (qs.map UInt64.toNat).sum

section Fills

variable (l : PriceLevelVertex)

/-- Neither subtraction wraps. -/
theorem counters_fill (qty : UInt64) : (l.fill qty).counters = exactFill l.counters qty := by
  have hle : qty ≥ l.totalQty ↔ (qty.toNat : Int) ≥ l.totalQty.toNat := by
    rw [ge_iff_le, UInt64.le_iff_toNat_le]
    omega
  have hpos : l.orderCount > 0 ↔ (l.orderCount.toNat : Int) > 0 := by
    rw [gt_iff_lt, UInt32.lt_iff_toNat_lt, UInt32.toNat_zero]
    omega
  unfold fill counters exactFill
  by_cases hfull : qty ≥ l.totalQty
  · rw [if_pos hfull, if_pos (hle.mp hfull)]
    rfl
  · rw [if_neg hfull, if_neg (hle.not.mp hfull)]
    have hless : qty < l.totalQty := UInt64.not_le.mp hfull
    have hqty : (l.totalQty - qty).toNat = l.totalQty.toNat - qty.toNat :=
      UInt64.toNat_sub_of_le _ _ (UInt64.le_of_lt hless)
    have hnat := UInt64.lt_iff_toNat_lt.mp hless
    apply Prod.ext (by simp only [hqty]; omega)
    by_cases hcount : l.orderCount > 0
    · have hone : (l.orderCount - 1).toNat = l.orderCount.toNat - 1 :=
        UInt32.toNat_sub_of_le _ _ (UInt32.lt_iff_toNat_lt.mp hcount)
      have hcount' := hpos.mp hcount
      simp only [if_pos hcount, if_pos hcount', hone]
      omega
    · simp only [if_neg hcount, if_neg (hpos.not.mp hcount)]

theorem counters_foldl_fill (qs : List UInt64) :
    (qs.foldl fill l).counters = qs.foldl exactFill l.counters := by
  induction qs generalizing l with
  | nil => rfl
  | cons q qs ih => rw [List.foldl_cons, List.foldl_cons, ih, counters_fill]

end Fills

/-- The number of orders after the fills `qs` of a level with `t` in `c` orders. -/
def countAfter (t c : Nat) (qs : List UInt64) : Nat :=
  if 0 < qs.length ∧ t ≤ total qs then 0 else c - qs.length

/-- The loop over the fills in closed form. -/
theorem foldl_exactFill (qs : List UInt64) (t c : Nat) :
    qs.foldl exactFill (t, c) = (((t - total qs : Nat) : Int), (countAfter t c qs : Int)) := by
  induction qs generalizing t c with
  | nil => simp [total, countAfter]
  | cons q qs ih =>
      have htotal : total (q :: qs) = q.toNat + total qs := by simp [total]
      rw [List.foldl_cons]
      by_cases hfull : t ≤ q.toNat
      · have hstep : exactFill (t, c) q = (((0 : Nat) : Int), ((0 : Nat) : Int)) := by
          simp [exactFill, hfull]
        have hqty : t - total (q :: qs) = 0 - total qs := by omega
        have hcount : countAfter t c (q :: qs) = countAfter 0 0 qs := by
          rw [countAfter, countAfter, if_pos ⟨Nat.succ_pos _, by omega⟩]
          split <;> omega
        rw [hstep, ih, hqty, hcount]
      · have hstep : exactFill (t, c) q = (((t - q.toNat : Nat) : Int), ((c - 1 : Nat) : Int)) := by
          have hfull' : ¬ (q.toNat : Int) ≥ t := by omega
          simp only [exactFill, if_neg hfull']
          apply Prod.ext (by simp only; omega)
          by_cases hc : (c : Int) > 0
          · simp only [if_pos hc]
            omega
          · simp only [if_neg hc]
            omega
        have hqty : t - total (q :: qs) = t - q.toNat - total qs := by omega
        have hcount : countAfter t c (q :: qs) = countAfter (t - q.toNat) (c - 1) qs := by
          unfold countAfter
          rw [htotal, List.length_cons]
          by_cases hcover : t ≤ q.toNat + total qs
          · -- the rest of the level is taken by what is left of the list
            have hsome : 0 < qs.length := by
              rcases qs with _ | ⟨q', qs⟩
              · simp [total] at hcover
                omega
              · exact Nat.succ_pos _
            rw [if_pos ⟨Nat.succ_pos _, hcover⟩, if_pos ⟨hsome, by omega⟩]
          · rw [if_neg fun h => hcover h.2, if_neg fun h => hcover (by omega)]
            omega
        rw [hstep, ih, hqty, hcount]

/-- **The quantity and the number of orders after any fills.** -/
theorem foldl_fill (l : PriceLevelVertex) (qs : List UInt64) :
    (qs.foldl fill l).totalQty.toNat = l.totalQty.toNat - total qs ∧
      (qs.foldl fill l).orderCount.toNat = countAfter l.totalQty.toNat l.orderCount.toNat qs := by
  have hexact : (qs.foldl fill l).counters = _ :=
    (counters_foldl_fill l qs).trans (foldl_exactFill qs l.totalQty.toNat l.orderCount.toNat)
  obtain ⟨hqty, hcount⟩ := Prod.ext_iff.mp hexact
  exact ⟨Int.ofNat_inj.mp hqty, Int.ofNat_inj.mp hcount⟩

theorem total_perm {qs qs' : List UInt64} (perm : qs'.Perm qs) : total qs' = total qs :=
  (perm.map _).sum_eq

/-- The order of the fills makes no difference. -/
theorem foldl_fill_perm (l : PriceLevelVertex) {qs qs' : List UInt64} (perm : qs'.Perm qs) :
    qs'.foldl fill l = qs.foldl fill l := by
  obtain ⟨hqty', hcount'⟩ := foldl_fill l qs'
  obtain ⟨hqty, hcount⟩ := foldl_fill l qs
  rw [total_perm perm, ← hqty] at hqty'
  rw [countAfter, total_perm perm, perm.length_eq, ← countAfter, ← hcount] at hcount'
  obtain ⟨q', c', heq'⟩ := foldl_fill_frame l qs'
  obtain ⟨q, c, heq⟩ := foldl_fill_frame l qs
  rw [heq', heq] at hqty' hcount' ⊢
  obtain rfl := UInt64.toNat_inj.mp hqty'
  obtain rfl := UInt32.toNat_inj.mp hcount'
  rfl

/-- **Fills in closed form.** Whatever a level gets: its quantity afterwards is what the sum
of the fills leaves of it, and its number of orders is 0 if there was a fill and the sum
covers the quantity, else what the number of fills leaves of it. The loop does what it would do
on integers without a bound, up to each of the fills. Another order of the inbox gives the
same fields, the same report and the same messages to the orders, in another order. -/
theorem fills_closed_form (v : Vertex PriceLevelVertex Message) (inbox : List Message)
    (step : Superstep) :
    (compute v inbox step).state.totalQty.toNat = v.state.totalQty.toNat - total (fills inbox) ∧
      (compute v inbox step).state.orderCount.toNat =
        (if 0 < (fills inbox).length ∧ v.state.totalQty.toNat ≤ total (fills inbox) then 0
          else v.state.orderCount.toNat - (fills inbox).length) ∧
      (∀ qs, qs <+: fills inbox →
        (qs.foldl fill v.state).counters = qs.foldl exactFill v.state.counters) ∧
      (compute v inbox step).outbox =
        v.outbox ++ forwarded v inbox step ++ upstream v (generated v.state inbox step) ∧
      ∀ inbox', inbox'.Perm inbox →
        (compute v inbox' step).state = (compute v inbox step).state ∧
        (compute v inbox' step).halted = (compute v inbox step).halted ∧
        generated v.state inbox' step = generated v.state inbox step ∧
        (forwarded v inbox' step).Perm (forwarded v inbox step) := by
  refine ⟨?_, ?_, fun qs _ => counters_foldl_fill v.state qs, by rw [compute_eq], ?_⟩
  · rw [compute_eq]
    exact (foldl_fill v.state (fills inbox)).1
  · rw [compute_eq]
    exact (foldl_fill v.state (fills inbox)).2
  · intro inbox' perm
    have hfold : (fills inbox').foldl fill v.state = (fills inbox).foldl fill v.state :=
      foldl_fill_perm v.state (perm.filterMap fillQty)
    have hempty : inbox'.isEmpty = inbox.isEmpty := perm.isEmpty_eq
    refine ⟨?_, ?_, ?_, perm.flatMap_right _⟩
    · rw [compute_eq, compute_eq, hfold]
    · rw [compute_eq, compute_eq, hfold, hempty]
    · rw [generated, generated, hfold]

/-! ### The life of a level -/

/-- What each of these calls of `compute` reports. -/
def reports (v : Vertex PriceLevelVertex Message) :
    List (List Message × Superstep) → List (Option Message)
  | [] => []
  | (inbox, step) :: inputs =>
      generated v.state inbox step :: reports (compute v inbox step).clearOutbox inputs

theorem reports_concat (v : Vertex PriceLevelVertex Message)
    (inputs : List (List Message × Superstep)) (inbox : List Message) (step : Superstep) :
    reports v (inputs ++ [(inbox, step)]) =
      reports v inputs ++ [generated (v.feed compute inputs).2.state inbox step] := by
  induction inputs generalizing v with
  | nil => rfl
  | cons input inputs ih =>
      simp only [List.cons_append, reports, ih]
      rfl

theorem foldl_fill_prev (l : PriceLevelVertex) (qs : List UInt64) (q : Int64) :
    qs.foldl fill { l with prevTotalQty := q } = { qs.foldl fill l with prevTotalQty := q } := by
  induction qs generalizing l with
  | nil => rfl
  | cons q' qs ih =>
      rw [List.foldl_cons, List.foldl_cons, ← ih]
      congr 1
      unfold fill
      split <;> rfl

/-- After any calls, a level is what the fills of all inboxes make of it, and it remembers
the quantity after the last call. -/
theorem feed_state (v : Vertex PriceLevelVertex Message)
    (inputs : List (List Message × Superstep)) :
    (v.feed compute inputs).2.state =
      { (fills (Vertex.received inputs)).foldl fill v.state with
        prevTotalQty := if inputs = [] then v.state.prevTotalQty
          else ((fills (Vertex.received inputs)).foldl fill v.state).totalQty.toInt64 } := by
  induction inputs using List.reverseRecOn with
  | nil => rfl
  | append_singleton inputs input ih =>
      obtain ⟨inbox, step⟩ := input
      have hfills : fills (Vertex.received inputs ++ inbox) =
          fills (Vertex.received inputs) ++ fills inbox := List.filterMap_append
      rw [Vertex.feed_concat, Vertex.received_concat, hfills, List.foldl_append,
        if_neg (by simp)]
      show (compute (v.feed compute inputs).2 inbox step).state = _
      rw [compute_eq, ih, foldl_fill_prev]

/-- **A level without orders.** For a level that starts with no orders if and only if it
starts with no quantity, after any calls of `compute`: no quantity means no orders, and there
are no orders if and only if there is no quantity or as many fills have come in as there
were orders. So the two run out together as long as a level with quantity left has got fewer
fills than it had orders, and no longer. -/
theorem order_count_zero_iff {v : Vertex PriceLevelVertex Message}
    (start : v.state.orderCount = 0 ↔ v.state.totalQty = 0)
    (inputs : List (List Message × Superstep)) :
    ((v.feed compute inputs).2.state.totalQty = 0 → (v.feed compute inputs).2.state.orderCount = 0) ∧
      ((v.feed compute inputs).2.state.orderCount = 0 ↔
        (v.feed compute inputs).2.state.totalQty = 0 ∨
          v.state.orderCount.toNat ≤ (fills (Vertex.received inputs)).length) ∧
      (((v.feed compute inputs).2.state.orderCount = 0 ↔
          (v.feed compute inputs).2.state.totalQty = 0) ↔
        (total (fills (Vertex.received inputs)) < v.state.totalQty.toNat →
          (fills (Vertex.received inputs)).length < v.state.orderCount.toNat)) := by
  rw [feed_state]
  obtain ⟨hqty, hcount⟩ := foldl_fill v.state (fills (Vertex.received inputs))
  set l := (fills (Vertex.received inputs)).foldl fill v.state
  have hzeroQty : ∀ x : UInt64, x = 0 ↔ x.toNat = 0 := fun x => by
    rw [← UInt64.toNat_inj, UInt64.toNat_zero]
  have hzeroCount : ∀ x : UInt32, x = 0 ↔ x.toNat = 0 := fun x => by
    rw [← UInt32.toNat_inj, UInt32.toNat_zero]
  simp only [hzeroQty, hzeroCount] at start ⊢
  rw [hqty, hcount, countAfter]
  set n := (fills (Vertex.received inputs)).length
  have hnone : n = 0 → total (fills (Vertex.received inputs)) = 0 := by
    intro h
    have hnil : fills (Vertex.received inputs) = [] := List.length_eq_zero_iff.mp h
    rw [hnil]
    rfl
  split <;> omega

/-- A level of 100 in two orders gets two fills of 10: it has 80 and no orders. -/
theorem count_runs_out_first :
    let v := new 7 0 { price := 5, side := .bid, totalQty := 100, orderCount := 2, venueId := 0 }
    let inputs : List (List Message × Superstep) :=
      [([⟨8, 7, 0, .orderFill 5 10 0⟩], 1), ([⟨9, 7, 1, .orderFill 5 10 0⟩], 2)]
    (v.state.orderCount = 0 ↔ v.state.totalQty = 0) ∧
      (v.feed compute inputs).2.state.totalQty = 80 ∧
      (v.feed compute inputs).2.state.orderCount = 0 := by
  decide +kernel

/-- The same level after its first fill, and another one after a fill of all it has. -/
theorem order_count_zero_iff_partial :
    let v := new 7 0 { price := 5, side := .bid, totalQty := 100, orderCount := 2, venueId := 0 }
    let fill : UInt64 → List (List Message × Superstep) :=
      fun qty => [([⟨8, 7, 0, .orderFill 5 qty 0⟩], 1)]
    (v.feed compute (fill 10)).2.state.orderCount ≠ 0 ∧
      (v.feed compute (fill 100)).2.state.orderCount = 0 := by
  intro v fill
  have start : v.state.orderCount = 0 ↔ v.state.totalQty = 0 := by decide
  obtain ⟨-, hpartial, -⟩ := order_count_zero_iff start (fill 10)
  obtain ⟨hall, -, -⟩ := order_count_zero_iff start (fill 100)
  refine ⟨fun hzero => ?_, hall (by decide +kernel)⟩
  rcases hpartial.mp hzero with hqty | hcount
  · exact absurd hqty (by decide +kernel)
  · exact absurd hcount (by decide +kernel)

/-! ### Reports -/

/-- The message is a report of a level on this side: the other side of it is empty. -/
def IsReport (side : Side) (price : Int) (qty : UInt64) (m : Message) : Prop :=
  m.payload = match side with
    | .bid => .priceUpdate price 0 qty 0
    | .ask => .priceUpdate 0 price 0 qty

theorem isReport_update (l : PriceLevelVertex) (step : Superstep) :
    IsReport l.side l.price l.totalQty (l.update step) := by
  cases hside : l.side <;> simp [IsReport, update, Message.plain, hside]

/-- The last of these reports has this quantity; if there is none, the quantity is 0. -/
def LastReport (side : Side) (price : Int) (qty : UInt64) (rs : List (Option Message)) : Prop :=
  match rs.reduceOption.getLast? with
  | none => qty = 0
  | some m => IsReport side price qty m

/-- The quantity after the previous call of `compute`, and 0 before the first one. -/
def previousQty (v : Vertex PriceLevelVertex Message) (before : List (List Message × Superstep)) :
    UInt64 :=
  if before = [] then 0 else (v.feed compute before).2.state.totalQty

section Reports

variable (id : VertexId) (owner : WorkerId) (st : State) (edges : List Edge)

/-- A new level with these edges. -/
def opened : Vertex PriceLevelVertex Message := (new id owner st).withEdges edges

theorem prev_feed (before : List (List Message × Superstep)) :
    ((opened id owner st edges).feed compute before).2.state.prevTotalQty.toUInt64 =
      previousQty (opened id owner st edges) before := by
  rw [previousQty, feed_state]
  split
  · rfl
  · exact UInt64.toUInt64_toInt64 _

/-- A call reports the quantity that it leaves, if it differs from the previous one. -/
theorem generated_feed (before : List (List Message × Superstep)) (inbox : List Message)
    (step : Superstep) :
    let w := ((opened id owner st edges).feed compute before).2
    generated w.state inbox step =
      if (compute w inbox step).state.totalQty ≠ previousQty (opened id owner st edges) before then
        some (((fills inbox).foldl fill w.state).update step)
      else none := by
  intro w
  obtain ⟨q, c, heq⟩ := foldl_fill_frame w.state (fills inbox)
  have hprev : ((fills inbox).foldl fill w.state).prevTotalQty.toUInt64 =
      previousQty (opened id owner st edges) before := by
    rw [heq]
    exact prev_feed id owner st edges before
  have hqty : (compute w inbox step).state.totalQty =
      ((fills inbox).foldl fill w.state).totalQty := by
    rw [compute_eq]
  rw [generated, hprev, hqty]

theorem generated_eq_none_iff (before : List (List Message × Superstep)) (inbox : List Message)
    (step : Superstep) :
    let w := ((opened id owner st edges).feed compute before).2
    generated w.state inbox step = none ↔
      (compute w inbox step).state.totalQty = previousQty (opened id owner st edges) before := by
  intro w
  rw [generated_feed id owner st edges before inbox step]
  split
  next hne => exact iff_of_false (by simp) hne
  next heq => exact iff_of_true rfl (not_not.mp heq)

/-- A report has the quantity that the call leaves. -/
theorem isReport_generated {before : List (List Message × Superstep)} {inbox : List Message}
    {step : Superstep} {m : Message}
    (hm : generated ((opened id owner st edges).feed compute before).2.state inbox step = some m) :
    IsReport st.side st.price
      (compute ((opened id owner st edges).feed compute before).2 inbox step).state.totalQty m := by
  set w := ((opened id owner st edges).feed compute before).2 with hw
  obtain ⟨q, c, heq⟩ := foldl_fill_frame (opened id owner st edges).state
    (fills (Vertex.received before))
  have hside : w.state.side = st.side ∧ w.state.price = st.price := by
    rw [hw, feed_state, heq]
    exact ⟨rfl, rfl⟩
  obtain ⟨q', c', heq'⟩ := foldl_fill_frame w.state (fills inbox)
  have hreport := isReport_update ((fills inbox).foldl fill w.state) step
  obtain rfl : ((fills inbox).foldl fill w.state).update step = m := by
    rw [generated_feed id owner st edges before inbox step] at hm
    split at hm
    · exact Option.some.inj hm
    · cases hm
  rw [compute_eq]
  rw [heq'] at hreport ⊢
  rw [← hside.1, ← hside.2]
  exact hreport

/-- One more report, made or not. -/
theorem LastReport.concat {side : Side} {price : Int} {qty : UInt64} {rs : List (Option Message)}
    {upd : Option Message} (kept : upd = none → LastReport side price qty rs)
    (made : ∀ m, upd = some m → IsReport side price qty m) :
    LastReport side price qty (rs ++ [upd]) := by
  unfold LastReport
  rw [List.reduceOption_append]
  cases upd with
  | none => simpa [LastReport, List.reduceOption] using kept rfl
  | some m => simpa [List.reduceOption] using made m rfl

theorem lastReport_reports (before : List (List Message × Superstep)) (inbox : List Message)
    (step : Superstep) :
    LastReport st.side st.price
      (compute ((opened id owner st edges).feed compute before).2 inbox step).state.totalQty
      (reports (opened id owner st edges) (before ++ [(inbox, step)])) := by
  rw [reports_concat]
  refine LastReport.concat (fun hnone => ?_) fun m hm => isReport_generated id owner st edges hm
  -- no report: the quantity is that of the previous call, whose report was the last one
  have hsame := (generated_eq_none_iff id owner st edges before inbox step).mp hnone
  induction before using List.reverseRecOn generalizing inbox step with
  | nil => exact hsame
  | append_singleton before input ih =>
      obtain ⟨inbox', step'⟩ := input
      rw [previousQty, if_neg (by simp), Vertex.feed_concat] at hsame
      rw [Vertex.feed_concat, hsame, reports_concat]
      refine LastReport.concat (fun hnone' => ?_) fun m hm => isReport_generated id owner st edges hm
      exact ih inbox' step' hnone'
        ((generated_eq_none_iff id owner st edges before inbox' step').mp hnone')

end Reports

/-- **The view upstream is never stale.** After any call of `compute` in the life of a new
level: the last report that it made has its present quantity on its own side and nothing on
the other one, and if it has made none, its quantity is 0; this call made a report if and only
if the quantity differs from that after the previous call; and what it sent is what it
forwarded and the report, over the edges to the venue. All quantities of 64 bits are covered,
though the level remembers the last one as a signed integer. -/
theorem upstream_never_stale (id : VertexId) (owner : WorkerId) (st : State) (edges : List Edge)
    (before : List (List Message × Superstep)) (inbox : List Message) (step : Superstep) :
    let v := opened id owner st edges
    let w := (v.feed compute before).2
    LastReport st.side st.price (compute w inbox step).state.totalQty
        (reports v (before ++ [(inbox, step)])) ∧
      ((generated w.state inbox step).isSome ↔
        (compute w inbox step).state.totalQty ≠ previousQty v before) ∧
      (compute w inbox step).outbox =
        w.outbox ++ forwarded w inbox step ++ upstream w (generated w.state inbox step) := by
  intro v w
  refine ⟨lastReport_reports id owner st edges before inbox step, ?_, by rw [compute_eq]⟩
  rw [Option.isSome_iff_ne_none]
  exact (generated_eq_none_iff id owner st edges before inbox step).not

end PriceLevelVertex

end Pregel
