import Pregel.Lib.Range
import Pregel.OrderBook.PriceLevel
import Pregel.OrderBook.Venue

/-!
The depth of a venue.

A level reports its whole quantity whenever it has changed, and a venue adds every report to
its size: it never takes an earlier report of the same level back. An ask is added only if
it was the lowest so far.

* `latest`, `depth`: what each level of a venue reported last, and the sum of it.
* `size_readMessage`: what one report adds.
* `deep_readMessage_iff`: one report keeps the sizes right if and only if it counts and its
  level had nothing, or it does not count and repeats the last one.
* `venue_depth`: the sizes along a run of such reports.
-/

namespace Pregel

namespace VenueVertex

/-- A level of a venue: what its reports have in common. -/
structure Listing where
  id : VertexId
  side : Side
  price : Int
  deriving DecidableEq, Repr

/-- The quantity of a report on one side. -/
def qtyOn (side : Side) (m : Message) : UInt64 :=
  match m.payload, side with
  | .priceUpdate _ _ bidQty _, .bid => bidQty
  | .priceUpdate _ _ _ askQty, .ask => askQty
  | _, _ => 0

/-- The quantity that a level reported last, among these messages. -/
def latest (l : Listing) (ms : List Message) : Nat :=
  ((ms.filter (·.src = l.id)).getLast?.map fun m => (qtyOn l.side m).toNat).getD 0

/-- The sum of what the levels on this side reported last. -/
def depth (levels : List Listing) (side : Side) (ms : List Message) : Nat :=
  ((levels.filter (·.side = side)).map fun l => latest l ms).sum

/-- The message is a report of one of the levels. -/
def IsReportOf (levels : List Listing) (m : Message) : Prop :=
  ∃ l ∈ levels, m.src = l.id ∧ ∃ qty, PriceLevelVertex.IsReport l.side l.price qty m

/-- `bid_size` and `ask_size`. -/
def size (u : VenueVertex) : Side → UInt64
  | .bid => u.bidSize
  | .ask => u.askSize

/-- The sizes of a venue are the depth of its book, after these messages. -/
def Deep (levels : List Listing) (u : VenueVertex) (ms : List Message) : Prop :=
  u.bidSize.toNat = depth levels .bid ms ∧ u.askSize.toNat = depth levels .ask ms

/-- The venue adds a report of this level after `before`: the price is positive, and an ask
is below the best one and below all before it. -/
def Counts (u : VenueVertex) (before : List Message) (l : Listing) : Prop :=
  0 < l.price ∧
    (l.side = .ask → Improves u.bestAsk l.price ∧ ∀ x ∈ asks before, l.price < x.1)

/-- A report after `past` and, in the same inbox, `before`: if it counts, its level had
nothing; if it does not, it repeats what its level had. -/
def Fits (levels : List Listing) (u : VenueVertex) (past before : List Message) (m : Message) :
    Prop :=
  ∀ l ∈ levels, m.src = l.id →
    (Counts u before l → latest l (past ++ before) = 0) ∧
      (¬ Counts u before l → (qtyOn l.side m).toNat = latest l (past ++ before))

theorem latest_concat (l : Listing) (ms : List Message) (m : Message) :
    latest l (ms ++ [m]) = if m.src = l.id then (qtyOn l.side m).toNat else latest l ms := by
  unfold latest
  by_cases hm : m.src = l.id
  · simp [hm]
  · simp [hm]

theorem latest_lt (l : Listing) (ms : List Message) : latest l ms < 2 ^ 64 := by
  unfold latest
  cases (ms.filter (·.src = l.id)).getLast? with
  | none => simp
  | some m => exact (qtyOn l.side m).toNat_lt

theorem qtyOn_of_isReport {side : Side} {price : Int} {qty : UInt64} {m : Message}
    (h : PriceLevelVertex.IsReport side price qty m) : qtyOn side m = qty := by
  unfold PriceLevelVertex.IsReport at h
  cases side <;> simp [qtyOn, h]

section Report

variable {levels : List Listing} {u : VenueVertex} {l : Listing} {m : Message} {qty : UInt64}

/-- One report changes the depth of its own side by what it differs from the last one. -/
theorem depth_concat (distinct : (levels.map Listing.id).Nodup) (hl : l ∈ levels)
    (hsrc : m.src = l.id) (ms : List Message) :
    depth levels l.side (ms ++ [m]) + latest l ms =
        depth levels l.side ms + (qtyOn l.side m).toNat ∧
      ∀ side, side ≠ l.side → depth levels side (ms ++ [m]) = depth levels side ms := by
  have hother : ∀ x ∈ levels, x ≠ l → latest x (ms ++ [m]) = latest x ms := by
    intro x hx hne
    rw [latest_concat, if_neg]
    exact fun hid => hne (List.inj_on_of_nodup_map distinct hx hl (hid.symm.trans hsrc))
  constructor
  · have hsum : depth levels l.side (ms ++ [m]) + latest l ms =
        depth levels l.side ms + latest l (ms ++ [m]) :=
      List.sum_map_update ((distinct.of_map _).filter _) (by simp [hl])
        fun x hx hne => hother x (List.mem_of_mem_filter hx) hne
    simp only [latest_concat l, if_pos hsrc] at hsum
    exact hsum
  · intro side hside
    unfold depth
    congr 1
    refine List.map_congr_left fun x hx => hother x (List.mem_of_mem_filter hx) ?_
    rintro rfl
    have hx' : x.side = side := by simpa using (List.mem_filter.mp hx).2
    exact hside hx'.symm

/-- What one report adds to the sizes of a venue. -/
theorem size_readMessage (u : VenueVertex) (h : PriceLevelVertex.IsReport l.side l.price qty m) :
    (Counts u [] l → (u.readMessage m).size l.side = u.size l.side + qty) ∧
      (¬ Counts u [] l → (u.readMessage m).size l.side = u.size l.side) ∧
      ∀ side, side ≠ l.side → (u.readMessage m).size side = u.size side := by
  unfold PriceLevelVertex.IsReport at h
  cases hside : l.side with
  | bid =>
      have hread : u.readMessage m = u.readBid l.price qty := by
        rw [hside] at h
        simp [readMessage, h, readAsk]
      rw [hread, readBid]
      refine ⟨fun hcounts => ?_, fun hcounts => ?_, fun side hne => ?_⟩
      · rw [if_pos hcounts.1]
        rfl
      · have hprice : ¬ l.price > 0 := fun hprice => hcounts ⟨hprice, by simp [hside]⟩
        rw [if_neg hprice]
      · cases side with
        | bid => exact absurd rfl hne
        | ask => split <;> rfl
  | ask =>
      have hread : u.readMessage m = u.readAsk l.price qty := by
        rw [hside] at h
        simp [readMessage, h, readBid]
      rw [hread, readAsk]
      refine ⟨fun hcounts => ?_, fun hcounts => ?_, fun side hne => ?_⟩
      · rw [if_pos ⟨hcounts.1, (hcounts.2 hside).1⟩]
        rfl
      · have hnot : ¬ (l.price > 0 ∧ (u.bestAsk = 0 ∨ l.price < u.bestAsk)) := fun hadds =>
          hcounts ⟨hadds.1, fun _ => ⟨hadds.2, by simp [asks]⟩⟩
        rw [if_neg hnot]
      · cases side with
        | ask => exact absurd rfl hne
        | bid => split <;> rfl

/-- An ask against the best one after some messages. -/
theorem improves_foldl_iff (u : VenueVertex) (before : List Message) (ask : Int) :
    Improves (before.foldl readMessage u).bestAsk ask ↔
      Improves u.bestAsk ask ∧ ∀ x ∈ asks before, ask < x.1 := by
  rw [improves_iff, bestAsk_eq, Record.below_foldl_record_iff, improves_iff]

/-- What counts after some messages of an inbox. -/
theorem counts_foldl_iff (u : VenueVertex) (before : List Message) (l : Listing) :
    Counts (before.foldl readMessage u) [] l ↔ Counts u before l := by
  unfold Counts
  rw [improves_foldl_iff]
  simp [asks]

theorem deep_iff_size (u : VenueVertex) (ms : List Message) :
    Deep levels u ms ↔ ∀ side, (u.size side).toNat = depth levels side ms :=
  ⟨fun h side => by cases side; exacts [h.1, h.2], fun h => ⟨h .bid, h .ask⟩⟩

/-- **One report keeps the sizes right** if and only if it fits, as long as the depth itself
can be counted. -/
theorem deep_readMessage_iff (distinct : (levels.map Listing.id).Nodup) (report : IsReportOf levels m)
    {past before : List Message} (deep : Deep levels (before.foldl readMessage u) (past ++ before))
    (bounded : ∀ side, depth levels side (past ++ before ++ [m]) < 2 ^ 64) :
    Deep levels ((before.foldl readMessage u).readMessage m) (past ++ before ++ [m]) ↔
      Fits levels u past before m := by
  obtain ⟨l, hl, hsrc, qty, hreport⟩ := report
  have hqty := qtyOn_of_isReport hreport
  obtain ⟨hown, hother⟩ := depth_concat distinct hl hsrc (past ++ before)
  obtain ⟨hadd, hskip, hsame⟩ := size_readMessage (before.foldl readMessage u) hreport
  rw [counts_foldl_iff] at hadd hskip
  -- the other side stays as it is, and `l` is the only level that can have sent the message
  have hside : Deep levels ((before.foldl readMessage u).readMessage m) (past ++ before ++ [m]) ↔
      (((before.foldl readMessage u).readMessage m).size l.side).toNat =
        depth levels l.side (past ++ before ++ [m]) := by
    rw [deep_iff_size] at deep ⊢
    refine ⟨fun h => h l.side, fun h side => ?_⟩
    by_cases hne : side = l.side
    · rw [hne]
      exact h
    · rw [hsame side hne, hother side hne]
      exact deep side
  have hfits : Fits levels u past before m ↔
      (Counts u before l → latest l (past ++ before) = 0) ∧
        (¬ Counts u before l → qty.toNat = latest l (past ++ before)) := by
    refine ⟨fun h => hqty ▸ h l hl hsrc, fun h x hx hid => ?_⟩
    obtain rfl := List.inj_on_of_nodup_map distinct hx hl (hid.symm.trans hsrc)
    exact hqty.symm ▸ h
  have hdeep := (deep_iff_size _ _).mp deep l.side
  have hbound := bounded l.side
  have hlt := qty.toNat_lt
  rw [hqty] at hown
  rw [hside, hfits]
  by_cases hcounts : Counts u before l
  · rw [hadd hcounts, UInt64.toNat_add, hdeep]
    simp only [hcounts, forall_const, not_true, false_implies, and_true]
    have hold := latest_lt l (past ++ before)
    omega
  · rw [hskip hcounts, hdeep]
    simp only [hcounts, not_false_iff, forall_const, false_implies, true_and]
    omega

end Report

/-! ### Runs -/

/-- Every report of an inbox fits, and the depth can be counted after each of them. -/
def StepFits (levels : List Listing) (u : VenueVertex) (past inbox : List Message) : Prop :=
  ∀ before m after, inbox = before ++ m :: after →
    Fits levels u past before m ∧ ∀ side, depth levels side (past ++ before ++ [m]) < 2 ^ 64

section Runs

variable {levels : List Listing}

theorem deep_foldl (distinct : (levels.map Listing.id).Nodup) {u : VenueVertex}
    {past inbox : List Message} (deep : Deep levels u past)
    (reports : ∀ m ∈ inbox, IsReportOf levels m) (fits : StepFits levels u past inbox) :
    Deep levels (inbox.foldl readMessage u) (past ++ inbox) := by
  have hupto : ∀ before after, inbox = before ++ after →
      Deep levels (before.foldl readMessage u) (past ++ before) := by
    intro before
    induction before using List.reverseRecOn with
    | nil =>
        intro after _
        simpa using deep
    | append_singleton before m ih =>
        intro after hsplit
        rw [List.append_assoc] at hsplit
        obtain ⟨hfits, hbounded⟩ := fits before m after hsplit
        have hreport := reports m (by simp [hsplit])
        rw [List.foldl_append, ← List.append_assoc]
        exact (deep_readMessage_iff distinct hreport (ih _ hsplit) hbounded).mpr hfits
  exact hupto inbox [] (by simp)

theorem deep_compute (v : Vertex VenueVertex Message) (inbox : List Message) (step : Superstep)
    (ms : List Message) : Deep levels (compute v inbox step).state ms ↔
      Deep levels (inbox.foldl readMessage v.state) ms := by
  rw [compute_state]
  rfl

/-- **The depth of a venue.** Take a venue that starts with nothing, and any run on reports of
its levels. If at every step, in the state before it, every report fits and the depth can be
counted, then after every step the sizes are the sums of what the levels on each side
reported last. And after a step on a single report they are if and only if it fits. -/
theorem venue_depth (distinct : (levels.map Listing.id).Nodup) {v : Vertex VenueVertex Message}
    (start : v.state.bidSize = 0 ∧ v.state.askSize = 0) {inputs : List (List Message × Superstep)}
    (reports : ∀ m ∈ Vertex.received inputs, IsReportOf levels m) :
    ((∀ before inbox step after, inputs = before ++ (inbox, step) :: after →
        StepFits levels (v.feed compute before).2.state (Vertex.received before) inbox) →
      ∀ before, before <+: inputs →
        Deep levels (v.feed compute before).2.state (Vertex.received before)) ∧
    ∀ before m step after, inputs = before ++ ([m], step) :: after →
      Deep levels (v.feed compute before).2.state (Vertex.received before) →
      (∀ side, depth levels side (Vertex.received before ++ [m]) < 2 ^ 64) →
      (Deep levels (compute (v.feed compute before).2 [m] step).state (Vertex.received before ++ [m]) ↔
        Fits levels (v.feed compute before).2.state (Vertex.received before) [] m) := by
  constructor
  · intro fits before hprefix
    obtain ⟨after, rfl⟩ := hprefix
    induction before using List.reverseRecOn generalizing after with
    | nil =>
        have hnone : ∀ side, depth levels side [] = 0 := fun side => by simp [depth, latest]
        exact ⟨by simp [Vertex.feed, start.1, hnone], by simp [Vertex.feed, start.2, hnone]⟩
    | append_singleton before input ih =>
        obtain ⟨inbox, step⟩ := input
        rw [List.append_assoc] at fits reports
        have hdeep := ih _ reports fits
        have hstep := fits before inbox step after rfl
        rw [Vertex.feed_concat, Vertex.received_concat]
        refine (deep_compute _ inbox step _).mpr (deep_foldl distinct hdeep (fun m hm => ?_) hstep)
        refine reports m (List.mem_flatMap.mpr ⟨(inbox, step), by simp, hm⟩)
  · intro before m step after hsplit deep bounded
    have hreport := reports m (List.mem_flatMap.mpr ⟨([m], step), by simp [hsplit], by simp⟩)
    rw [deep_compute]
    set u := (v.feed compute before).2.state
    have hone : Deep levels ((([] : List Message).foldl readMessage u).readMessage m)
        (Vertex.received before ++ [] ++ [m]) ↔ Fits levels u (Vertex.received before) [] m :=
      deep_readMessage_iff distinct hreport (by simpa using deep) (by simpa using bounded)
    simpa using hone

end Runs

/-- A venue that starts with nothing. -/
def emptyVenue : Vertex VenueVertex Message :=
  new (fun _ => Stream'.const 0) 0 0
    { venueId := 0, name := "NYSE", bestBid := 150000000, bestAsk := 150000200 }

/-- One level on each side. -/
def twoLevels : List Listing := [⟨1, .bid, 149999900⟩, ⟨2, .ask, 150000100⟩]

/-- A report of the bid level. -/
def bidReport (qty : UInt64) : Message := ⟨1, 0, 0, .priceUpdate 149999900 0 qty 0⟩

/-- The first report of the bid level. -/
theorem venue_depth_one :
    Deep twoLevels (emptyVenue.feed compute [([bidReport 10], 1)]).2.state [bidReport 10] ∧
      depth twoLevels .bid [bidReport 10] = 10 := by
  have reports : ∀ m ∈ Vertex.received [([bidReport 10], 1)], IsReportOf twoLevels m := by
    intro m hm
    obtain rfl := List.mem_singleton.mp hm
    exact ⟨⟨1, .bid, 149999900⟩, by decide, rfl, 10, rfl⟩
  have fits : Fits twoLevels emptyVenue.state [] [] (bidReport 10) := by
    intro l hl hsrc
    simp only [twoLevels, List.mem_cons, List.not_mem_nil, or_false] at hl
    rcases hl with rfl | rfl
    · exact ⟨fun _ => rfl, fun hnot => absurd ⟨by decide, fun h => by cases h⟩ hnot⟩
    · exact absurd hsrc (by decide)
  refine ⟨(venue_depth (by decide) (v := emptyVenue) ⟨rfl, rfl⟩ reports).1 ?_ _ List.prefix_rfl,
    by decide +kernel⟩
  intro before inbox step after hsplit
  obtain ⟨rfl, rfl, rfl⟩ : before = [] ∧ inbox = [bidReport 10] ∧ after = [] := by
    rcases before with _ | ⟨x, before⟩ <;> simp_all
  intro before m after hinbox
  obtain ⟨rfl, rfl, rfl⟩ : before = [] ∧ m = bidReport 10 ∧ after = [] := by
    rcases before with _ | ⟨x, before⟩ <;> simp_all
  exact ⟨fits, fun side => by cases side <;> decide +kernel⟩

/-- The bid level reports 10 and, after a fill, 5: the venue counts 15. -/
theorem venue_counts_twice :
    let inputs : List (List Message × Superstep) := [([bidReport 10], 1), ([bidReport 5], 2)]
    (∀ m ∈ Vertex.received inputs, IsReportOf twoLevels m) ∧
      (emptyVenue.feed compute inputs).2.state.bidSize = 15 ∧
      depth twoLevels .bid (Vertex.received inputs) = 5 ∧
      ¬ Deep twoLevels (emptyVenue.feed compute inputs).2.state (Vertex.received inputs) := by
  intro inputs
  have hsize : (emptyVenue.feed compute inputs).2.state.bidSize = 15 := by decide +kernel
  have hdepth : depth twoLevels .bid (Vertex.received inputs) = 5 := by decide +kernel
  refine ⟨?_, hsize, hdepth, fun hdeep => ?_⟩
  · intro m hm
    simp only [inputs, Vertex.received_cons, Vertex.received_nil, List.append_nil, List.cons_append,
      List.nil_append, List.mem_cons, List.not_mem_nil, or_false] at hm
    rcases hm with rfl | rfl
    · exact ⟨⟨1, .bid, 149999900⟩, by decide, rfl, 10, rfl⟩
    · exact ⟨⟨1, .bid, 149999900⟩, by decide, rfl, 5, rfl⟩
  · have hbid := hdeep.1
    rw [hsize, hdepth] at hbid
    exact absurd hbid (by decide)

end VenueVertex

end Pregel
