import Pregel.OrderBook.Activity

/-!
Which orders ever hear a price.

An order has one edge into it, from its level, and a level has the prices that it forwards
from its venue. On several workers both edges have to stay on one worker, or the order hears
nothing: after eleven supersteps without a price it halts, and nothing wakes it again.

* `edge_to_order`, `edge_to_level`: who can send to an order, and prices to a level.
* `Served`: an order with both edges on its worker.
* `level_hears_iff`, `order_hears_iff`: when the prices get to a level and to an order.
* `order_activity`: how often an order computes in a run.
-/

namespace Pregel

open Lts
open WorkerNode (Phase Event)
open Layout
open GraphEngine (mail)

namespace OrderBook

variable {p : OrderBookGraphParams} {d : Draws} {config : EngineConfig}
  {loaded : List (Vertex BookState Message)}
  {trs : List (List (WorkerId × Event Message))} {k : Nat} {e e₁ : GraphEngine BookState Message}
  {timing : WorkerId → WorkerId → Nat} {tr : List (WorkerId × Event Message)}

/-! ### Edges -/

/-- An identifier belongs to one vertex. -/
theorem vertex_of_id {u w : Vertex BookState Message} (hu : u ∈ vertices p d)
    (hw : w ∈ vertices p d) (same : u.id = w.id) : u = w :=
  List.inj_on_of_nodup_map (wired_vertices p d).distinct hu hw same

theorem order_mem (d : Draws) {j o : Nat} (hj : j < levels p) (ho : o < orders p) :
    orderVertex p d j o ∈ vertices p d :=
  mem_vertices.mpr (.inr (.inl ⟨j, hj, o, ho, rfl⟩))

theorem level_mem (d : Draws) {j : Nat} (hj : j < levels p) :
    (levelVertex p d (orders p) j).map .priceLevel ∈ vertices p d :=
  mem_vertices.mpr (.inr (.inr (.inl ⟨j, hj, rfl⟩)))

theorem venue_mem (d : Draws) {v : Nat} (hv : v < venues p) :
    venueVertex p d (venueEdges p (levels p) (makers p) v) v ∈ vertices p d :=
  mem_vertices.mpr (.inl ⟨v, hv, rfl⟩)

theorem maker_mem (d : Draws) {m : Nat} (hm : m < makers p) :
    (makerVertex p d (venues p) (samples p) m).map .marketMaker ∈ vertices p d :=
  mem_vertices.mpr (.inr (.inr (.inr ⟨m, hm, rfl⟩)))

/-- The identifiers of the kinds differ. -/
theorem id_ne {u w : Vertex BookState Message} (hu : u ∈ vertices p d) (hw : w ∈ vertices p d)
    (type : u.type ≠ w.type) : u.id ≠ w.id :=
  fun same => type (congrArg Vertex.type (vertex_of_id hu hw same))

/-- Only its level has an edge to an order. -/
theorem edge_to_order {j o : Nat} (hj : j < levels p) (ho : o < orders p)
    {u : Vertex BookState Message} (hu : u ∈ vertices p d) {edge : Edge} (hedge : edge ∈ u.edges)
    (hdst : edge.dst = orderId p j o) : u = (levelVertex p d (orders p) j).map .priceLevel := by
  have horder := order_mem d hj ho
  rcases mem_vertices.mp hu with ⟨v, hv, rfl⟩ | ⟨i, hi, o', ho', rfl⟩ | ⟨i, hi, rfl⟩ | ⟨m, hm, rfl⟩
  · change edge ∈ venueEdges p (levels p) (makers p) v at hedge
    simp only [venueEdges, List.mem_append, List.mem_map, List.mem_filter, List.mem_range] at hedge
    rcases hedge with ⟨i, ⟨hi, -⟩, rfl⟩ | ⟨m, hm, rfl⟩
    · exact absurd hdst (id_ne (level_mem d hi) horder fun h => by cases h)
    · exact absurd hdst (id_ne (maker_mem d hm) horder fun h => by cases h)
  · obtain rfl := List.mem_singleton.mp hedge
    exact absurd hdst (id_ne (level_mem d hi) horder fun h => by cases h)
  · change edge ∈ levelEdges p (orders p) i at hedge
    simp only [levelEdges, List.mem_cons, List.mem_map, List.mem_range] at hedge
    rcases hedge with rfl | ⟨o', ho', rfl⟩
    · exact absurd hdst (id_ne (venue_mem d (levelVenue_lt hi)) horder fun h => by cases h)
    · have hsame := vertex_of_id (order_mem d hi ho') horder hdst
      have hedges := congrArg Vertex.edges hsame
      obtain rfl : i = j := levelId_inj.mp (congrArg Edge.dst (List.head_eq_of_cons_eq hedges))
      rfl
  · change edge ∈ makerEdges p d (venues p) (samples p) m at hedge
    simp only [makerEdges, List.mem_append, List.mem_map, List.mem_range] at hedge
    rcases hedge with ⟨v, hv, rfl⟩ | ⟨i, hi, rfl⟩
    · exact absurd hdst (id_ne (venue_mem d hv) horder fun h => by cases h)
    · exact absurd hdst (id_ne (level_mem d (sampled_lt hi)) horder fun h => by cases h)

/-- Only its venue sends prices to a level. -/
theorem edge_to_level {j : Nat} (hj : j < levels p) {u : Vertex BookState Message}
    (hu : u ∈ vertices p d) (prices : MaySend u.type .priceUpdate) {edge : Edge}
    (hedge : edge ∈ u.edges) (hdst : edge.dst = levelId p j) : u.id = levelVenue p j := by
  have hlevel := level_mem d hj
  rcases mem_vertices.mp hu with ⟨v, hv, rfl⟩ | ⟨i, hi, o', ho', rfl⟩ | ⟨i, hi, rfl⟩ | ⟨m, hm, rfl⟩
  · change edge ∈ venueEdges p (levels p) (makers p) v at hedge
    simp only [venueEdges, List.mem_append, List.mem_map, List.mem_filter, List.mem_range] at hedge
    rcases hedge with ⟨i, ⟨hi, hvenue⟩, rfl⟩ | ⟨m, hm, rfl⟩
    · obtain rfl := levelId_inj.mp hdst
      exact (of_decide_eq_true hvenue).symm
    · exact absurd hdst (id_ne (maker_mem d hm) hlevel fun h => by cases h)
  · cases prices
  · change edge ∈ levelEdges p (orders p) i at hedge
    simp only [levelEdges, List.mem_cons, List.mem_map, List.mem_range] at hedge
    rcases hedge with rfl | ⟨o', ho', rfl⟩
    · exact absurd hdst (id_ne (venue_mem d (levelVenue_lt hi)) hlevel fun h => by cases h)
    · exact absurd hdst (id_ne (order_mem d hi ho') hlevel fun h => by cases h)
  · cases prices

/-! ### Mail -/

/-- A vertex of the graph after a run, and between two supersteps. -/
theorem vertex_of_execution (order : loaded.Perm (vertices p d))
    (exec : GraphEngine.Execution BookState.compute (GraphEngine.load config loaded) trs k e)
    {u : Vertex BookState Message} (hu : u ∈ vertices p d) :
    ∃ v, (e.workers (u.id % config.workerCount)).vertices.lookup u.id = some v ∧
      u.SameFrame v ∧ v.state.type = v.type ∧ v.outbox = [] := by
  obtain ⟨v, hv, fed⟩ := fed_of_execution order exec hu
  obtain ⟨hrested, -⟩ := exec.outbox overEdgesRule (rested_load (wired_vertices p d) order config)
    fun _ _ => home_load
  have framed := (hrested _).vertices _ v hv
  obtain ⟨u', hu', hid, frame⟩ := framed.origin
  obtain rfl := vertex_of_id hu' hu hid
  exact ⟨v, hv, frame, framed.typed, fed.empty⟩

/-- The mail of a vertex was sent in the superstep before by a vertex of its worker. -/
theorem mem_mail_iff (order : loaded.Perm (vertices p d))
    (exec : GraphEngine.Execution BookState.compute (GraphEngine.load config loaded) trs k e)
    (run : GraphEngine.SuperstepRun BookState.compute k timing e tr e₁) (vid : VertexId)
    (m : Message) : m ∈ mail (vid % config.workerCount) vid (trs ++ [tr]) ↔
      m.dst = vid ∧ m.src % config.workerCount = vid % config.workerCount ∧
        m ∈ sentBy m.src tr := by
  rw [mail, List.getLast?_concat]
  exact mem_sentTo_iff (wired_vertices p d) order exec run vid m

theorem mail_nil (i : WorkerId) (vid : VertexId) :
    mail i vid ([] : List (List (WorkerId × Event Message))) = [] := rfl

/-- **A level hears prices** from the second superstep on, if its venue is on its worker. -/
theorem level_hears_iff (order : loaded.Perm (vertices p d)) (workers : 0 < config.workerCount)
    (exec : GraphEngine.Execution BookState.compute (GraphEngine.load config loaded) trs k e)
    {j : Nat} (hj : j < levels p) :
    (∃ m ∈ mail (levelId p j % config.workerCount) (levelId p j) trs, m.type = .priceUpdate) ↔
      0 < k ∧ levelVenue p j % config.workerCount = levelId p j % config.workerCount := by
  cases k with
  | zero =>
      obtain rfl := List.eq_nil_of_length_eq_zero exec.length_eq
      simp [mail_nil]
  | succ k =>
      obtain ⟨trs', tr, timing, e₀, rfl, exec', run⟩ := exec.exists_last
      simp only [mem_mail_iff order exec' run, Nat.succ_pos, true_and]
      constructor
      · rintro ⟨m, ⟨hdst, hsame, hsent⟩, htype⟩
        obtain ⟨i, boxes, hfinish, box, hbox, -, hmbox⟩ := mem_sentBy.mp hsent
        obtain ⟨-, hfrom⟩ := home_of_collected (wired_vertices p d) order exec' run hfinish hbox
        obtain ⟨-, u, hu, hid, hmay, edge, hedge, htarget⟩ := hfrom m hmbox
        rw [htype] at hmay
        rw [← edge_to_level hj hu hmay hedge (htarget.trans hdst), hid, hsame]
      · intro hsame
        obtain ⟨-, hquotes⟩ := venue_of_execution order workers (levelVenue_lt hj) exec
        have hlast : (trs' ++ [tr])[k]? = some tr := by
          rw [← exec'.length_eq, List.getElem?_concat_length]
        obtain ⟨-, bid, bidQty, askQty, hsent⟩ := hquotes k tr hlast
        refine ⟨⟨levelVenue p j, levelId p j, k, .priceUpdate bid (bid + 400) bidQty askQty⟩,
          ⟨rfl, hsame, ?_⟩, rfl⟩
        rw [hsent]
        refine List.mem_map.mpr ⟨⟨levelId p j, 1, 0⟩, List.mem_append_left _ ?_, rfl⟩
        exact List.mem_map.mpr ⟨j, List.mem_filter.mpr ⟨List.mem_range.mpr hj, by simp⟩, rfl⟩

/-- A level sends to its orders what it hears of prices. -/
theorem level_forwards_iff (order : loaded.Perm (vertices p d)) (workers : 0 < config.workerCount)
    (exec : GraphEngine.Execution BookState.compute (GraphEngine.load config loaded) trs k e)
    (run : GraphEngine.SuperstepRun BookState.compute k timing e tr e₁) {j o : Nat}
    (hj : j < levels p) (ho : o < orders p) :
    (∃ m ∈ sentBy (levelId p j) tr, m.dst = orderId p j o) ↔
      ∃ m ∈ mail (levelId p j % config.workerCount) (levelId p j) trs, m.type = .priceUpdate := by
  obtain ⟨v, hv, frame, htyped, hempty⟩ := vertex_of_execution order exec (level_mem d hj)
  have hid : v.id = levelId p j := frame.id
  have hedges : v.edges = levelEdges p (orders p) j := frame.edges
  have htype : v.state.type = .priceLevel := htyped.trans frame.type
  obtain ⟨l, hstate⟩ : ∃ l, v.state = .priceLevel l := by
    cases hstate : v.state with
    | priceLevel l => exact ⟨l, rfl⟩
    | _ =>
        rw [hstate] at htype
        cases htype
  set inbox := mail (levelId p j % config.workerCount) (levelId p j) trs
  set w : Vertex PriceLevelVertex Message := v.wakeUp.map fun _ => l
  have hcompute : (BookState.compute v.wakeUp inbox k).outbox =
      PriceLevelVertex.forwarded w inbox k ++
        PriceLevelVertex.upstream w (PriceLevelVertex.generated l inbox k) := by
    have hwake : v.wakeUp.state = .priceLevel l := hstate
    have houtbox : w.outbox = [] := hempty
    simp only [BookState.compute, hwake]
    change (PriceLevelVertex.compute w inbox k).outbox = _
    rw [PriceLevelVertex.compute_eq, houtbox]
    rfl
  have hown : (⟨orderId p j o, 1, 1⟩ : Edge) ∈ w.edges := by
    change _ ∈ v.edges
    rw [hedges]
    exact List.mem_cons_of_mem _ (List.mem_map.mpr ⟨o, List.mem_range.mpr ho, rfl⟩)
  have hsendIff : (∃ m ∈ (BookState.compute v.wakeUp inbox k).outbox, m.dst = orderId p j o) ↔
      ∃ m ∈ inbox, m.type = .priceUpdate := by
    rw [hcompute]
    constructor
    · rintro ⟨m, hm, hdst⟩
      rcases List.mem_append.mp hm with hm | hm
      · obtain ⟨⟨msg, hmsg, htype, -⟩, -⟩ := PriceLevelVertex.mem_forwarded hm
        exact ⟨msg, hmsg, htype⟩
      · -- a report goes to the venue
        obtain ⟨-, edge, hedge, htwo, htarget⟩ := PriceLevelVertex.mem_upstream hm
        change edge ∈ v.edges at hedge
        rw [hedges, levelEdges, List.mem_cons, List.mem_map] at hedge
        rcases hedge with rfl | ⟨o', -, rfl⟩
        · exact absurd (htarget.symm.trans hdst)
            (id_ne (venue_mem d (levelVenue_lt hj)) (order_mem d hj ho) fun h => by cases h)
        · cases htwo
    · rintro ⟨msg, hmsg, htype⟩
      refine ⟨w.stamp { msg with step := k } ⟨orderId p j o, 1, 1⟩, List.mem_append_left _ ?_, rfl⟩
      refine List.mem_flatMap.mpr ⟨msg, hmsg, ?_⟩
      rw [if_pos htype]
      exact List.mem_map_of_mem (List.mem_filter.mpr ⟨hown, rfl⟩)
  rcases GraphEngine.superstep_loaded exec run (Nat.mod_lt _ workers)
      (mem_load_vertices order config (level_mem d hj)) hv hempty with
    ⟨⟨-, hmail⟩, -, hsent, -⟩ | ⟨-, -, hsent, -⟩
  · change inbox = [] at hmail
    change sentBy (levelId p j) tr = [] at hsent
    simp [hsent, hmail]
  · change sentBy (levelId p j) tr = _ at hsent
    rw [hsent]
    exact hsendIff

/-- An order whose level and whose level's venue are on its worker. -/
def Served (p : OrderBookGraphParams) (W j o : Nat) : Prop :=
  (1 + o) % W = 0 ∧ levelVenue p j % W = levelId p j % W

/-- **An order hears prices** from the third superstep on, if it is served, and else nothing. -/
theorem order_hears_iff (order : loaded.Perm (vertices p d)) (workers : 0 < config.workerCount)
    (exec : GraphEngine.Execution BookState.compute (GraphEngine.load config loaded) trs k e)
    {j o : Nat} (hj : j < levels p) (ho : o < orders p) :
    mail (orderId p j o % config.workerCount) (orderId p j o) trs ≠ [] ↔
      1 < k ∧ Served p config.workerCount j o := by
  cases k with
  | zero =>
      obtain rfl := List.eq_nil_of_length_eq_zero exec.length_eq
      simp [mail_nil]
  | succ k =>
      obtain ⟨trs', tr, timing, e₀, rfl, exec', run⟩ := exec.exists_last
      have hforwards := level_forwards_iff order workers exec' run hj ho
      rw [level_hears_iff order workers exec' hj] at hforwards
      rw [Served, ← orderId_mod_iff p j o, Nat.succ_lt_succ_iff]
      constructor
      · intro hmail
        obtain ⟨m, hm⟩ := List.exists_mem_of_ne_nil _ hmail
        obtain ⟨hdst, hsame, hsent⟩ := (mem_mail_iff order exec' run _ m).mp hm
        -- the sender has an edge to the order, so it is its level
        obtain ⟨i, boxes, hfinish, box, hbox, -, hmbox⟩ := mem_sentBy.mp hsent
        obtain ⟨-, hfrom⟩ := home_of_collected (wired_vertices p d) order exec' run hfinish hbox
        obtain ⟨-, u, hu, hid, -, edge, hedge, htarget⟩ := hfrom m hmbox
        obtain rfl := edge_to_order hj ho hu hedge (htarget.trans hdst)
        rw [← hid] at hsame hsent
        obtain ⟨hlate, hvenue⟩ := hforwards.mp ⟨m, hsent, hdst⟩
        exact ⟨hlate, hsame.symm, hvenue⟩
      · rintro ⟨hlate, hsame, hvenue⟩
        obtain ⟨m, hsent, hdst⟩ := hforwards.mpr ⟨hlate, hvenue⟩
        obtain ⟨hsrc, -⟩ := overEdges_sentBy (wired_vertices p d) order exec' run _ m hsent
        apply List.ne_nil_of_mem (a := m)
        exact (mem_mail_iff order exec' run _ m).mpr ⟨hdst, by rw [hsrc, hsame], by rwa [hsrc]⟩

/-! ### How often an order computes -/

/-- Order `o` of level `j` after `n` computations without a message. -/
structure Waiting (p : OrderBookGraphParams) (d : Draws) (j o n : Nat)
    (v : Vertex BookState Message) : Prop where
  state : v.state =
    .order { toState := orderState p d j o, stepsWithoutFill := UInt32.ofNat n }
  halted : v.halted = decide (10 < n)
  empty : v.outbox = []

/-- Another one sends nothing, and the eleventh halts it. -/
theorem Waiting.next {j o n : Nat} {v : Vertex BookState Message} (waiting : Waiting p d j o n v)
    (early : n < 11) (k : Superstep) : (BookState.compute v.wakeUp [] k).outbox = [] ∧
      Waiting p d j o (n + 1) (BookState.compute v.wakeUp [] k).clearOutbox := by
  set order : OrderVertex := { toState := orderState p d j o, stepsWithoutFill := UInt32.ofNat n }
  set w : Vertex OrderVertex Message := v.wakeUp.map fun _ => order
  have hcompute : BookState.compute v.wakeUp [] k = (OrderVertex.compute w [] k).map .order := by
    have hwake : v.wakeUp.state = .order order := waiting.state
    simp only [BookState.compute, hwake]
    rfl
  have hsmall : n + 1 < UInt32.size := Nat.lt_of_lt_of_le (Nat.succ_lt_succ early) (by decide)
  have hsteps : UInt32.ofNat n + 1 = UInt32.ofNat (n + 1) := (UInt32.ofNat_add n 1).symm
  have hlate : (UInt32.ofNat (n + 1) > 10) ↔ 10 < n + 1 := by
    rw [gt_iff_lt, UInt32.lt_iff_toNat_lt, UInt32.toNat_ofNat_of_lt' hsmall]
    rfl
  have hnext : OrderVertex.compute w [] k =
      { w with
        state := { order with stepsWithoutFill := UInt32.ofNat (n + 1) }
        halted := decide (10 < n + 1) } := by
    have hunmarketable : order.marketable = false := rfl
    have hactive : w.state.active = true := rfl
    have hread : w.state.readInbox [] = (false, order) := rfl
    have hcount : order.stepsWithoutFill + 1 = UInt32.ofNat (n + 1) := hsteps
    unfold OrderVertex.compute
    rw [if_neg (not_not.mpr hactive), hread]
    simp only [hunmarketable, hcount, hlate, Bool.false_eq_true, if_false]
    by_cases hlast : 10 < n + 1
    · rw [if_pos hlast, decide_eq_true hlast]
      rfl
    · rw [if_neg hlast, decide_eq_false hlast]
      rfl
  rw [hcompute, hnext]
  exact ⟨waiting.empty, rfl, rfl, rfl⟩

/-- A run without prices for the order. -/
theorem waiting_of_execution (order : loaded.Perm (vertices p d)) (workers : 0 < config.workerCount)
    (exec : GraphEngine.Execution BookState.compute (GraphEngine.load config loaded) trs k e)
    {j o : Nat} (hj : j < levels p) (ho : o < orders p)
    (quiet : k ≤ 2 ∨ ¬ Served p config.workerCount j o) :
    (∃ v, (e.workers (orderId p j o % config.workerCount)).vertices.lookup (orderId p j o) =
        some v ∧ Waiting p d j o (min k 11) v) ∧
      (inputsOf (orderId p j o) trs).length = min k 11 ∧
      ∀ tr ∈ trs, sentBy (orderId p j o) tr = [] := by
  induction k generalizing trs e with
  | zero =>
      obtain rfl := List.eq_nil_of_length_eq_zero exec.length_eq
      obtain rfl := exec.eq_of_zero
      refine ⟨⟨_, lookup_vertices order config (order_mem d hj ho), rfl, rfl, rfl⟩, rfl, ?_⟩
      intro tr htr
      cases htr
  | succ k ih =>
      obtain ⟨trs', tr, timing, e₀, rfl, exec', run⟩ := exec.exists_last
      have hquiet : k ≤ 1 ∨ ¬ Served p config.workerCount j o :=
        quiet.imp_left Nat.le_of_succ_le_succ
      obtain ⟨⟨v, hv, waiting⟩, hlength, hsilent⟩ :=
        ih exec' (hquiet.imp_left fun h => h.trans one_le_two)
      have hmail : mail (orderId p j o % config.workerCount) (orderId p j o) trs' = [] := by
        by_contra hmail
        obtain ⟨hlate, hserved⟩ := (order_hears_iff order workers exec' hj ho).mp hmail
        exact hquiet.elim (Nat.not_le_of_lt hlate) fun h => h hserved
      rw [inputsOf_concat, List.length_append, hlength, exec'.length_eq]
      -- its last step is the eleventh
      rcases GraphEngine.superstep_loaded exec' run (Nat.mod_lt _ workers)
          (mem_load_vertices order config (order_mem d hj ho)) hv waiting.empty with
        ⟨⟨hhalted, -⟩, hin, hsent, hafter⟩ | ⟨hactive, hin, hsent, hafter⟩
      · rw [waiting.halted, decide_eq_true_eq] at hhalted
        have hmin : min (k + 1) 11 = min k 11 := by omega
        change inputsIn (orderId p j o) k tr = [] at hin
        rw [hin, hmin]
        refine ⟨⟨v, hafter, waiting⟩, rfl, ?_⟩
        intro tr' htr'
        rcases List.mem_append.mp htr' with htr' | htr'
        · exact hsilent tr' htr'
        · rw [List.mem_singleton.mp htr']
          exact hsent
      · change v.halted = false ∨ mail (orderId p j o % _) (orderId p j o) trs' ≠ [] at hactive
        rw [waiting.halted, decide_eq_false_iff_not] at hactive
        have hearly : k < 11 := by
          have hnot := hactive.resolve_right fun h => h hmail
          omega
        have hmin : min (k + 1) 11 = min k 11 + 1 := by omega
        change inputsIn (orderId p j o) k tr = [(mail (orderId p j o % _) (orderId p j o) trs', k)]
          at hin
        change (e.workers (orderId p j o % _)).vertices.lookup (orderId p j o) = some
          (BookState.compute v.wakeUp (mail (orderId p j o % _) (orderId p j o) trs') k).clearOutbox
          at hafter
        change sentBy (orderId p j o) tr =
          (BookState.compute v.wakeUp (mail (orderId p j o % _) (orderId p j o) trs') k).outbox
          at hsent
        rw [hmail] at hafter hsent
        obtain ⟨hnothing, hwaiting⟩ := waiting.next (by omega) k
        rw [hin, hmin]
        refine ⟨⟨_, hafter, hwaiting⟩, rfl, ?_⟩
        intro tr' htr'
        rcases List.mem_append.mp htr' with htr' | htr'
        · exact hsilent tr' htr'
        · rw [List.mem_singleton.mp htr', hsent, hnothing]

/-- A run with prices for the order. -/
theorem served_of_execution (order : loaded.Perm (vertices p d)) (workers : 0 < config.workerCount)
    (exec : GraphEngine.Execution BookState.compute (GraphEngine.load config loaded) trs k e)
    {j o : Nat} (hj : j < levels p) (ho : o < orders p)
    (served : Served p config.workerCount j o) :
    (inputsOf (orderId p j o) trs).length = k := by
  induction k generalizing trs e with
  | zero =>
      obtain rfl := List.eq_nil_of_length_eq_zero exec.length_eq
      rfl
  | succ k ih =>
      by_cases hearly : k + 1 ≤ 2
      · obtain ⟨-, hlength, -⟩ := waiting_of_execution order workers exec hj ho (.inl hearly)
        rw [hlength]
        omega
      · obtain ⟨trs', tr, timing, e₀, rfl, exec', run⟩ := exec.exists_last
        obtain ⟨v, hv, -, -, hempty⟩ := vertex_of_execution order exec' (order_mem d hj ho)
        have hmail := (order_hears_iff order workers exec' hj ho).mpr ⟨by omega, served⟩
        rw [inputsOf_concat, List.length_append, ih exec', exec'.length_eq]
        rcases GraphEngine.superstep_loaded exec' run (Nat.mod_lt _ workers)
            (mem_load_vertices order config (order_mem d hj ho)) hv hempty with
          ⟨⟨-, hnone⟩, -⟩ | ⟨-, hin, -⟩
        · exact absurd hnone hmail
        · change inputsIn (orderId p j o) k tr = _ at hin
          rw [hin]
          rfl

/-- **How often an order computes.** Take any graph that the builder makes and any run of `k`
supersteps of it on any number of workers, with their vertex maps in any order. An order whose
level and whose level's venue are on its worker computes in every superstep. Any other computes
in the first eleven, on nothing; it has never sent a message, and never will. -/
theorem order_activity (p : OrderBookGraphParams) (d : Draws) {g : GraphData}
    (built : buildOrderBookGraph p d = .ok g) (config : EngineConfig)
    (workers : 0 < config.workerCount) {e₀ : GraphEngine BookState Message}
    (order : (GraphEngine.load config g.vertices).Reordered e₀)
    (exec : GraphEngine.Execution BookState.compute e₀ trs k e)
    {j o : Nat} (hj : j < levels p) (ho : o < orders p) :
    (Served p config.workerCount j o → (inputsOf (orderId p j o) trs).length = k) ∧
      (¬ Served p config.workerCount j o →
        (inputsOf (orderId p j o) trs).length = min k 11 ∧
        Vertex.received (inputsOf (orderId p j o) trs) = [] ∧
        ∀ tr ∈ trs, sentBy (orderId p j o) tr = []) := by
  obtain ⟨loaded, perm, rfl⟩ := exists_perm_of_built built order
  refine ⟨served_of_execution perm workers exec hj ho, fun unserved => ?_⟩
  obtain ⟨-, hlength, hsilent⟩ := waiting_of_execution perm workers exec hj ho (.inr unserved)
  refine ⟨hlength, ?_, hsilent⟩
  have hreceived := GraphEngine.received_of_execution exec (Nat.mod_lt (orderId p j o) workers)
    (mem_load_vertices perm config (order_mem d hj ho))
  refine hreceived.trans (List.flatMap_eq_nil_iff.mpr ?_)
  intro tr htr
  -- a superstep in which something is sent to it is followed by one with mail
  obtain ⟨s, hs⟩ := List.mem_iff_getElem?.mp (List.dropLast_subset _ htr)
  obtain ⟨timing, e₁, e₂, exec', run, -⟩ := exec.exists_superstep hs
  by_contra hsent
  have hmail : mail (orderId p j o % config.workerCount) (orderId p j o)
      (trs.take s ++ [tr]) ≠ [] := by
    rw [mail, List.getLast?_concat]
    exact hsent
  exact unserved ((order_hears_iff perm workers (exec'.next run) hj ho).mp hmail).2

/-- The only order of `quad` on two workers: its level is on the other one. -/
theorem order_activity_quad : ∃ trs e, GraphEngine.Execution BookState.compute
      (GraphEngine.load { workerCount := 2 } quadGraph.vertices) trs 20 e ∧
    (inputsOf 2 trs).length = 11 ∧ ∀ tr ∈ trs, sentBy 2 tr = [] := by
  have nodes : ∀ i < (GraphEngine.load { workerCount := 2 } quadGraph.vertices).config.workerCount,
      0 < ((GraphEngine.load { workerCount := 2 } quadGraph.vertices).workers i).config.numaNodes :=
    fun i _ => GraphEngine.load_nodes Nat.two_pos _ i
  obtain ⟨trs, exec⟩ := GraphEngine.execution_supersteps BookState.compute (fun _ _ _ => 0) nodes 20
  have unserved : ¬ Served quad 2 0 0 := fun h => absurd h.1 (by decide)
  obtain ⟨hlength, -, hsilent⟩ := (order_activity quad .still quad_built { workerCount := 2 }
    Nat.two_pos (.refl _) exec (j := 0) (o := 0) Nat.two_pos Nat.one_pos).2 unserved
  exact ⟨trs, _, exec, hlength, hsilent⟩

end OrderBook

end Pregel
