import Mathlib.Tactic.Linarith
import Pregel.OrderBook.Layout

/-!
The order book graph is well formed.

* `mem_vertices`: the vertices of the closed form, kind by kind.
* `ids_perm`: their identifiers are `0 .. size - 1`, although a level is stored behind the
  orders that were numbered after it.
* `build_wellFormed`: what the builder promises about its graph.
-/

namespace Pregel

namespace BookState

/-- The field `venue_id` of the classes that have one. -/
def venueId? : BookState → Option Nat
  | .order o => some o.venueId
  | .priceLevel l => some l.venueId
  | .venue u => some u.venueId
  | .marketMaker _ => none

/-- The field `side` of the classes that have one. -/
def side? : BookState → Option Side
  | .order o => some o.side
  | .priceLevel l => some l.side
  | _ => none

end BookState

/-- What the result of the builder is like. -/
structure WellFormed (p : OrderBookGraphParams) (b : Builder) : Prop where
  /-- The identifiers are `0 .. n - 1`, each once. -/
  ids : (b.vertices.map Vertex.id).Perm (List.range
    (p.venueCount.toNat +
      2 * p.venueCount.toNat * p.priceLevels.toNat * (1 + p.ordersPerLevel.toNat) +
      p.marketMakerCount.toNat))
  targets : ∀ u ∈ b.vertices, ∀ e ∈ u.edges, ∃ w ∈ b.vertices, w.id = e.dst
  /-- Every `data.vertices[i]` found the venue with identifier `i`. -/
  accesses : ∀ a ∈ b.accesses, a.2 = (a.1, .venue)
  orders : ∀ u ∈ b.vertices, u.type = .order → ∃ l ∈ b.vertices, l.type = .priceLevel ∧
    l.state.venueId? = u.state.venueId? ∧ l.state.side? = u.state.side? ∧
    u.edges.map Edge.dst = [l.id] ∧ l.edges.countP (fun e => e.type = 1 ∧ e.dst = u.id) = 1
  levels : ∀ l ∈ b.vertices, l.type = .priceLevel → ∃ w ∈ b.vertices, w.type = .venue ∧
    w.state.venueId? = l.state.venueId? ∧
    (l.edges.filter (·.type = 2)).map Edge.dst = [w.id] ∧
    w.edges.countP (fun e => e.type = 0 ∧ e.dst = l.id) = 1
  makers : ∀ m ∈ b.vertices, m.type = .marketMaker → ∀ w ∈ b.vertices, w.type = .venue →
    m.edges.countP (·.dst = w.id) = 1 ∧ w.edges.countP (·.dst = m.id) = 1
  totalEdges : b.totalEdges.toNat = (b.vertices.map (·.edges.length)).sum
  totalEdges_eq : b.totalEdges.toNat =
    4 * p.venueCount.toNat * p.priceLevels.toNat * (1 + p.ordersPerLevel.toNat) +
      p.marketMakerCount.toNat * (2 * p.venueCount.toNat +
        min 20 (2 * p.venueCount.toNat * p.priceLevels.toNat))
  venueCount : b.venueCount.toNat = b.vertices.countP (·.type = .venue)
  priceLevelCount : b.priceLevelCount.toNat = b.vertices.countP (·.type = .priceLevel)
  orderCount : b.orderCount.toNat = b.vertices.countP (·.type = .order)
  mmCount : b.mmCount.toNat = b.vertices.countP (·.type = .marketMaker)

namespace Layout

variable {p : OrderBookGraphParams} {d : Draws}

/-- The vertices of the graph, kind by kind. -/
theorem mem_vertices {u : Vertex BookState Message} :
    u ∈ vertices p d ↔
      (∃ v < venues p, u = venueVertex p d (venueEdges p (levels p) (makers p) v) v) ∨
      (∃ j < levels p, ∃ o < orders p, u = orderVertex p d j o) ∨
      (∃ j < levels p, u = (levelVertex p d (orders p) j).map .priceLevel) ∨
      ∃ m < makers p, u = (makerVertex p d (venues p) (samples p) m).map .marketMaker := by
  simp only [vertices, levelBlock, List.mem_append, List.mem_flatMap, List.mem_map, List.mem_range,
    List.mem_singleton]
  constructor
  · rintro ((⟨v, hv, rfl⟩ | ⟨j, hj, ⟨o, ho, rfl⟩ | rfl⟩) | ⟨m, hm, rfl⟩)
    · exact .inl ⟨v, hv, rfl⟩
    · exact .inr (.inl ⟨j, hj, o, ho, rfl⟩)
    · exact .inr (.inr (.inl ⟨j, hj, rfl⟩))
    · exact .inr (.inr (.inr ⟨m, hm, rfl⟩))
  · rintro (⟨v, hv, rfl⟩ | ⟨j, hj, o, ho, rfl⟩ | ⟨j, hj, rfl⟩ | ⟨m, hm, rfl⟩)
    · exact .inl (.inl ⟨v, hv, rfl⟩)
    · exact .inl (.inr ⟨j, hj, .inl ⟨o, ho, rfl⟩⟩)
    · exact .inl (.inr ⟨j, hj, .inr rfl⟩)
    · exact .inr ⟨m, hm, rfl⟩

theorem workers_ne_zero (positive : 1 ≤ p.workerCount) : workers p ≠ 0 := by
  have hle : 1 ≤ p.workerCount.toNat := UInt32.le_iff_toNat_le.mp positive
  exact Nat.one_le_iff_ne_zero.mp hle

/-! ### Identifiers -/

theorem levelId_succ (j : Nat) : levelId p (j + 1) = levelId p j + (1 + orders p) := by
  rw [levelId, levelId, Nat.add_mul, Nat.one_mul, Nat.add_assoc]

theorem levelId_inj {j k : Nat} : levelId p j = levelId p k ↔ j = k := by
  refine ⟨fun h => ?_, fun h => by rw [h]⟩
  have hmul : j * (1 + orders p) = k * (1 + orders p) := Nat.add_left_cancel h
  exact Nat.eq_of_mul_eq_mul_right (by omega) hmul

theorem levelId_le_makerId {j : Nat} (hj : j ≤ levels p) (m : Nat) :
    levelId p j ≤ makerId p m := by
  have hmul : j * (1 + orders p) ≤ levels p * (1 + orders p) := Nat.mul_le_mul_right _ hj
  unfold makerId levelId
  omega

theorem venues_le_levelId (j : Nat) : venues p ≤ levelId p j := Nat.le_add_right _ _

/-- The identifiers of a level and its orders, in the order in which they are stored. -/
theorem ids_levelBlock (j : Nat) :
    ((levelBlock p d j).map Vertex.id).Perm (List.range' (levelId p j) (1 + orders p)) := by
  have hids : (levelBlock p d j).map Vertex.id =
      List.range' (levelId p j + 1) (orders p) ++ [levelId p j] := by
    rw [levelBlock, List.map_append, List.map_map, List.range'_eq_map_range]
    rfl
  rw [hids, Nat.add_comm 1, List.range'_succ]
  exact List.perm_append_singleton _ _

theorem ids_levels (k : Nat) :
    (((List.range k).flatMap (levelBlock p d)).map Vertex.id).Perm
      (List.range' (venues p) (k * (1 + orders p))) := by
  induction k with
  | zero => simp
  | succ k ih =>
      rw [List.range_succ, List.flatMap_append, List.map_append, Nat.add_mul, Nat.one_mul,
        ← List.range'_append]
      exact ih.append (by simpa [levelId] using ids_levelBlock k)

/-- **The identifiers are `0 .. size - 1`, each once.** -/
theorem ids_perm : ((vertices p d).map Vertex.id).Perm (List.range (size p)) := by
  have hvenues : ((List.range (venues p)).map fun v =>
      venueVertex p d (venueEdges p (levels p) (makers p) v) v).map Vertex.id =
        List.range' 0 (venues p) := by
    rw [List.map_map, List.range'_eq_map_range]
    simp [venueVertex, Vertex.map, VenueVertex.new, Function.comp_def]
  have hmakers : ((List.range (makers p)).map fun m =>
      (makerVertex p d (venues p) (samples p) m).map BookState.marketMaker).map Vertex.id =
        List.range' (levelId p (levels p)) (makers p) := by
    rw [List.map_map, List.range'_eq_map_range]
    rfl
  have hsplit : List.range (size p) = List.range' 0 (venues p) ++
      List.range' (venues p) (levels p * (1 + orders p)) ++
        List.range' (levelId p (levels p)) (makers p) := by
    rw [List.range_eq_range', size, makerId, levelId, ← List.range'_append_1,
      ← List.range'_append_1, Nat.zero_add, Nat.zero_add]
  rw [vertices, List.map_append, List.map_append, hvenues, hmakers, hsplit]
  exact ((ids_levels (levels p)).append_left _).append_right _

theorem size_eq : size p = p.venueCount.toNat +
    2 * p.venueCount.toNat * p.priceLevels.toNat * (1 + p.ordersPerLevel.toNat) +
      p.marketMakerCount.toNat := by
  simp only [size, makerId, levelId, levels]
  ring

/-! ### Edges -/

theorem levelId_lt_size {j : Nat} (hj : j < levels p) : levelId p j + orders p < size p := by
  have hnext := levelId_le_makerId (p := p) hj (makers p)
  rw [levelId_succ] at hnext
  unfold size
  omega

theorem venue_lt_size {v : Nat} (hv : v < venues p) : v < size p := by
  have hnext := levelId_le_makerId (p := p) (Nat.zero_le _) (makers p)
  have hfirst := venues_le_levelId (p := p) 0
  unfold size
  omega

theorem makerId_lt_size {m : Nat} (hm : m < makers p) : makerId p m < size p := by
  unfold size makerId
  omega

/-- The venue of a level exists. -/
theorem levelVenue_lt {j : Nat} (hj : j < levels p) : levelVenue p j < venues p := by
  unfold levels at hj
  exact Nat.div_lt_of_lt_mul (by rwa [Nat.mul_comm] at hj)

theorem sampled_lt {m i : Nat} (hi : i < samples p) : sampled p d m i < levels p := by
  apply Nat.mod_lt _
  unfold samples at hi
  omega

theorem dst_lt_size {u : Vertex BookState Message} (hu : u ∈ vertices p d) {e : Edge}
    (he : e ∈ u.edges) : e.dst < size p := by
  rcases mem_vertices.mp hu with ⟨v, hv, rfl⟩ | ⟨j, hj, o, ho, rfl⟩ | ⟨j, hj, rfl⟩ | ⟨m, hm, rfl⟩
  · change e ∈ venueEdges p (levels p) (makers p) v at he
    simp only [venueEdges, List.mem_append, List.mem_map, List.mem_filter, List.mem_range] at he
    rcases he with ⟨j, ⟨hj, -⟩, rfl⟩ | ⟨m, hm, rfl⟩
    · exact Nat.lt_of_le_of_lt (Nat.le_add_right _ _) (levelId_lt_size hj)
    · exact makerId_lt_size hm
  · change e ∈ [(⟨levelId p j, 1, 0⟩ : Edge)] at he
    rw [List.mem_singleton.mp he]
    exact Nat.lt_of_le_of_lt (Nat.le_add_right _ _) (levelId_lt_size hj)
  · change e ∈ levelEdges p (orders p) j at he
    simp only [levelEdges, List.mem_cons, List.mem_map, List.mem_range] at he
    rcases he with rfl | ⟨o, ho, rfl⟩
    · exact venue_lt_size (levelVenue_lt hj)
    · have hlast := levelId_lt_size hj
      change levelId p j + 1 + o < size p
      omega
  · change e ∈ makerEdges p d (venues p) (samples p) m at he
    simp only [makerEdges, List.mem_append, List.mem_map, List.mem_range] at he
    rcases he with ⟨v, hv, rfl⟩ | ⟨i, hi, rfl⟩
    · exact venue_lt_size hv
    · exact Nat.lt_of_le_of_lt (Nat.le_add_right _ _) (levelId_lt_size (sampled_lt hi))

/-- Every edge leads to a vertex. -/
theorem exists_target {u : Vertex BookState Message} (hu : u ∈ vertices p d) {e : Edge}
    (he : e ∈ u.edges) : ∃ w ∈ vertices p d, w.id = e.dst := by
  have hmem : e.dst ∈ (vertices p d).map Vertex.id :=
    ids_perm.mem_iff.mpr (List.mem_range.mpr (dst_lt_size hu he))
  exact List.mem_map.mp hmem

/-! ### Links -/

/-- An order is listed once by its level. -/
theorem countP_levelEdges {j o : Nat} (ho : o < orders p) :
    (levelEdges p (orders p) j).countP (fun e => e.type = 1 ∧ e.dst = orderId p j o) = 1 := by
  rw [levelEdges, List.countP_cons, List.countP_map]
  simp only [Function.comp_def]
  rw [List.countP_range_eq ho]
  · simp
  · intro k _
    simp [orderId]

/-- The edges of a level that are of type 2. -/
theorem filter_levelEdges (k j : Nat) :
    (levelEdges p k j).filter (·.type = 2) = [⟨levelVenue p j, 1, 2⟩] := by
  simp [levelEdges, List.filter_map, Function.comp_def]

/-- A level is listed once by its venue. -/
theorem countP_venueEdges_level {j : Nat} (hj : j < levels p) (m : Nat) :
    (venueEdges p (levels p) m (levelVenue p j)).countP
      (fun e => e.type = 0 ∧ e.dst = levelId p j) = 1 := by
  rw [venueEdges, List.countP_append, List.countP_map, List.countP_map, List.countP_filter]
  have hmakers : (List.range m).countP ((fun e : Edge => decide (e.type = 0 ∧ e.dst = levelId p j)) ∘
      fun i => ⟨makerId p i, 1, 3⟩) = 0 := by
    simp [Function.comp_def]
  rw [hmakers, List.countP_range_eq hj]
  intro k _
  simp only [Function.comp_apply, decide_eq_true_eq, Bool.and_eq_true, levelId_inj, true_and]
  exact ⟨fun h => h.1, fun h => ⟨h, by rw [h]⟩⟩

/-- A market maker is listed once by every venue. -/
theorem countP_venueEdges_maker {m : Nat} (hm : m < makers p) (v : Nat) :
    (venueEdges p (levels p) (makers p) v).countP (·.dst = makerId p m) = 1 := by
  rw [venueEdges, List.countP_append, List.countP_map, List.countP_map, List.countP_filter]
  have hlevels : (List.range (levels p)).countP (fun j =>
      ((fun e : Edge => decide (e.dst = makerId p m)) ∘ fun j => ⟨levelId p j, 1, 0⟩) j &&
        decide (levelVenue p j = v)) = 0 := by
    apply List.countP_eq_zero.mpr
    intro j hj
    have hle := levelId_le_makerId (p := p) (List.mem_range.mp hj) m
    rw [levelId_succ] at hle
    have hne : levelId p j ≠ makerId p m := by omega
    simp [hne]
  rw [hlevels, List.countP_range_eq hm]
  intro k _
  simp [makerId]

/-- A venue is listed once by every market maker. -/
theorem countP_makerEdges {v : Nat} (hv : v < venues p) (m : Nat) :
    (makerEdges p d (venues p) (samples p) m).countP (·.dst = v) = 1 := by
  rw [makerEdges, List.countP_append, List.countP_map, List.countP_map]
  have hlevels : (List.range (samples p)).countP ((fun e : Edge => decide (e.dst = v)) ∘
      fun i => ⟨levelId p (sampled p d m i), 1, 2⟩) = 0 := by
    apply List.countP_eq_zero.mpr
    intro i hi
    have hle := venues_le_levelId (p := p) (sampled p d m i)
    have hne : levelId p (sampled p d m i) ≠ v := by omega
    simp [hne]
  rw [hlevels, List.countP_range_eq hv]
  intro k _
  simp

/-- Every order has one edge, to its level, which lists it once. -/
theorem order_linked {u : Vertex BookState Message} (hu : u ∈ vertices p d)
    (type : u.type = .order) : ∃ l ∈ vertices p d, l.type = .priceLevel ∧
      l.state.venueId? = u.state.venueId? ∧ l.state.side? = u.state.side? ∧
      u.edges.map Edge.dst = [l.id] ∧
      l.edges.countP (fun e => e.type = 1 ∧ e.dst = u.id) = 1 := by
  rcases mem_vertices.mp hu with ⟨v, hv, rfl⟩ | ⟨j, hj, o, ho, rfl⟩ | ⟨j, hj, rfl⟩ | ⟨m, hm, rfl⟩
  · cases type
  · exact ⟨_, mem_vertices.mpr (.inr (.inr (.inl ⟨j, hj, rfl⟩))), rfl, rfl, rfl, rfl,
      countP_levelEdges ho⟩
  · cases type
  · cases type

/-- Every level has one edge of type 2, to its venue, which lists it once. -/
theorem level_linked {l : Vertex BookState Message} (hl : l ∈ vertices p d)
    (type : l.type = .priceLevel) : ∃ w ∈ vertices p d, w.type = .venue ∧
      w.state.venueId? = l.state.venueId? ∧
      (l.edges.filter (·.type = 2)).map Edge.dst = [w.id] ∧
      w.edges.countP (fun e => e.type = 0 ∧ e.dst = l.id) = 1 := by
  rcases mem_vertices.mp hl with ⟨v, hv, rfl⟩ | ⟨j, hj, o, ho, rfl⟩ | ⟨j, hj, rfl⟩ | ⟨m, hm, rfl⟩
  · cases type
  · cases type
  · refine ⟨_, mem_vertices.mpr (.inl ⟨levelVenue p j, levelVenue_lt hj, rfl⟩), rfl, rfl, ?_,
      countP_venueEdges_level hj (makers p)⟩
    exact congrArg (List.map Edge.dst) (filter_levelEdges (orders p) j)
  · cases type

/-- A market maker and a venue list each other once. -/
theorem maker_linked {m w : Vertex BookState Message} (hm : m ∈ vertices p d)
    (maker : m.type = .marketMaker) (hw : w ∈ vertices p d) (venue : w.type = .venue) :
    m.edges.countP (·.dst = w.id) = 1 ∧ w.edges.countP (·.dst = m.id) = 1 := by
  rcases mem_vertices.mp hm with ⟨v, hv, rfl⟩ | ⟨j, hj, o, ho, rfl⟩ | ⟨j, hj, rfl⟩ | ⟨i, hi, rfl⟩
  · cases maker
  · cases maker
  · cases maker
  · rcases mem_vertices.mp hw with ⟨v, hv, rfl⟩ | ⟨j, hj, o, ho, rfl⟩ | ⟨j, hj, rfl⟩ | ⟨k, hk, rfl⟩
    · exact ⟨countP_makerEdges hv i, countP_venueEdges_maker hi v⟩
    · cases venue
    · cases venue
    · cases venue

theorem mem_accesses {k m i : Nat} {a : VertexId × VertexId × VertexType}
    (ha : a ∈ accesses p k m i) : a.2 = (a.1, .venue) := by
  simp only [accesses, List.mem_append, List.mem_map, List.mem_flatMap] at ha
  rcases ha with (⟨j, -, rfl⟩ | ⟨j, -, v, -, rfl⟩) | ⟨v, -, rfl⟩
  · rfl
  · rfl
  · rfl

/-! ### Counts -/

/-- Every level is in the list of one venue. -/
theorem sum_venueEdges (m : Nat) :
    ((List.range (venues p)).map fun v => (venueEdges p (levels p) m v).length).sum =
      levels p + venues p * m := by
  have hlevels : ((List.range (venues p)).map fun v =>
      (List.range (levels p)).countP fun j => levelVenue p j = v).sum =
        (List.range (levels p)).length :=
    List.sum_countP_fiber fun j hj => levelVenue_lt (List.mem_range.mp hj)
  simp only [venueEdges, List.length_append, List.length_map, List.length_range, List.sum_map_add,
    ← List.countP_eq_length_filter, hlevels]
  simp

theorem sum_edges : ((vertices p d).map (·.edges.length)).sum = edgeCount p := by
  have hvenues : (List.range (venues p)).map ((·.edges.length) ∘ fun v =>
        venueVertex p d (venueEdges p (levels p) (makers p) v) v) =
      (List.range (venues p)).map fun v => (venueEdges p (levels p) (makers p) v).length := rfl
  have hblock : ∀ j, ((levelBlock p d j).map (·.edges.length)).sum = 2 * orders p + 1 := by
    intro j
    have horders : ((List.range (orders p)).map (orderVertex p d j)).map (·.edges.length) =
        (List.range (orders p)).map fun _ => 1 := by
      rw [List.map_map]
      rfl
    have hlevel : ((levelVertex p d (orders p) j).map BookState.priceLevel).edges.length =
        orders p + 1 := by
      simp [levelVertex, levelEdges, Vertex.map]
    rw [levelBlock, List.map_append, List.sum_append, horders]
    simp [hlevel]
    omega
  have hmaker : ∀ m, ((makerVertex p d (venues p) (samples p) m).map
      BookState.marketMaker).edges.length = venues p + samples p := by
    intro m
    simp [makerVertex, makerEdges, Vertex.map]
  rw [vertices, List.map_append, List.map_append, List.sum_append, List.sum_append, List.map_map,
    hvenues, sum_venueEdges, List.map_flatMap, List.flatMap_def, List.sum_flatten, List.map_map,
    List.map_map]
  simp [hblock, hmaker, Function.comp_def, edgeCount]
  ring

/-- The vertices of each type. -/
theorem countP_type (t : VertexType) :
    (vertices p d).countP (·.type = t) =
      match t with
      | .venue => venues p
      | .order => levels p * orders p
      | .priceLevel => levels p
      | .marketMaker => makers p := by
  have hvenue : ∀ v, (venueVertex p d (venueEdges p (levels p) (makers p) v) v).type = .venue :=
    fun _ => rfl
  have horder : ∀ j o, (orderVertex p d j o).type = .order := fun _ _ => rfl
  have hlevel : ∀ j, ((levelVertex p d (orders p) j).map BookState.priceLevel).type = .priceLevel :=
    fun _ => rfl
  have hmaker : ∀ m, ((makerVertex p d (venues p) (samples p) m).map BookState.marketMaker).type =
      .marketMaker := fun _ => rfl
  cases t <;>
    simp [vertices, levelBlock, List.countP_flatMap, List.countP_map, Function.comp_def, hvenue,
      horder, hlevel, hmaker]

theorem edgeCount_eq : edgeCount p =
    4 * p.venueCount.toNat * p.priceLevels.toNat * (1 + p.ordersPerLevel.toNat) +
      p.marketMakerCount.toNat * (2 * p.venueCount.toNat +
        min 20 (2 * p.venueCount.toNat * p.priceLevels.toNat)) := by
  have hlevels : levels p = 2 * p.venueCount.toNat * p.priceLevels.toNat := by
    unfold levels
    ring
  rw [edgeCount, samples, hlevels]
  ring

/-- The counter of the edges does not wrap. -/
theorem edgeCount_lt (small : size p < 2 ^ 32) : edgeCount p < 2 ^ 64 := by
  have hsize : venues p + levels p * (1 + orders p) + makers p < 2 ^ 32 := small
  have hsamples : samples p ≤ 20 := Nat.min_le_left _ _
  have hproduct : makers p * samples p ≤ makers p * 20 := Nat.mul_le_mul_left _ hsamples
  have hsquare : 4 * (makers p * venues p) ≤ (makers p + venues p) * (makers p + venues p) := by
    nlinarith [sq_nonneg ((makers p : Int) - venues p)]
  have hsum : (makers p + venues p) * (makers p + venues p) ≤ 2 ^ 32 * 2 ^ 32 :=
    Nat.mul_le_mul (by omega) (by omega)
  have hexpand : edgeCount p = 2 * (levels p * (1 + orders p)) + 2 * (makers p * venues p) +
      makers p * samples p := by
    unfold edgeCount
    ring
  omega

end Layout

/-! ### The promise of the builder -/

open Layout in
/-- **The graph of the builder is well formed**, and the builder meets no fault: no modulo
by zero and no index out of range. -/
theorem build_wellFormed (p : OrderBookGraphParams) (d : Draws) (workers : 1 ≤ p.workerCount)
    (small : p.venueCount.toNat +
      2 * p.venueCount.toNat * p.priceLevels.toNat * (1 + p.ordersPerLevel.toNat) +
      p.marketMakerCount.toNat < 2 ^ 32) :
    ∃ b, Builder.run p d = .ok b ∧ buildOrderBookGraph p d = .ok b.toGraphData ∧
      WellFormed p b := by
  obtain ⟨b, hrun, hvertices, hedges, hvenue, hlevel, horder, hmaker, haccesses⟩ :=
    run_eq d (workers_ne_zero workers)
  refine ⟨b, hrun, buildOrderBookGraph_eq hrun, ?_⟩
  have hsize := size_eq (p := p)
  rw [← hsize] at small
  have hbounds : venues p + levels p * (1 + orders p) + makers p < 2 ^ 32 := small
  have hexpand : levels p * (1 + orders p) = levels p + levels p * orders p := by ring
  have h32 : UInt32.size = 4294967296 := rfl
  have h64 : UInt64.size = 18446744073709551616 := rfl
  have htotal : b.totalEdges.toNat = edgeCount p := by
    rw [hedges, UInt64.toNat_ofNat_of_lt' (edgeCount_lt small)]
  refine ⟨?_, ?_, ?_, ?_, ?_, ?_, ?_, ?_, ?_, ?_, ?_, ?_⟩
  · rw [hvertices, ← hsize]
    exact ids_perm
  · rw [hvertices]
    exact fun u hu e he => exists_target hu he
  · rw [haccesses]
    exact fun a ha => mem_accesses ha
  · rw [hvertices]
    exact fun u hu type => order_linked hu type
  · rw [hvertices]
    exact fun l hl type => level_linked hl type
  · rw [hvertices]
    exact fun m hm maker w hw venue => maker_linked hm maker hw venue
  · rw [hvertices, htotal, sum_edges]
  · rw [htotal, edgeCount_eq]
  · rw [hvertices, countP_type, hvenue, UInt32.toNat_ofNat_of_lt' (by omega)]
  · rw [hvertices, countP_type, hlevel, UInt32.toNat_ofNat_of_lt' (by omega)]
  · rw [hvertices, countP_type, horder, UInt64.toNat_ofNat_of_lt' (by omega)]
  · rw [hvertices, countP_type, hmaker, UInt32.toNat_ofNat_of_lt' (by omega)]

/-- Draws without noise. -/
def Draws.still : Draws where
  priceNoise := fun _ => 0
  qty := fun _ => 0
  rng := fun _ => 0
  clock := fun _ => 0
  venueNoise := fun _ _ => 0

/-- The graph with the default parameters. -/
theorem build_wellFormed_default :
    ∃ b, Builder.run {} .still = .ok b ∧ buildOrderBookGraph {} .still = .ok b.toGraphData ∧
      WellFormed {} b :=
  build_wellFormed {} .still (by decide) (by decide)

end Pregel
