import Mathlib.Data.Int.CardIntervalMod
import Pregel.GraphEngine
import Pregel.OrderBook.WellFormed

/-!
Loading the order book graph (`GraphEngine::load_graph`, `distribute_vertices`).

The builder writes an owner into every vertex, and the engine asks its partition map for
one. Both take the identifier modulo the number of workers, and the identifiers are
`0 .. n - 1`.

* `keys_load`, `vertexCount_load`: what a worker holds after loading vertices numbered in
  this way.
* `load_balanced`: the graph of the builder is divided evenly.
-/

namespace Pregel

/-- An engine holds these vertices, every one of them once and where its owner field and
the partition map say, and as evenly as possible. -/
structure Balanced {σ μ : Type} (vertices : List (Vertex σ μ)) (e : GraphEngine σ μ) : Prop where
  held : ∀ u ∈ vertices, ∀ i,
    (e.workers i).vertices.lookup u.id = if i = u.owner then some u else none
  owner : ∀ u ∈ vertices, u.owner = e.pmap.ownerOf u.id ∧ u.owner < e.config.workerCount
  total : ((List.range e.config.workerCount).map fun i => (e.workers i).vertexCount).sum =
    vertices.length
  even : ∀ i < e.config.workerCount, ∀ j < e.config.workerCount,
    (e.workers i).vertexCount ≤ (e.workers j).vertexCount + 1

/-- The numbers below `n` with residue `i`. -/
theorem countP_residue (n : Nat) {w i : Nat} (hi : i < w) :
    (List.range n).countP (fun vid => vid % w = i) = n / w + if i < n % w then 1 else 0 := by
  have hcount := Nat.count_modEq_card n (Nat.zero_lt_of_lt hi) i
  rw [Nat.mod_eq_of_lt hi] at hcount
  rw [← hcount, Nat.count]
  apply List.countP_congr
  intro vid _
  simp [Nat.ModEq, Nat.mod_eq_of_lt hi]

section Load

variable {σ μ : Type} (config : EngineConfig) {vertices : List (Vertex σ μ)} {n : Nat}
  (dense : (vertices.map Vertex.id).Perm (List.range n))

include dense

open GraphEngine

/-- A worker holds the identifiers with its residue. -/
theorem keys_load (i : WorkerId) :
    ((load config vertices).workers i).vertices.keys.Perm
      ((List.range n).filter fun vid => vid % config.workerCount = i) := by
  apply (List.perm_ext_iff_of_nodup (AList.keys_nodup _) (List.nodup_range.filter _)).mpr
  intro vid
  have hmem : (∃ v ∈ vertices, v.id = vid) ↔ vid < n := by
    rw [← List.mem_range, ← dense.mem_iff, List.mem_map]
  rw [← AList.mem_keys, mem_load, hmem]
  simp [and_comm]

theorem vertexCount_load (i : WorkerId) :
    ((load config vertices).workers i).vertexCount =
      (List.range n).countP fun vid => vid % config.workerCount = i := by
  have hlength := (keys_load config dense i).length_eq
  rw [List.countP_eq_length_filter, ← hlength, WorkerNode.vertexCount]
  exact (List.length_map _).symm

/-- A vertex is where its identifier says, and nowhere else. -/
theorem lookup_load {u : Vertex σ μ} (hu : u ∈ vertices) (i : WorkerId) :
    ((load config vertices).workers i).vertices.lookup u.id =
      if u.id % config.workerCount = i then some u else none := by
  have hdistinct : (vertices.map Vertex.id).Nodup := dense.nodup_iff.mpr List.nodup_range
  have hfind : (vertices.find? fun v => v.id = u.id) = some u := by
    cases hfound : vertices.find? fun v => v.id = u.id with
    | none => exact absurd (List.find?_eq_none.mp hfound u hu) (by simp)
    | some w =>
        have hid : w.id = u.id := by simpa using List.find?_some hfound
        rw [List.inj_on_of_nodup_map hdistinct (List.mem_of_find?_eq_some hfound) hu hid]
  rw [load_lookup, lastWith_eq_find hdistinct, hfind]
  rfl

/-- Vertices numbered `0 .. n - 1`, each with the owner that its number gives it, are
divided evenly. -/
theorem balanced_load (positive : 1 ≤ config.workerCount)
    (owners : ∀ u ∈ vertices, u.owner = u.id % config.workerCount) :
    Balanced vertices (load config vertices) := by
  refine ⟨fun u hu i => ?_, fun u hu => ?_, ?_, ?_⟩
  · rw [lookup_load config dense hu, owners u hu]
    simp only [eq_comm]
  · rw [owners u hu, load_pmap, load_config]
    exact ⟨rfl, Nat.mod_lt _ positive⟩
  · have hsum : ((List.range config.workerCount).map fun i =>
        (List.range n).countP fun vid => vid % config.workerCount = i).sum =
          (List.range n).length :=
      List.sum_countP_fiber fun vid _ => Nat.mod_lt vid positive
    have hlength : vertices.length = n := by simpa using dense.length_eq
    simp only [load_config, vertexCount_load config dense, hsum, List.length_range, hlength]
  · intro i hi j hj
    rw [load_config] at hi hj
    rw [vertexCount_load config dense, vertexCount_load config dense, countP_residue n hi,
      countP_residue n hj]
    split <;> split <;> omega

end Load

/-- Every vertex of the builder is owned by the worker that its identifier gives. -/
theorem Layout.owner_eq {p : OrderBookGraphParams} {d : Draws} {u : Vertex BookState Message}
    (hu : u ∈ vertices p d) : u.owner = u.id % workers p := by
  rcases mem_vertices.mp hu with ⟨v, hv, rfl⟩ | ⟨j, hj, o, ho, rfl⟩ | ⟨j, hj, rfl⟩ | ⟨m, hm, rfl⟩
  · rfl
  · rfl
  · rfl
  · rfl

/-- **Loading the graph of the builder divides it evenly** among the workers, and loses no
vertex. -/
theorem load_balanced (p : OrderBookGraphParams) (d : Draws) (config : EngineConfig)
    (positive : 1 ≤ p.workerCount) (same : config.workerCount = p.workerCount.toNat) :
    ∃ g, buildOrderBookGraph p d = .ok g ∧
      Balanced g.vertices (GraphEngine.load config g.vertices) := by
  have hworkers := Layout.workers_ne_zero positive
  obtain ⟨b, hrun, hvertices, -⟩ := Layout.run_eq d hworkers
  refine ⟨b.toGraphData, buildOrderBookGraph_eq hrun, ?_⟩
  rw [hvertices]
  refine balanced_load config Layout.ids_perm ?_ fun u hu => ?_
  · rw [same]
    exact Nat.one_le_iff_ne_zero.mpr hworkers
  · rw [Layout.owner_eq hu, same]

/-- The default graph on the default engine. -/
theorem load_balanced_default :
    ∃ g, buildOrderBookGraph {} .still = .ok g ∧
      Balanced g.vertices (GraphEngine.load {} g.vertices) :=
  load_balanced {} .still {} (by decide) (by decide)

end Pregel
