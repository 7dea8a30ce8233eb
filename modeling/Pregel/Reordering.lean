import Mathlib.Algebra.Order.BigOperators.Group.List
import Pregel.GraphEngine
import Pregel.Lib.Range

/-!
The order in which the vertex maps are iterated.

The source keeps the vertices of a worker in a hash map. A loop over it meets them in some
order, which stays the same as long as no vertex is added. `load` chooses one; an engine
that is `Reordered` has any other, worker by worker.

* `entries_load`: the order that `load` chooses.
* `part`, `part_perm`: the vertices of a worker in the order of its map.
* `exists_load_of_reordered`: every other one is chosen if the vertices are loaded in
  another order.
-/

namespace Pregel.GraphEngine

variable {σ μ : Type}

/-- The same engine, with its vertex maps iterated in any order. -/
structure Reordered (e e' : GraphEngine σ μ) : Prop where
  config : e'.config = e.config
  pmap : e'.pmap = e.pmap
  workers : ∀ i, ∃ vertices, e'.workers i = { e.workers i with vertices := vertices } ∧
    vertices.entries.Perm (e.workers i).vertices.entries

theorem Reordered.refl (e : GraphEngine σ μ) : e.Reordered e :=
  ⟨rfl, rfl, fun _ => ⟨_, rfl, .refl _⟩⟩

theorem load_concat (config : EngineConfig) (vs : List (Vertex σ μ)) (v : Vertex σ μ) :
    load config (vs ++ [v]) = (load config vs).distributeVertex v := List.foldl_concat ..

/-- **The order that `load` chooses** for the vertices of a worker: the last one first. -/
theorem entries_load (config : EngineConfig) {vs : List (Vertex σ μ)}
    (distinct : (vs.map Vertex.id).Nodup) (i : WorkerId) :
    ((load config vs).workers i).vertices.entries =
      ((vs.filter fun v => v.id % config.workerCount = i).map fun v => ⟨v.id, v⟩).reverse := by
  induction vs using List.reverseRecOn with
  | nil => rfl
  | append_singleton vs v ih =>
      rw [List.map_append, List.nodup_append] at distinct
      obtain ⟨hdistinct, -, hnew⟩ := distinct
      have howner : (load config vs).pmap.ownerOf v.id = v.id % config.workerCount := by
        rw [load_pmap]
        rfl
      rw [load_concat, distributeVertex, howner, List.filter_append, List.map_append,
        List.reverse_append, ← ih hdistinct]
      rcases eq_or_ne i (v.id % config.workerCount) with rfl | hne
      · have hnot : v.id ∉ ((load config vs).workers (v.id % config.workerCount)).vertices := by
          rw [mem_load]
          rintro ⟨-, w, hw, hid⟩
          exact hnew w.id (List.mem_map_of_mem hw) v.id (by simp) hid
        simp only [Function.update_self, WorkerNode.addVertex]
        rw [AList.entries_insert_of_notMem hnot]
        simp
      · simp [Function.update_of_ne hne, hne.symm]

/-- The vertices of a worker, in the order in which they have to be loaded. -/
def part (e : GraphEngine σ μ) (i : WorkerId) : List (Vertex σ μ) :=
  ((e.workers i).vertices.entries.map Sigma.snd).reverse

section Part

variable {config : EngineConfig} {vs : List (Vertex σ μ)} {e : GraphEngine σ μ}

theorem entries_perm_of_reordered (distinct : (vs.map Vertex.id).Nodup)
    (order : (load config vs).Reordered e) (i : WorkerId) :
    (e.workers i).vertices.entries.Perm
      ((vs.filter fun v => v.id % config.workerCount = i).map fun v => ⟨v.id, v⟩) := by
  obtain ⟨vertices, hworker, hperm⟩ := order.workers i
  rw [hworker]
  rw [entries_load config distinct] at hperm
  exact hperm.trans (List.reverse_perm _)

/-- The part of a worker holds the vertices with its residue. -/
theorem part_perm (distinct : (vs.map Vertex.id).Nodup) (order : (load config vs).Reordered e)
    (i : WorkerId) : (e.part i).Perm (vs.filter fun v => v.id % config.workerCount = i) := by
  have hsnd := (entries_perm_of_reordered distinct order i).map Sigma.snd
  rw [List.map_map] at hsnd
  exact (List.reverse_perm _).trans (hsnd.trans (.of_eq (List.map_id _)))

/-- Loaded in this order, its entries come out as they are. -/
theorem entries_eq_part (distinct : (vs.map Vertex.id).Nodup)
    (order : (load config vs).Reordered e) (i : WorkerId) :
    (e.workers i).vertices.entries = ((e.part i).map fun v => ⟨v.id, v⟩).reverse := by
  rw [part, ← List.map_reverse, List.reverse_reverse, List.map_map]
  conv_lhs => rw [← List.map_id (e.workers i).vertices.entries]
  apply List.map_congr_left
  intro a ha
  obtain ⟨v, -, rfl⟩ :=
    List.mem_map.mp ((entries_perm_of_reordered distinct order i).mem_iff.mp ha)
  rfl

/-- **Any order of iteration** of a loaded engine is one that the same vertices get if they
are loaded in another order. -/
theorem exists_load_of_reordered (distinct : (vs.map Vertex.id).Nodup)
    (order : (load config vs).Reordered e) :
    ∃ loaded : List (Vertex σ μ), loaded.Perm vs ∧ e = load config loaded := by
  set W := config.workerCount with hW
  have hpart : ∀ i, ∀ v, v ∈ e.part i ↔ v ∈ vs ∧ v.id % W = i := fun i v => by
    rw [(part_perm distinct order i).mem_iff, List.mem_filter, decide_eq_true_eq]
  -- no worker beyond `n` has a vertex
  set n := (vs.map fun v => v.id % W).sum + 1
  have hbound : ∀ v ∈ vs, v.id % W < n := fun v hv =>
    Nat.lt_succ_of_le (List.single_le_sum (by simp) _ (List.mem_map_of_mem hv))
  have hbeyond : ∀ i, ¬ i < n → e.part i = [] := by
    intro i hi
    apply List.eq_nil_iff_forall_not_mem.mpr
    intro v hv
    obtain ⟨hmem, rfl⟩ := (hpart i v).mp hv
    exact hi (hbound v hmem)
  set loaded := (List.range n).flatMap e.part
  have hperm : loaded.Perm vs :=
    (List.Perm.flatMap_left _ fun i _ => part_perm distinct order i).trans
      (List.perm_flatMap_fiber hbound)
  have hdistinct : (loaded.map Vertex.id).Nodup := (hperm.map _).nodup_iff.mpr distinct
  have hown : ∀ i, loaded.filter (fun v => v.id % W = i) = e.part i := fun i =>
    List.filter_flatMap_range (fun j v hv => ((hpart j v).mp hv).2) (hbeyond i)
  refine ⟨loaded, hperm, GraphEngine.ext ?_ ?_ (funext fun i => ?_)⟩
  · rw [order.config, load_config, load_config]
  · rw [order.pmap, load_pmap, load_pmap]
  · have hvertices : (e.workers i).vertices = ((load config loaded).workers i).vertices := by
      ext1
      rw [entries_load config hdistinct, ← hW, hown, entries_eq_part distinct order]
    obtain ⟨vertices, hworker, -⟩ := order.workers i
    rw [load_worker config loaded, ← hvertices, hworker, load_worker config vs]

end Part

end Pregel.GraphEngine
