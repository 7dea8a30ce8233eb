import Mathlib.Data.List.AList
import Mathlib.Data.Set.Card

/-!
Value maps over association lists. An `AList` is a map together with the order
its entries are iterated in; `AList.mapVals` rewrites the values and keeps keys
and order, which is what a loop over a map does when it updates each value in
place.
-/

namespace AList

variable {κ : Type*} {β γ δ : κ → Type*}

/-- Rewrite every value, keeping the keys and their order. -/
def mapVals (f : ∀ k, β k → γ k) (m : AList β) : AList γ where
  entries := m.entries.map (Sigma.map id f)
  nodupKeys := List.NodupKeys.map₂ f m.entries m.nodupKeys

@[simp] theorem entries_mapVals (f : ∀ k, β k → γ k) (m : AList β) :
    (m.mapVals f).entries = m.entries.map (Sigma.map id f) := rfl

@[simp] theorem keys_mapVals (f : ∀ k, β k → γ k) (m : AList β) :
    (m.mapVals f).keys = m.keys := List.map₂_keys f m.entries

@[simp] theorem mem_mapVals {f : ∀ k, β k → γ k} {m : AList β} {k : κ} :
    k ∈ m.mapVals f ↔ k ∈ m := by
  rw [mem_keys, mem_keys, keys_mapVals]

@[simp] theorem lookup_mapVals [DecidableEq κ] (f : ∀ k, β k → γ k) (m : AList β) (k : κ) :
    (m.mapVals f).lookup k = (m.lookup k).map (f k) :=
  List.dlookup_map₂ k

theorem mapVals_mapVals (f : ∀ k, β k → γ k) (g : ∀ k, γ k → δ k) (m : AList β) :
    (m.mapVals f).mapVals g = m.mapVals fun k x => g k (f k x) := by
  ext1
  simp [Function.comp_def, Sigma.map]

/-- Only the values at the map's own keys matter. -/
theorem mapVals_congr {f g : ∀ k, β k → γ k} {m : AList β}
    (h : ∀ e ∈ m.entries, f e.1 e.2 = g e.1 e.2) : m.mapVals f = m.mapVals g := by
  ext1
  apply List.map_congr_left
  intro e he
  simp [Sigma.map, h e he]

theorem mapVals_eq_self {f : ∀ k, β k → β k} {m : AList β}
    (h : ∀ e ∈ m.entries, f e.1 e.2 = e.2) : m.mapVals f = m := by
  ext1
  rw [entries_mapVals]
  conv_rhs => rw [← List.map_id m.entries]
  apply List.map_congr_left
  intro e he
  simp [Sigma.map, h e he]

theorem lookup_eq_some_iff [DecidableEq κ] {m : AList β} {k : κ} {x : β k} :
    m.lookup k = some x ↔ (⟨k, x⟩ : Sigma β) ∈ m.entries :=
  List.mem_dlookup_iff m.nodupKeys

theorem mem_of_mem_entries {m : AList β} {e : Sigma β} (h : e ∈ m.entries) : e.1 ∈ m :=
  List.mem_keys_of_mem h

theorem exists_lookup_of_mem [DecidableEq κ] {m : AList β} {k : κ} (h : k ∈ m) :
    ∃ x, m.lookup k = some x :=
  Option.isSome_iff_exists.mp (lookup_isSome.mpr h)

/-- Counting entries is counting keys. -/
theorem countP_entries_eq_ncard [DecidableEq κ] (p : ∀ k, β k → Bool) (m : AList β) :
    m.entries.countP (fun e => p e.1 e.2) = {k | ∃ x, m.lookup k = some x ∧ p k x}.ncard := by
  have hnodup : ((m.entries.filter fun e => p e.1 e.2).map Sigma.fst).Nodup :=
    (List.filter_sublist.map _).nodup m.keys_nodup
  have hset : {k | ∃ x, m.lookup k = some x ∧ p k x} =
      (((m.entries.filter fun e => p e.1 e.2).map Sigma.fst).toFinset : Set κ) := by
    ext k
    simp only [Set.mem_ofPred_eq, lookup_eq_some_iff, List.coe_toFinset, List.mem_map,
      List.mem_filter]
    constructor
    · rintro ⟨x, hmem, hp⟩
      exact ⟨⟨k, x⟩, ⟨hmem, hp⟩, rfl⟩
    · rintro ⟨⟨k, x⟩, ⟨hmem, hp⟩, rfl⟩
      exact ⟨x, hmem, hp⟩
  rw [hset, Set.ncard_coe_finset, List.toFinset_card_of_nodup hnodup, List.length_map,
    List.countP_eq_length_filter]

end AList
