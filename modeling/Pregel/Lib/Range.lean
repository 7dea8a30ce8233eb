import Mathlib.Algebra.BigOperators.Group.Finset.Piecewise
import Mathlib.Algebra.BigOperators.Group.List.Basic
import Mathlib.Algebra.GroupWithZero.Nat
import Mathlib.Data.List.Nodup

/-!
Counting loops.

* `List.foldlM_range_eq`: a loop over `0 .. n - 1` that may fail, when the states between
  its rounds are known.
* `List.set_map_range`: writing to one element of a table.
* `List.countP_range_eq`, `List.sum_countP_fiber`, `List.sum_countP_filter_ne`: counting
  `0 .. n - 1`, and a list part by part.
* `List.flatMap_range_eq`, `List.filter_flatMap_range`: what one number of `0 .. n - 1`
  contributes.
* `List.perm_flatMap_fiber`: a list put together again from its parts.
* `List.countP_range_update`, `List.sum_map_update`: a count over `0 .. n - 1` and a sum when
  one element changes.
* `List.perm_flatMap_of_subset`: a list to which only a part contributes.
* `List.getElem?_concat_eq_some_iff`: the elements of a list with one more.
-/

namespace List

/-- A loop with rounds that take state `S i` to state `S (i + 1)`. -/
theorem foldlM_range_eq {ε β : Type*} (S : Nat → β) {f : β → Nat → Except ε β} {n : Nat}
    (body : ∀ i < n, f (S i) i = .ok (S (i + 1))) :
    (range n).foldlM f (S 0) = .ok (S n) := by
  have hupto : ∀ m ≤ n, (range m).foldlM f (S 0) = .ok (S m) := by
    intro m hm
    induction m with
    | zero => rfl
    | succ m ih =>
        rw [range_succ, foldlM_append, ih (Nat.le_of_succ_le hm)]
        simp [bind, Except.bind, pure, Except.pure, body m hm]
  exact hupto n (Nat.le_refl n)

/-- Writing to one element of a table. -/
theorem set_map_range {α : Type*} (f : Nat → α) (n i : Nat) (a : α) :
    ((range n).map f).set i a = (range n).map fun j => if j = i then a else f j := by
  apply ext_getElem (by simp)
  intro j _ _
  by_cases hj : j = i
  · subst hj
    simp
  · simp [hj, getElem_set_ne (Ne.symm hj)]

/-- A number below `n` is met once in `0 .. n - 1`. -/
theorem countP_range_eq {n i : Nat} (hi : i < n) {p : Nat → Bool}
    (same : ∀ j < n, p j = true ↔ j = i) : (range n).countP p = 1 := by
  rw [countP_congr (q := (· == i)) fun j hj => by simpa using same j (mem_range.mp hj)]
  exact count_eq_one_of_mem nodup_range (mem_range.mpr hi)

/-- Every element of a list is in one of its parts. -/
theorem sum_countP_fiber {α : Type*} {f : α → Nat} {n : Nat} {xs : List α}
    (bound : ∀ x ∈ xs, f x < n) :
    ((range n).map fun i => xs.countP fun x => f x = i).sum = xs.length := by
  induction xs with
  | nil => simp
  | cons x xs ih =>
      have hx : (range n).countP (fun i => decide (f x = i)) = 1 :=
        countP_range_eq (bound x mem_cons_self) fun j _ => by simp [eq_comm]
      have hsum : ((range n).map fun i => if decide (f x = i) = true then 1 else 0).sum = 1 := by
        rw [sum_map_ite]
        rw [countP_eq_length_filter] at hx
        simp [hx]
      simp only [countP_cons, sum_map_add, ih fun y hy => bound y (mem_cons_of_mem x hy), hsum,
        length_cons]

/-- The same, without part `i`, for the elements with `p`. -/
theorem sum_countP_filter_ne {α : Type*} {f : α → Nat} {n : Nat} {xs : List α}
    (bound : ∀ x ∈ xs, f x < n) (i : Nat) (p : α → Bool) :
    (∑ w ∈ Finset.range n, if w = i then 0 else (xs.filter fun x => f x = w).countP p) =
      xs.countP fun x => p x && decide (f x ≠ i) := by
  induction xs with
  | nil => simp
  | cons x xs ih =>
      have hfirst : ∀ w ∈ Finset.range n,
          (if w = i then 0 else ((x :: xs).filter fun x => f x = w).countP p) =
            (if w = i then 0 else (xs.filter fun x => f x = w).countP p) +
              if w = f x then (p x && decide (f x ≠ i)).toNat else 0 := by
        intro w _
        by_cases hi : w = i
        · subst hi
          by_cases hw : w = f x
          · simp [hw]
          · simp [hw]
        · by_cases hw : f x = w
          · subst hw
            cases hp : p x <;> simp [hi, hp]
          · simp [hi, hw, Ne.symm hw]
      have hmem : f x ∈ Finset.range n := Finset.mem_range.mpr (bound x mem_cons_self)
      rw [Finset.sum_congr rfl hfirst, Finset.sum_add_distrib,
        ih fun y hy => bound y (mem_cons_of_mem x hy), Finset.sum_ite_eq', if_pos hmem, countP_cons]
      congr 1
      cases p x && decide (f x ≠ i) <;> rfl

/-- What one number of `0 .. n - 1` alone contributes. -/
theorem flatMap_range_eq {α : Type*} {f : Nat → List α} {n i : Nat}
    (other : ∀ j, j ≠ i → f j = []) (beyond : ¬ i < n → f i = []) : (range n).flatMap f = f i := by
  induction n with
  | zero => exact (beyond (Nat.not_lt_zero i)).symm
  | succ n ih =>
      rw [range_succ, flatMap_append, flatMap_singleton]
      rcases eq_or_ne i n with rfl | hne
      · have hbefore : (range i).flatMap f = [] := flatMap_eq_nil_iff.mpr fun j hj =>
          other j (Nat.ne_of_lt (mem_range.mp hj))
        rw [hbefore, nil_append]
      · rw [other n hne.symm, append_nil]
        exact ih fun hi => beyond (by omega)

/-- Each number of `0 .. n - 1` contributes a part, from which it can be read off. -/
theorem filter_flatMap_range {α : Type*} {f : α → Nat} {part : Nat → List α} {n i : Nat}
    (fiber : ∀ j, ∀ x ∈ part j, f x = j) (beyond : ¬ i < n → part i = []) :
    ((range n).flatMap part).filter (fun x => f x = i) = part i := by
  have hsame : (part i).filter (fun x => f x = i) = part i :=
    filter_eq_self.mpr fun x hx => decide_eq_true (fiber i x hx)
  rw [filter_flatMap, flatMap_range_eq (i := i) _ _, hsame]
  · intro j hne
    apply filter_eq_nil_iff.mpr
    intro x hx
    rw [fiber j x hx, decide_eq_true_eq]
    exact hne
  · intro hi
    rw [hsame]
    exact beyond hi

/-- The parts of a list hold its elements. -/
theorem perm_flatMap_fiber {α : Type*} {f : α → Nat} {n : Nat} {xs : List α}
    (bound : ∀ x ∈ xs, f x < n) :
    ((range n).flatMap fun i => xs.filter fun x => f x = i).Perm xs := by
  have hupto : ∀ m, ((range m).flatMap fun i => xs.filter fun x => f x = i).Perm
      (xs.filter fun x => f x < m) := by
    intro m
    induction m with
    | zero => simp
    | succ m ih =>
        have hbelow : (xs.filter fun x => f x < m + 1).filter (fun x => f x < m) =
            xs.filter fun x => f x < m := by
          rw [filter_filter]
          congr 1
          funext x
          rw [Bool.eq_iff_iff, Bool.and_eq_true, decide_eq_true_eq, decide_eq_true_eq]
          omega
        have hat : (xs.filter fun x => f x < m + 1).filter (fun x => !decide (f x < m)) =
            xs.filter fun x => f x = m := by
          rw [filter_filter]
          congr 1
          funext x
          rw [Bool.eq_iff_iff, Bool.and_eq_true, Bool.not_eq_true', decide_eq_false_iff_not,
            decide_eq_true_eq, decide_eq_true_eq]
          omega
        have hsplit := filter_append_perm (fun x => f x < m) (xs.filter fun x => f x < m + 1)
        rw [hbelow, hat] at hsplit
        rw [range_succ, flatMap_append, flatMap_singleton]
        exact (ih.append_right _).trans hsplit
  have hall : (xs.filter fun x => f x < n) = xs :=
    filter_eq_self.mpr fun x hx => decide_eq_true (bound x hx)
  exact (hupto n).trans (.of_eq hall)

theorem countP_range_congr {n : Nat} {p q : Nat → Bool} (h : ∀ i < n, p i = q i) :
    (range n).countP p = (range n).countP q :=
  countP_congr fun i hi => by rw [h i (mem_range.mp hi)]

theorem countP_range_update {n i : Nat} (hi : i < n) {p q : Nat → Bool}
    (same : ∀ j, j ≠ i → q j = p j) :
    (range n).countP q + (p i).toNat = (range n).countP p + (q i).toNat := by
  induction n with
  | zero => omega
  | succ n ih =>
      have hlast : ∀ r : Nat → Bool,
          (range (n + 1)).countP r = (range n).countP r + (r n).toNat := by
        intro r
        rw [range_succ, countP_append, countP_singleton]
        cases r n <;> rfl
      rw [hlast, hlast]
      rcases Nat.lt_succ_iff_lt_or_eq.mp hi with hlt | rfl
      · have hrest := ih hlt
        have hn := same n (by omega)
        rw [hn]
        omega
      · rw [countP_range_congr (fun j hj => same j (by omega))]
        omega

/-- A sum over a list without duplicates when the value of one element changes. -/
theorem sum_map_update {α : Type*} {xs : List α} (nodup : xs.Nodup) {f g : α → Nat} {a : α}
    (ha : a ∈ xs) (same : ∀ x ∈ xs, x ≠ a → g x = f x) :
    (xs.map g).sum + f a = (xs.map f).sum + g a := by
  obtain ⟨before, after, rfl⟩ := append_of_mem ha
  rw [nodup_append, nodup_cons] at nodup
  obtain ⟨-, ⟨hafter, -⟩, hbefore⟩ := nodup
  have hfirst : before.map g = before.map f := map_congr_left fun x hx =>
    same x (by simp [hx]) (hbefore x hx a mem_cons_self)
  have hlast : after.map g = after.map f := map_congr_left fun x hx =>
    same x (by simp [hx]) (ne_of_mem_of_not_mem hx hafter)
  simp only [map_append, map_cons, sum_append, sum_cons, hfirst, hlast]
  omega

/-- A list without repetitions, of which only a part contributes. -/
theorem perm_flatMap_of_subset {α β : Type*} [DecidableEq α] {xs ys : List α} (nodup : xs.Nodup)
    (nodup' : ys.Nodup) (subset : ys ⊆ xs) (f : α → List β) (rest : ∀ x ∈ xs, x ∉ ys → f x = []) :
    (xs.flatMap f).Perm (ys.flatMap f) := by
  have hpart : (xs.filter (· ∈ ys)).Perm ys := by
    apply (perm_ext_iff_of_nodup (nodup.filter _) nodup').mpr
    intro x
    simp only [mem_filter, decide_eq_true_eq]
    exact ⟨And.right, fun hx => ⟨subset hx, hx⟩⟩
  have hrest : (xs.filter fun x => !decide (x ∈ ys)).flatMap f = [] := by
    apply flatMap_eq_nil_iff.mpr
    intro x hx
    obtain ⟨hx, hnot⟩ := mem_filter.mp hx
    exact rest x hx (by simpa using hnot)
  have hsplit := (filter_append_perm (· ∈ ys) xs).flatMap_right f
  rw [flatMap_append, hrest, append_nil] at hsplit
  exact hsplit.symm.trans (hpart.flatMap_right f)

theorem getElem?_concat_eq_some_iff {α : Type*} {xs : List α} {x y : α} {i : Nat} :
    (xs ++ [x])[i]? = some y ↔ xs[i]? = some y ∨ (i = xs.length ∧ y = x) := by
  rcases Nat.lt_trichotomy i xs.length with hlt | rfl | hgt
  · rw [getElem?_append_left hlt]
    simp [Nat.ne_of_lt hlt]
  · simp [eq_comm]
  · rw [getElem?_eq_none (by simp; omega), getElem?_eq_none (Nat.le_of_lt hgt)]
    simp [Nat.ne_of_gt hgt]

/-- A list of the elements that meet a condition, element by element. -/
theorem flatMap_ite_singleton {α : Type*} (q : α → Prop) [DecidablePred q] (xs : List α) :
    (xs.flatMap fun x => if q x then [x] else []) = xs.filter q := by
  induction xs with
  | nil => rfl
  | cons x xs ih =>
      rw [flatMap_cons, ih, filter_cons]
      by_cases hx : q x <;> simp [hx]

end List
