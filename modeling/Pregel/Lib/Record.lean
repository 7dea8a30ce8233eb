import Mathlib.Algebra.Group.Basic
import Mathlib.Order.MinMax
import Mathlib.Order.WithBot
import Mathlib.Data.List.MinMax
import Mathlib.Data.List.Perm.Basic

/-!
Running minima and what they collect.

A reader goes through a list of weighted values, keeps the least value so far and adds up
the weights of those that were, when they came, below all before: the records. The minimum
does not depend on the order of the list; the sum of the weights does, unless at most the
least values carry a weight.

* `below_foldl_record_iff`: which values are records.
* `foldl_record_fst_perm`: the minimum and the order of the list.
* `foldl_record_perm_iff`: when the sum does not depend on the order of the list.
-/

namespace Record

/-- Two values of a list, brought to its front. -/
theorem exists_perm_cons_cons {β : Type*} {xs : List β} {x y : β} (hx : x ∈ xs) (hy : y ∈ xs)
    (hne : x ≠ y) : ∃ zs, (x :: y :: zs).Perm xs ∧ (y :: x :: zs).Perm xs ∧ ∀ z ∈ zs, z ∈ xs := by
  classical
  have hy' : y ∈ xs.erase x := (List.mem_erase_of_ne hne.symm).mpr hy
  have hperm : (x :: y :: (xs.erase x).erase y).Perm xs :=
    ((List.perm_cons_erase hy').symm.cons x).trans (List.perm_cons_erase hx).symm
  exact ⟨_, hperm, (List.Perm.swap x y _).trans hperm,
    fun z hz => List.mem_of_mem_erase (List.mem_of_mem_erase hz)⟩

/-- Every order of what a list contributes comes from an order of the list. -/
theorem exists_perm_filterMap {β γ : Type*} {f : β → Option γ} {xs : List β} {ys : List γ}
    (perm : ys.Perm (xs.filterMap f)) :
    ∃ xs' : List β, xs'.Perm xs ∧ xs'.filterMap f = ys := by
  induction ys generalizing xs with
  | nil => exact ⟨xs, .refl xs, perm.nil_eq.symm⟩
  | cons y ys ih =>
      obtain ⟨x, hx, hfx⟩ := List.mem_filterMap.mp (perm.subset List.mem_cons_self)
      obtain ⟨before, after, rfl⟩ := List.append_of_mem hx
      have hrest : ys.Perm ((before ++ after).filterMap f) := by
        rw [List.filterMap_append, List.filterMap_cons, hfx] at perm
        rw [List.filterMap_append]
        exact (perm.trans List.perm_middle).cons_inv
      obtain ⟨xs', hperm, hxs'⟩ := ih hrest
      exact ⟨x :: xs', (hperm.cons x).trans List.perm_middle.symm, by simp [hfx, hxs']⟩

variable {α M : Type*} [LinearOrder α] [AddCommMonoid M]

/-- One value with its weight; `⊤` is the minimum of no values. -/
def record (s : WithTop α × M) (x : α × M) : WithTop α × M :=
  if (x.1 : WithTop α) < s.1 then (x.1, s.2 + x.2) else s

/-- A value is below the minimum so far. -/
def Below (b : WithTop α) (a : α) : Prop := (a : WithTop α) < b

theorem record_of_below {b : WithTop α} {a : α} (h : Below b a) (sum weight : M) :
    record (b, sum) (a, weight) = (↑a, sum + weight) := if_pos h

theorem record_of_not_below {b : WithTop α} {a : α} (h : ¬ Below b a) (sum weight : M) :
    record (b, sum) (a, weight) = (b, sum) := if_neg h

section Minimum

variable (s : WithTop α × M)

theorem record_fst (x : α × M) : (record s x).1 = min s.1 x.1 := by
  unfold record
  split
  next h => exact (min_eq_right h.le).symm
  next h => exact (min_eq_left (not_lt.mp h)).symm

theorem foldl_record_fst (xs : List (α × M)) :
    (xs.foldl record s).1 = xs.foldl (fun b x => min b (x.1 : WithTop α)) s.1 := by
  induction xs generalizing s with
  | nil => rfl
  | cons x xs ih => rw [List.foldl_cons, List.foldl_cons, ih, record_fst]

/-- **A value is a record** if and only if it is below the minimum at the start and below
all values before it. -/
theorem below_foldl_record_iff (xs : List (α × M)) (a : α) :
    Below (xs.foldl record s).1 a ↔ Below s.1 a ∧ ∀ x ∈ xs, a < x.1 := by
  unfold Below
  induction xs generalizing s with
  | nil => simp
  | cons x xs ih =>
      rw [List.foldl_cons, ih, record_fst, lt_min_iff, WithTop.coe_lt_coe, List.forall_mem_cons,
        and_assoc]

/-- The minimum does not depend on the order. -/
theorem foldl_record_fst_perm {xs ys : List (α × M)} (perm : xs.Perm ys) :
    (xs.foldl record s).1 = (ys.foldl record s).1 := by
  rw [foldl_record_fst, foldl_record_fst]
  exact perm.foldl_eq' (fun x _ y _ b => by rw [min_assoc, min_assoc, min_comm (x.1 : WithTop α)]) s.1

end Minimum

/-! ### The weights -/

/-- Of the values below `b`, only the least ones carry a weight, and all of them the
same. -/
def Determined (b : WithTop α) (xs : List (α × M)) : Prop :=
  ∀ x ∈ xs, ∀ y ∈ xs, Below b x.1 → Below b y.1 →
    (x.1 < y.1 → y.2 = 0) ∧ (x.1 = y.1 → x.2 = y.2)

theorem Determined.perm {b : WithTop α} {xs ys : List (α × M)} (h : Determined b xs)
    (perm : xs.Perm ys) : Determined b ys :=
  fun x hx y hy => h x (perm.mem_iff.mpr hx) y (perm.mem_iff.mpr hy)

theorem Determined.tail {s : WithTop α × M} {x : α × M} {xs : List (α × M)}
    (h : Determined s.1 (x :: xs)) : Determined (record s x).1 xs := by
  have hle : (record s x).1 ≤ s.1 := by
    rw [record_fst]
    exact min_le_left _ _
  exact fun y hy z hz hys hzs => h y (List.mem_cons_of_mem x hy) z (List.mem_cons_of_mem x hz)
    (hys.trans_le hle) (hzs.trans_le hle)

/-- Two values in either order. -/
theorem record_swap {s : WithTop α × M} {x y : α × M} (h : Determined s.1 [x, y]) :
    record (record s x) y = record (record s y) x := by
  have hboth := h x (by simp) y (by simp)
  have hboth' := h y (by simp) x (by simp)
  by_cases hx : (x.1 : WithTop α) < s.1
  · by_cases hy : (y.1 : WithTop α) < s.1
    · rcases lt_trichotomy x.1 y.1 with hlt | heq | hgt
      · have hzero := (hboth hx hy).1 hlt
        simp [record, hx, hy, hlt, hlt.not_gt, hzero]
      · have hsame := (hboth hx hy).2 heq
        simp [record, hy, heq, hsame]
      · have hzero := (hboth' hy hx).1 hgt
        simp [record, hx, hy, hgt, hgt.not_gt, hzero]
    · -- `y` is not below `s.1`, let alone below `x`
      have hxy : ¬ y.1 < x.1 := fun hlt => hy ((WithTop.coe_lt_coe.mpr hlt).trans hx)
      simp [record, hx, hy, hxy]
  · by_cases hy : (y.1 : WithTop α) < s.1
    · have hyx : ¬ x.1 < y.1 := fun hlt => hx ((WithTop.coe_lt_coe.mpr hlt).trans hy)
      simp [record, hx, hy, hyx]
    · simp [record, hx, hy]

theorem Determined.foldl_record_perm {s : WithTop α × M} {xs ys : List (α × M)}
    (h : Determined s.1 xs) (perm : xs.Perm ys) : xs.foldl record s = ys.foldl record s := by
  induction perm generalizing s with
  | nil => rfl
  | cons x _ ih => exact ih h.tail
  | swap x y xs =>
      have hpair : Determined s.1 [y, x] := fun a ha b hb =>
        h a (List.mem_append_left xs ha) b (List.mem_append_left xs hb)
      simp only [List.foldl_cons, record_swap hpair]
  | trans first _ ih ih' => exact (ih h).trans (ih' (h.perm first))

section Converse

variable {s : WithTop α × M} {xs : List (α × M)}

/-- If a least value comes first, its weight is all that is collected. -/
theorem foldl_record_least {m : α × M} (hm : (m.1 : WithTop α) < s.1)
    (hleast : ∀ x ∈ xs, m.1 ≤ x.1) : ((m :: xs).foldl record s).2 = s.2 + m.2 := by
  have hfirst : record s m = (↑m.1, s.2 + m.2) := if_pos hm
  have hrest : xs.foldl record (record s m) = record s m := by
    rw [hfirst]
    clear hm hfirst
    induction xs with
    | nil => rfl
    | cons x xs ih =>
        have hx : ¬ (x.1 : WithTop α) < m.1 := by simpa using hleast x List.mem_cons_self
        rw [List.foldl_cons, record, if_neg hx]
        exact ih fun y hy => hleast y (List.mem_cons_of_mem x hy)
  rw [List.foldl_cons, hrest, hfirst]

variable [IsCancelAdd M]

/-- If the order makes no difference, only the least values carry a weight. -/
theorem determined_of_perm
    (h : ∀ ys : List (α × M), ys.Perm xs → (ys.foldl record s).2 = (xs.foldl record s).2) :
    Determined s.1 xs := by
  intro x hx y hy hxs hys
  obtain ⟨m, hargmin⟩ : ∃ m, m ∈ xs.argmin Prod.fst := by
    cases hargmin : xs.argmin Prod.fst with
    | none => simp [List.argmin_eq_none.mp hargmin] at hx
    | some m => exact ⟨m, rfl⟩
  have hm : m ∈ xs := List.argmin_mem hargmin
  have hleast : ∀ z ∈ xs, m.1 ≤ z.1 := fun z hz => List.le_of_mem_argmin hz hargmin
  have hms : (m.1 : WithTop α) < s.1 := (WithTop.coe_le_coe.mpr (hleast x hx)).trans_lt hxs
  -- a value above the least one can come before it
  have hzero : ∀ z ∈ xs, (z.1 : WithTop α) < s.1 → m.1 < z.1 → z.2 = 0 := by
    intro z hz hzs hlt
    obtain ⟨zs, hfront, hback, hmem⟩ := exists_perm_cons_cons hm hz fun heq => hlt.ne (heq ▸ rfl)
    have hrest : ∀ w ∈ zs, m.1 ≤ w.1 := fun w hw => hleast w (hmem w hw)
    have hfirst : ((m :: z :: zs).foldl record s).2 = s.2 + m.2 :=
      foldl_record_least hms (List.forall_mem_cons.mpr ⟨hlt.le, hrest⟩)
    have hsecond : ((z :: m :: zs).foldl record s).2 = s.2 + z.2 + m.2 := by
      rw [List.foldl_cons, record, if_pos hzs]
      exact foldl_record_least (WithTop.coe_lt_coe.mpr hlt) hrest
    rw [h _ hfront] at hfirst
    rw [h _ hback, hfirst] at hsecond
    simpa using (add_right_cancel hsecond).symm
  refine ⟨fun hlt => hzero y hy hys ((hleast x hx).trans_lt hlt), fun heq => ?_⟩
  rcases (hleast x hx).lt_or_eq with hlt | hmx
  · rw [hzero x hx hxs hlt, hzero y hy hys (heq ▸ hlt)]
  · rcases eq_or_ne x y with rfl | hne
    · rfl
    · obtain ⟨zs, hfront, hback, hmem⟩ := exists_perm_cons_cons hx hy hne
      have hrest : ∀ w ∈ zs, x.1 ≤ w.1 := fun w hw => hmx ▸ hleast w (hmem w hw)
      have hfirst : ((x :: y :: zs).foldl record s).2 = s.2 + x.2 :=
        foldl_record_least hxs (List.forall_mem_cons.mpr ⟨heq.le, hrest⟩)
      have hsecond : ((y :: x :: zs).foldl record s).2 = s.2 + y.2 :=
        foldl_record_least hys (List.forall_mem_cons.mpr ⟨heq.ge, heq ▸ hrest⟩)
      rw [h _ hfront] at hfirst
      rw [h _ hback, hfirst] at hsecond
      exact add_left_cancel hsecond

/-- **When the order makes no difference to the sum of the weights.** -/
theorem foldl_record_perm_iff :
    (∀ ys : List (α × M), ys.Perm xs → (ys.foldl record s).2 = (xs.foldl record s).2) ↔
      Determined s.1 xs :=
  ⟨determined_of_perm, fun h ys perm => by rw [h.foldl_record_perm perm.symm]⟩

end Converse

end Record
