import Mathlib.Logic.Function.Basic
import Mathlib.Data.List.Basic
import Mathlib.Data.List.ReduceOption

/-!
Labelled transition systems, their finite runs, and the interleaving of a
family of independent components.

* `Run step s ls t`: the labels `ls` lead from `s` to `t`, one `step` each.
* `Run.invariant`: what every step preserves holds at the end of every run.
* `Run.simulation`: a forward simulation carries runs over to another system.
* `Weak`, `Run.of_weak`: steps that may be silent.
* `exists_run_of_measure`, `exists_run_forall_lt`: runs that reach a goal.
* `Interrupted`: the sections of one thread with other steps in between.
* `Interleave step`: a family of components, one of which moves at each step.
  `Interleave.proj` projects a run of the family to a run of one component;
  `Interleave.lift` plays a run of one component inside the family.
-/

namespace Lts

variable {S L : Type*}

/-- Finite runs of a labelled step relation. -/
inductive Run (step : S → L → S → Prop) : S → List L → S → Prop where
  | nil (s : S) : Run step s [] s
  | cons {s t u : S} {l : L} {ls : List L} :
      step s l t → Run step t ls u → Run step s (l :: ls) u

section Runs

variable {step : S → L → S → Prop}

theorem Run.append {s t u : S} {ls ls' : List L} (first : Run step s ls t)
    (second : Run step t ls' u) : Run step s (ls ++ ls') u := by
  induction first with
  | nil => exact second
  | cons hstep _ ih => exact .cons hstep (ih second)

theorem Run.one {s t : S} {l : L} (hstep : step s l t) : Run step s [l] t :=
  .cons hstep (.nil t)

theorem run_nil_iff {s t : S} : Run step s [] t ↔ t = s := by
  constructor
  · intro run
    cases run
    rfl
  · rintro rfl
    exact .nil _

theorem run_cons_iff {s u : S} {l : L} {ls : List L} :
    Run step s (l :: ls) u ↔ ∃ t, step s l t ∧ Run step t ls u := by
  constructor
  · intro run
    cases run with
    | cons hstep rest => exact ⟨_, hstep, rest⟩
  · rintro ⟨t, hstep, rest⟩
    exact .cons hstep rest

theorem run_append_iff {s u : S} {ls ls' : List L} :
    Run step s (ls ++ ls') u ↔ ∃ t, Run step s ls t ∧ Run step t ls' u := by
  constructor
  · intro run
    induction ls generalizing s with
    | nil => exact ⟨s, .nil s, run⟩
    | cons l ls ih =>
        obtain ⟨m, hstep, rest⟩ := run_cons_iff.mp run
        obtain ⟨t, first, second⟩ := ih rest
        exact ⟨t, .cons hstep first, second⟩
  · rintro ⟨t, first, second⟩
    exact first.append second

/-- **The invariant rule.** A predicate preserved by every step holds at the
end of every run that starts in it. -/
theorem Run.invariant (Inv : S → Prop) (preserved : ∀ s l t, Inv s → step s l t → Inv t)
    {s t : S} {ls : List L} (run : Run step s ls t) (init : Inv s) : Inv t := by
  induction run with
  | nil => exact init
  | cons hstep _ ih => exact ih (preserved _ _ _ init hstep)

/-- The invariant rule for a predicate that also speaks about the labels so far. -/
theorem Run.invariant_history (Inv : List L → S → Prop)
    (preserved : ∀ ls s l t, Inv ls s → step s l t → Inv (ls ++ [l]) t)
    {s t : S} {ls : List L} (run : Run step s ls t) (init : Inv [] s) : Inv ls t := by
  have hsuffix : ∀ before, Inv before s → Inv (before ++ ls) t := by
    clear init
    induction run with
    | nil => simp
    | @cons s t u l ls hstep _ ih =>
        intro before hbefore
        rw [List.append_cons]
        exact ih _ (preserved _ _ _ _ hbefore hstep)
  exact hsuffix [] init

/-- The invariant rule for a predicate that also needs something of each label
of the run. -/
theorem Run.invariant_of_labels (Inv : S → Prop) {Ok : L → Prop}
    (preserved : ∀ s l t, Ok l → Inv s → step s l t → Inv t)
    {s t : S} {ls : List L} (run : Run step s ls t) (ok : ∀ l ∈ ls, Ok l) (init : Inv s) :
    Inv t := by
  induction run with
  | nil => exact init
  | cons hstep _ ih =>
      exact ih (fun l hl => ok l (List.mem_cons_of_mem _ hl))
        (preserved _ _ _ (ok _ List.mem_cons_self) init hstep)

/-- What holds of every step of a system whose states satisfy an invariant
holds of every labelled step of a run. -/
theorem Run.label_property (Inv : S → Prop) {Good : L → Prop}
    (preserved : ∀ s l t, Inv s → step s l t → Inv t)
    (good : ∀ s l t, Inv s → step s l t → Good l)
    {s t : S} {ls : List L} (run : Run step s ls t) (init : Inv s) : ∀ l ∈ ls, Good l := by
  induction run with
  | nil => simp
  | cons hstep _ ih =>
      intro l hl
      rcases List.mem_cons.mp hl with rfl | hl
      · exact good _ _ _ init hstep
      · exact ih (preserved _ _ _ init hstep) l hl

/-- A weaker step relation has at least the runs of the stronger one. -/
theorem Run.mono {step' : S → L → S → Prop} (weaken : ∀ s l t, step s l t → step' s l t)
    {s t : S} {ls : List L} (run : Run step s ls t) : Run step' s ls t := by
  induction run with
  | nil s => exact .nil s
  | cons hstep _ ih => exact .cons (weaken _ _ _ hstep) ih

/-- The steps of a run that starts in an invariant may be judged with its help. -/
theorem Run.mono_of_invariant {step' : S → L → S → Prop} (Inv : S → Prop)
    (preserved : ∀ s l t, Inv s → step s l t → Inv t)
    (weaken : ∀ s l t, Inv s → step s l t → step' s l t)
    {s t : S} {ls : List L} (run : Run step s ls t) (init : Inv s) : Run step' s ls t := by
  induction run with
  | nil s => exact .nil s
  | cons hstep _ ih => exact .cons (weaken _ _ _ init hstep) (ih (preserved _ _ _ init hstep))

/-- A counter that every step increments counts the steps. -/
theorem Run.count {f : S → Nat} (increment : ∀ s l t, step s l t → f t = f s + 1)
    {s t : S} {ls : List L} (run : Run step s ls t) : f t = f s + ls.length := by
  induction run with
  | nil => rfl
  | cons hstep _ ih =>
      rw [ih, increment _ _ _ hstep, List.length_cons]
      omega

/-- **Forward simulation.** If every step of a system can be answered by a step of
another one, with the label renamed, then so can every run. -/
theorem Run.simulation {S' L' : Type*} {step' : S' → L' → S' → Prop} (R : S → S' → Prop)
    (rename : L → L')
    (answer : ∀ s l t s', step s l t → R s s' → ∃ t', step' s' (rename l) t' ∧ R t t')
    {s t : S} {ls : List L} (run : Run step s ls t) {s' : S'} (related : R s s') :
    ∃ t', Run step' s' (ls.map rename) t' ∧ R t t' := by
  induction run generalizing s' with
  | nil => exact ⟨s', .nil s', related⟩
  | cons hstep _ ih =>
      obtain ⟨m', first, hm⟩ := answer _ _ _ _ hstep related
      obtain ⟨t', rest, ht⟩ := ih hm
      exact ⟨t', .cons first rest, ht⟩

/-- The steps of a system, and silent ones that change nothing. -/
def Weak (step : S → L → S → Prop) (s : S) : Option L → S → Prop
  | none, t => t = s
  | some l, t => step s l t

theorem Run.of_weak {s t : S} {ls : List (Option L)} (run : Run (Weak step) s ls t) :
    Run step s ls.reduceOption t := by
  induction run with
  | nil s => exact .nil s
  | @cons s m t l ls hstep _ ih =>
      cases l with
      | none =>
          obtain rfl : m = s := hstep
          rw [List.reduceOption_cons_of_none]
          exact ih
      | some l =>
          rw [List.reduceOption_cons_of_some]
          exact .cons hstep ih

/-- If one can always come closer to a goal, one can reach it. -/
theorem exists_run_of_measure (Inv Goal : S → Prop) (left : S → Nat)
    (closer : ∀ s, Inv s → ¬ Goal s → ∃ ls t, Run step s ls t ∧ Inv t ∧ left t < left s) {s : S}
    (init : Inv s) : ∃ ls t, Run step s ls t ∧ Inv t ∧ Goal t := by
  induction hn : left s using Nat.strongRecOn generalizing s with
  | ind n ih =>
      by_cases goal : Goal s
      · exact ⟨[], s, .nil s, init, goal⟩
      · obtain ⟨ls, m, first, hm, hless⟩ := closer s init goal
        obtain ⟨ls', t, rest, ht, goal⟩ := ih _ (hn ▸ hless) hm rfl
        exact ⟨ls ++ ls', t, first.append rest, ht, goal⟩

/-- Goals that can be reached one after the other can be reached all. -/
theorem exists_run_forall_lt (Inv : S → Prop) (Goal : Nat → S → Prop) (n : Nat)
    (reach : ∀ i < n, ∀ s, Inv s → ∃ ls t, Run step s ls t ∧ Inv t ∧ Goal i t ∧
      ∀ i', Goal i' s → Goal i' t) {s : S} (init : Inv s) :
    ∃ ls t, Run step s ls t ∧ Inv t ∧ ∀ i < n, Goal i t := by
  induction n with
  | zero => exact ⟨[], s, .nil s, init, fun i hi => absurd hi (Nat.not_lt_zero i)⟩
  | succ n ih =>
      obtain ⟨ls, m, first, hm, goals⟩ := ih fun i hi => reach i (Nat.lt_succ_of_lt hi)
      obtain ⟨ls', t, rest, ht, goal, keeps⟩ := reach n (Nat.lt_succ_self n) m hm
      refine ⟨ls ++ ls', t, first.append rest, ht, fun i hi => ?_⟩
      rcases Nat.lt_succ_iff_lt_or_eq.mp hi with hlt | rfl
      · exact keeps i (goals i hlt)
      · exact goal

end Runs

/-! ### A thread that is interrupted -/

section Interrupted

variable {ν : Type*}

/-- A thread goes through its sections in order; between any two of them, as before
the first and after the last, other steps may happen. -/
inductive Interrupted (other : ν → S → S) : List (S → S) → S → S → Prop where
  | done (s : S) : Interrupted other [] s s
  | act {f : S → S} {fs : List (S → S)} {s t : S} :
      Interrupted other fs (f s) t → Interrupted other (f :: fs) s t
  | other {fs : List (S → S)} {s t : S} (x : ν) :
      Interrupted other fs (other x s) t → Interrupted other fs s t

variable {other : ν → S → S}

/-- Undisturbed, the sections take effect one after the other. -/
theorem Interrupted.undisturbed (fs : List (S → S)) (s : S) :
    Interrupted other fs s (fs.foldl (fun s f => f s) s) := by
  induction fs generalizing s with
  | nil => exact .done s
  | cons f fs ih => exact .act (ih (f s))

/-- What the sections and the other steps preserve, the thread preserves. -/
theorem Interrupted.invariant (Inv : S → Prop) (others : ∀ x s, Inv s → Inv (other x s))
    {fs : List (S → S)} (sections : ∀ f ∈ fs, ∀ s, Inv s → Inv (f s)) {s t : S}
    (run : Interrupted other fs s t) (init : Inv s) : Inv t := by
  induction run with
  | done => exact init
  | act _ ih =>
      exact ih (fun f hf => sections f (List.mem_cons_of_mem _ hf))
        (sections _ List.mem_cons_self _ init)
  | other x _ ih => exact ih sections (others x _ init)

end Interrupted

/-! ### Interleavings of independent components -/

section Interleave

variable {ι : Type*} [DecidableEq ι]

/-- One component moves, the others stay as they are. -/
def Interleave (step : ι → S → L → S → Prop) (s : ι → S) (l : ι × L) (t : ι → S) : Prop :=
  ∃ x, step l.1 (s l.1) l.2 x ∧ t = Function.update s l.1 x

/-- The labels of one component, in order. -/
def labelsOf (i : ι) (ls : List (ι × L)) : List L :=
  ls.filterMap fun l => if l.1 = i then some l.2 else none

@[simp] theorem labelsOf_nil (i : ι) : labelsOf i ([] : List (ι × L)) = [] := rfl

@[simp] theorem labelsOf_cons_self (i : ι) (l : L) (ls : List (ι × L)) :
    labelsOf i ((i, l) :: ls) = l :: labelsOf i ls := by
  simp [labelsOf]

theorem labelsOf_cons_ne {i j : ι} (hne : j ≠ i) (l : L) (ls : List (ι × L)) :
    labelsOf i ((j, l) :: ls) = labelsOf i ls := by
  simp [labelsOf, hne]

theorem mem_labelsOf {i : ι} {l : L} {ls : List (ι × L)} : l ∈ labelsOf i ls ↔ (i, l) ∈ ls := by
  constructor
  · intro h
    obtain ⟨⟨j, l'⟩, hmem, heq⟩ := List.mem_filterMap.mp h
    by_cases hj : j = i
    · simp only [hj, if_true, Option.some.injEq] at heq
      rw [← hj, ← heq] at *
      exact hmem
    · simp [hj] at heq
  · intro h
    exact List.mem_filterMap.mpr ⟨(i, l), h, by simp⟩

/-- What the labels of all components contribute has no duplicates if the same
holds of each component and every contribution names its component. -/
theorem nodup_of_labelsOf {A : Type*} {f : L → Option A} (owner : A → ι) {ls : List (ι × L)}
    (own : ∀ i l a, (i, l) ∈ ls → f l = some a → owner a = i)
    (nodup : ∀ i, ((labelsOf i ls).filterMap f).Nodup) :
    ((ls.map Prod.snd).filterMap f).Nodup := by
  induction ls with
  | nil => exact List.nodup_nil
  | cons p ls ih =>
      obtain ⟨i, l⟩ := p
      have htail : ∀ j, ((labelsOf j ls).filterMap f).Nodup := by
        intro j
        rcases eq_or_ne i j with rfl | hne
        · have h := nodup i
          rw [labelsOf_cons_self] at h
          exact ((List.sublist_cons_self l _).filterMap f).nodup h
        · have h := nodup j
          rwa [labelsOf_cons_ne hne] at h
      have rest := ih (fun j l' a hmem => own j l' a (List.mem_cons_of_mem _ hmem)) htail
      cases hfl : f l with
      | none =>
          rw [List.map_cons, List.filterMap_cons, hfl]
          exact rest
      | some a =>
          have hnot : a ∉ (ls.map Prod.snd).filterMap f := by
            intro ha
            obtain ⟨l', hl', hfl'⟩ := List.mem_filterMap.mp ha
            obtain ⟨⟨j, l''⟩, hmem, rfl⟩ := List.mem_map.mp hl'
            obtain rfl : j = i := by
              rw [← own j l'' a (List.mem_cons_of_mem _ hmem) hfl',
                own i l a List.mem_cons_self hfl]
            have h := nodup j
            rw [labelsOf_cons_self, List.filterMap_cons, hfl, List.nodup_cons] at h
            exact h.1 (List.mem_filterMap.mpr ⟨l'', mem_labelsOf.mpr hmem, hfl'⟩)
          rw [List.map_cons, List.filterMap_cons, hfl]
          exact List.nodup_cons.mpr ⟨hnot, rest⟩

/-- What only the labels of one component contribute. -/
theorem flatMap_of_labelsOf {A : Type*} {f : L → List A} {i : ι} {ls : List (ι × L)}
    (other : ∀ j, j ≠ i → (labelsOf j ls).flatMap f = []) :
    (ls.flatMap fun l => f l.2) = (labelsOf i ls).flatMap f := by
  induction ls with
  | nil => rfl
  | cons p ls ih =>
      obtain ⟨j, l⟩ := p
      have htail : ∀ x, x ≠ i → (labelsOf x ls).flatMap f = [] := by
        intro x hx
        have h := other x hx
        rcases eq_or_ne j x with rfl | hne
        · rw [labelsOf_cons_self, List.flatMap_cons, List.append_eq_nil_iff] at h
          exact h.2
        · rwa [labelsOf_cons_ne hne] at h
      rw [List.flatMap_cons, ih htail]
      rcases eq_or_ne j i with rfl | hne
      · rw [labelsOf_cons_self, List.flatMap_cons]
      · have h := other j hne
        rw [labelsOf_cons_self, List.flatMap_cons, List.append_eq_nil_iff] at h
        rw [labelsOf_cons_ne hne, h.1, List.nil_append]

/-- **Projection.** A run of the family is a run of each of its components. -/
theorem Interleave.proj {step : ι → S → L → S → Prop} {s t : ι → S} {ls : List (ι × L)}
    (run : Run (Interleave step) s ls t) (i : ι) :
    Run (step i) (s i) (labelsOf i ls) (t i) := by
  induction run with
  | nil s => exact .nil _
  | @cons s t u l ls hstep _ ih =>
      obtain ⟨j, l⟩ := l
      obtain ⟨x, hx, rfl⟩ := hstep
      by_cases hj : j = i
      · subst hj
        rw [labelsOf_cons_self]
        refine .cons hx ?_
        simpa using ih
      · rw [labelsOf_cons_ne hj]
        simpa [Function.update_of_ne (Ne.symm hj)] using ih

/-- A run of one component, played while the others wait. -/
theorem Interleave.lift {step : ι → S → L → S → Prop} (s : ι → S) {i : ι} {x : S} {ls : List L}
    (run : Run (step i) (s i) ls x) :
    Run (Interleave step) s (ls.map (Prod.mk i)) (Function.update s i x) := by
  generalize hy : s i = y at run
  induction run generalizing s with
  | nil y =>
      subst hy
      rw [Function.update_eq_self]
      exact .nil s
  | @cons y z x l ls hstep _ ih =>
      subst hy
      refine .cons ⟨z, hstep, rfl⟩ ?_
      have rest := ih (Function.update s i z) (by simp)
      rwa [Function.update_idem] at rest

/-- Runs of several components, played one component after the other. -/
theorem Interleave.lift_list {step : ι → S → L → S → Prop} {is : List ι} (nodup : is.Nodup)
    (s x : ι → S) (runs : ∀ i ∈ is, ∃ ls, Run (step i) (s i) ls (x i)) :
    ∃ ls, Run (Interleave step) s ls fun i => if i ∈ is then x i else s i := by
  induction is generalizing s with
  | nil => exact ⟨[], by simpa using .nil s⟩
  | cons i is ih =>
      obtain ⟨hnot, hnodup⟩ := List.nodup_cons.mp nodup
      obtain ⟨ls, run⟩ := runs i List.mem_cons_self
      have hother : ∀ j ∈ is, ∃ ls, Run (step j) (Function.update s i (x i) j) ls (x j) := by
        intro j hj
        rw [Function.update_of_ne (ne_of_mem_of_not_mem hj hnot)]
        exact runs j (List.mem_cons_of_mem _ hj)
      obtain ⟨ls', rest⟩ := ih hnodup _ hother
      refine ⟨_, (Interleave.lift s run).append (?_ : Run _ _ ls' _)⟩
      convert rest using 1
      funext j
      rcases eq_or_ne j i with rfl | hne
      · simp [hnot]
      · simp [hne]

end Interleave

end Lts
