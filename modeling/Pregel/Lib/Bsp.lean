import Mathlib.Data.List.Perm.Basic
import Mathlib.Data.List.AList
import Pregel.Lib.Lts

/-!
Bulk synchronous vertex programs: the reference semantics of vertex-centric graph
processing.

A superstep calls `compute` once on every vertex that is not halted or has mail,
with the messages sent to it in the superstep before. The messages of one sender
arrive in the order they were sent; how those of several senders mix is left open
(`Merges`). A network may connect only some pairs of vertices: `links` says which,
and the reference semantics is the one that connects all (`Reference`).

* `Merges.perm`: all ways to merge the same boxes are permutations of each other.
* `Step.confluent`: for programs that do not look at the order of their mail, a
  superstep has one result, and links over which nothing is sent do not matter.
-/

namespace Bsp

open Lts

variable {V X M : Type*}

/-! ### Merging the messages of several senders -/

section Merges

variable [DecidableEq V]

/-- `ms` is made of the boxes of all senders, each in its own order. -/
def Merges (box : V → List M) (ms : List M) : Prop :=
  ∃ tagged : List (V × M), tagged.map Prod.snd = ms ∧
    ∀ u, (tagged.filter fun t => t.1 = u).map Prod.snd = box u

theorem merges_nil : Merges (fun _ : V => ([] : List M)) [] :=
  ⟨[], rfl, fun _ => rfl⟩

/-- Keeping some of the messages keeps some of every box. -/
theorem Merges.filter {box : V → List M} {ms : List M} (h : Merges box ms) (p : M → Bool) :
    Merges (fun u => (box u).filter p) (ms.filter p) := by
  obtain ⟨tagged, rfl, hbox⟩ := h
  refine ⟨tagged.filter fun t => p t.2, ?_, fun u => ?_⟩
  · rw [List.filter_map]
    rfl
  · show _ = (box u).filter p
    rw [← hbox, List.filter_map, List.filter_filter, List.filter_filter]
    congr 1
    apply List.filter_congr
    intro t _
    exact Bool.and_comm _ _

theorem Merges.mem_iff {box : V → List M} {ms : List M} (h : Merges box ms) {m : M} :
    m ∈ ms ↔ ∃ u, m ∈ box u := by
  obtain ⟨tagged, rfl, hbox⟩ := h
  constructor
  · intro hm
    obtain ⟨⟨u, m⟩, ht, rfl⟩ := List.mem_map.mp hm
    refine ⟨u, ?_⟩
    rw [← hbox]
    exact List.mem_map.mpr ⟨(u, m), by simpa using ht, rfl⟩
  · rintro ⟨u, hm⟩
    rw [← hbox] at hm
    obtain ⟨t, ht, rfl⟩ := List.mem_map.mp hm
    exact List.mem_map.mpr ⟨t, (List.mem_filter.mp ht).1, rfl⟩

theorem Merges.eq_nil_iff {box : V → List M} {ms : List M} (h : Merges box ms) :
    ms = [] ↔ ∀ u, box u = [] := by
  simp only [List.eq_nil_iff_forall_not_mem, h.mem_iff, not_exists]
  exact ⟨fun h u m => h m u, fun h m u => h u m⟩

theorem count_tagged [DecidableEq M] (tagged : List (V × M)) (u : V) (m : M) :
    tagged.count (u, m) = ((tagged.filter fun t => t.1 = u).map Prod.snd).count m := by
  induction tagged with
  | nil => rfl
  | cons t tagged ih =>
      obtain ⟨u', m'⟩ := t
      rcases eq_or_ne u' u with rfl | hu
      · simp [List.count_cons, ih]
      · simp [ih, hu]

/-- **Two merges of the same boxes differ only in order.** -/
theorem Merges.perm {box : V → List M} {ms ms' : List M} (h : Merges box ms)
    (h' : Merges box ms') : ms.Perm ms' := by
  classical
  obtain ⟨tagged, rfl, hbox⟩ := h
  obtain ⟨tagged', rfl, hbox'⟩ := h'
  refine List.Perm.map _ (List.perm_iff_count.mpr ?_)
  rintro ⟨u, m⟩
  rw [count_tagged, count_tagged, hbox, hbox']

/-- The boxes of the entries of a map, one after the other. -/
theorem merges_entries (m : AList fun _ : V => X) (box : X → List M) :
    Merges (fun u => ((m.lookup u).map box).getD []) (m.entries.flatMap fun e => box e.2) := by
  refine ⟨m.entries.flatMap fun e => (box e.2).map (Prod.mk e.1), ?_, fun u => ?_⟩
  · simp [List.map_flatMap, Function.comp_def]
  · have hnodup := m.nodupKeys
    unfold AList.lookup
    generalize m.entries = es at hnodup
    induction es with
    | nil => rfl
    | cons e es ih =>
        obtain ⟨k, x⟩ := e
        obtain ⟨hnot, hnodup⟩ := List.nodupKeys_cons.mp hnodup
        rw [List.flatMap_cons, List.filter_append, List.map_append, ih hnodup]
        rcases eq_or_ne k u with rfl | hne
        · simp [List.dlookup_eq_none.mpr hnot, List.filter_map, Function.comp_def]
        · have hskip : List.dlookup u (⟨k, x⟩ :: es) = List.dlookup u es :=
            List.dlookup_cons_ne es ⟨k, x⟩ hne.symm
          simp [hne, hskip, List.filter_map, Function.comp_def]

end Merges

/-! ### Programs and supersteps -/

/-- A vertex program: `compute` gives the new state and the messages sent. -/
structure Program (V X M : Type*) where
  halted : X → Prop
  compute : Nat → V → X → List M → X × List M
  target : M → V

/-- The state of each vertex, and what each vertex sent in the last superstep. -/
@[ext] structure State (V X M : Type*) where
  vertices : V → Option X
  sent : V → List M

section Steps

variable [DecidableEq V] (P : Program V X M) (links : V → V → Bool)

/-- What vertex `u` sent to `v` and the network delivers. -/
def mail (s : State V X M) (v u : V) : List M :=
  if links u v then (s.sent u).filter fun m => P.target m = v else []

/-- The vertices that compute in a superstep. -/
def Active (s : State V X M) (v : V) : Prop :=
  ∃ x, s.vertices v = some x ∧ (¬ P.halted x ∨ ∃ u, mail P links s v u ≠ [])

/-- Superstep `k`, with its calls of `compute`. -/
structure Step (k : Nat) (s : State V X M) (calls : List (V × List M)) (t : State V X M) :
    Prop where
  once : (calls.map Prod.fst).Nodup
  called : ∀ v, v ∈ calls.map Prod.fst ↔ Active P links s v
  inbox : ∀ v ms, (v, ms) ∈ calls → Merges (mail P links s v) ms
  computed : ∀ v ms x, (v, ms) ∈ calls → s.vertices v = some x →
    t.vertices v = some (P.compute k v x ms).1 ∧ t.sent v = (P.compute k v x ms).2
  unchanged : ∀ v, ¬ Active P links s v → t.vertices v = s.vertices v ∧ t.sent v = []

/-- Superstep after superstep; the state carries the number of the next one. -/
def Next (s : Nat × State V X M) (calls : List (V × List M)) (t : Nat × State V X M) : Prop :=
  t.1 = s.1 + 1 ∧ Step P links s.1 s.2 calls t.2

/-- The reference semantics: every vertex can reach every other. -/
def Reference : Nat × State V X M → List (V × List M) → Nat × State V X M → Prop :=
  Next P fun _ _ => true

/-- The program does not look at the order of its mail. -/
def Program.Unordered : Prop :=
  ∀ k v x ms ms', ms.Perm ms' → P.compute k v x ms = P.compute k v x ms'

variable {P links}

theorem Step.exists_call {k : Nat} {s t : State V X M} {calls : List (V × List M)}
    (step : Step P links k s calls t) {v : V} (active : Active P links s v) :
    ∃ ms, (v, ms) ∈ calls := by
  obtain ⟨⟨_, ms⟩, hcall, hv⟩ := List.mem_map.mp ((step.called v).mpr active)
  exact ⟨ms, hv ▸ hcall⟩

/-- Links over which no existing vertex is sent a message do not matter. -/
theorem mail_congr {links' : V → V → Bool} {s : State V X M} {v : V}
    (agree : ∀ u, ∀ m ∈ s.sent u, P.target m = v → links u v = links' u v) :
    mail P links s v = mail P links' s v := by
  funext u
  unfold mail
  rcases hbox : (s.sent u).filter fun m => P.target m = v with _ | ⟨m, ms⟩
  · simp
  · have hm : m ∈ (s.sent u).filter fun m => P.target m = v := by simp [hbox]
    obtain ⟨hsent, htarget⟩ := List.mem_filter.mp hm
    rw [agree u m hsent (of_decide_eq_true htarget)]

/-- **Confluence.** A program that does not look at the order of its mail has one
result in a superstep, on any two networks that agree where messages are sent. -/
theorem Step.confluent (unordered : P.Unordered) {links' : V → V → Bool} {k : Nat}
    {s t t' : State V X M} {calls calls' : List (V × List M)}
    (agree : ∀ u, ∀ m ∈ s.sent u, (s.vertices (P.target m)).isSome →
      links u (P.target m) = links' u (P.target m))
    (step : Step P links k s calls t) (step' : Step P links' k s calls' t') : t = t' := by
  have hmail : ∀ v x, s.vertices v = some x → mail P links s v = mail P links' s v := by
    intro v x hx
    apply mail_congr
    intro u m hm htarget
    subst htarget
    exact agree u m hm (by simp [hx])
  have hactive : ∀ v, Active P links s v ↔ Active P links' s v := by
    intro v
    constructor
    · rintro ⟨x, hx, h⟩
      exact ⟨x, hx, hmail v x hx ▸ h⟩
    · rintro ⟨x, hx, h⟩
      exact ⟨x, hx, (hmail v x hx).symm ▸ h⟩
  have hvertex : ∀ v, t.vertices v = t'.vertices v ∧ t.sent v = t'.sent v := by
    intro v
    by_cases hv : Active P links s v
    · obtain ⟨x, hx, -⟩ := id hv
      obtain ⟨ms, hcall⟩ := step.exists_call hv
      obtain ⟨ms', hcall'⟩ := step'.exists_call ((hactive v).mp hv)
      have hms := step.inbox v ms hcall
      rw [hmail v x hx] at hms
      have hperm := hms.perm (step'.inbox v ms' hcall')
      obtain ⟨hx₁, hs₁⟩ := step.computed v ms x hcall hx
      obtain ⟨hx₂, hs₂⟩ := step'.computed v ms' x hcall' hx
      rw [hx₁, hs₁, hx₂, hs₂, unordered k v x ms ms' hperm]
      exact ⟨rfl, rfl⟩
    · obtain ⟨hx₁, hs₁⟩ := step.unchanged v hv
      obtain ⟨hx₂, hs₂⟩ := step'.unchanged v fun h => hv ((hactive v).mpr h)
      rw [hx₁, hs₁, hx₂, hs₂]
      exact ⟨rfl, rfl⟩
  exact State.ext (funext fun v => (hvertex v).1) (funext fun v => (hvertex v).2)

end Steps

end Bsp
