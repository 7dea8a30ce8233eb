import Pregel.Refinement

/-!
The same graph on different numbers of workers.

A message between vertices of different owners is lost, so the number of workers
shows as soon as one placement puts sender and receiver of a message on the same
worker and the other does not.

* `same_results`: as long as every message to an existing vertex stays on one worker
  in both placements or leaves it in both, programs that do not look at the order
  of their mail give the same vertices.
* `probe_result`: a program that can tell two placements apart.
* `partition_transparency`: two numbers of workers give the same results on every
  graph if and only if they are equal.
-/

namespace Pregel

open Lts
open WorkerNode (Phase Event)

namespace GraphEngine

variable {σ μ : Type} [Addressed μ]

/-- A vertex, wherever it is. -/
def vertexAt (e : GraphEngine σ μ) (vid : VertexId) : Option (Vertex σ μ) :=
  (e.workers (e.pmap.ownerOf vid)).vertices.lookup vid

/-- The state and the halted flag of a vertex. -/
def result (e : GraphEngine σ μ) (vid : VertexId) : Option (σ × Bool) :=
  (e.vertexAt vid).map fun v => (v.state, v.halted)

/-- `compute` does not depend on the order of the messages in the inbox. -/
def Unordered (compute : Compute σ μ) : Prop :=
  ∀ v ms ms' k, ms.Perm ms' → compute v ms k = compute v ms' k

/-- In these supersteps every message from a vertex to one that exists stays on its
worker in both placements or leaves it in both. -/
def SendsAlike (vertices : List (Vertex σ μ)) (W₁ W₂ : Nat)
    (trs : List (List (WorkerId × Event μ))) : Prop :=
  ∀ tr ∈ trs, ∀ i boxes, (i, Event.finish boxes) ∈ tr → ∀ u box, (u, box) ∈ boxes →
    ∀ m ∈ box, (∃ v ∈ vertices, v.id = dst m) →
      (u % W₁ = dst m % W₁ ↔ u % W₂ = dst m % W₂)

section SameResults

variable {compute : Compute σ μ} {k : Superstep} {timing : WorkerId → WorkerId → Nat}
  {e e' : GraphEngine σ μ} {s : Bsp.State VertexId (Vertex σ μ) μ}
  {tr : List (WorkerId × Event μ)}

/-- What a vertex sends in a superstep is in the trace. -/
theorem sent_in_trace (h : Refines e s) (run : SuperstepRun compute k timing e tr e')
    {u : VertexId} {m : μ} (hm : m ∈ (afterwards compute k e).sent u) :
    ∃ i boxes box, (i, Event.finish boxes) ∈ tr ∧ (u, box) ∈ boxes ∧ m ∈ box := by
  have hi := h.inRange u
  have hcollected := collected_core (h.boundary _ hi) (worker_run run hi)
  simp only [afterwards] at hm
  cases hv : ((e.workers (e.pmap.ownerOf u)).core.computed compute k).lookup u with
  | none => simp [hv] at hm
  | some v =>
      simp only [hv, Option.map_some, Option.getD_some] at hm
      have hfinish : ((e.workers (e.pmap.ownerOf u)).core.computed compute k).entries.map
          (fun e => (e.1, e.2.outbox)) ∈
            WorkerNode.collected (labelsOf (e.pmap.ownerOf u) tr) := by
        simp [hcollected]
      obtain ⟨l, hl, hevent⟩ := List.mem_filterMap.mp hfinish
      cases l with
      | finish boxes =>
          cases hevent
          refine ⟨_, _, v.outbox, mem_labelsOf.mp hl, ?_, hm⟩
          exact List.mem_map.mpr ⟨⟨u, v⟩, AList.lookup_eq_some_iff.mp hv, rfl⟩
      | _ => cases hevent

theorem afterwards_isSome (h : Refines e s) (vid : VertexId) :
    ((afterwards compute k e).vertices vid).isSome = (s.vertices vid).isSome := by
  rw [h.vertices]
  simp [afterwards, Core.computed]
  rfl

/-- Two engines with different numbers of workers in the same abstract state. -/
structure Alike (vertices : List (Vertex σ μ)) (W₁ W₂ : Nat) (e₁ e₂ : GraphEngine σ μ) : Prop where
  pmap₁ : e₁.pmap = { workerCount := W₁ }
  pmap₂ : e₂.pmap = { workerCount := W₂ }
  common : ∃ s, Refines e₁ s ∧ Refines e₂ s ∧
    (∀ vid, (s.vertices vid).isSome → ∃ v ∈ vertices, v.id = vid) ∧
    ∀ u, ∀ m ∈ s.sent u, (∃ v ∈ vertices, v.id = dst m) →
      (u % W₁ = dst m % W₁ ↔ u % W₂ = dst m % W₂)

theorem alike_step {vertices : List (Vertex σ μ)} {W₁ W₂ : Nat} (unordered : Unordered compute)
    {e₁ e₂ e₁' e₂' : GraphEngine σ μ} {timing₁ timing₂ : WorkerId → WorkerId → Nat}
    {tr₁ tr₂ : List (WorkerId × Event μ)} (h : Alike vertices W₁ W₂ e₁ e₂)
    (run₁ : SuperstepRun compute k timing₁ e₁ tr₁ e₁')
    (run₂ : SuperstepRun compute k timing₂ e₂ tr₂ e₂')
    (sends : SendsAlike vertices W₁ W₂ [tr₁]) : Alike vertices W₁ W₂ e₁' e₂' := by
  obtain ⟨hpmap₁, hpmap₂, s, href₁, href₂, hexists, hsent⟩ := h
  have hsame : afterwards compute k e₁ = afterwards compute k e₂ := by
    have hunordered : (program compute).Unordered := by
      intro k v x ms ms' hperm
      exact congrArg (fun w => (w.clearOutbox, w.outbox)) (unordered x.wakeUp ms ms' k hperm)
    refine Bsp.Step.confluent hunordered ?_ (refines_step href₁ run₁) (refines_step href₂ run₂)
    intro u m hm hsome
    have h := hsent u m hm (hexists _ hsome)
    simp only [hpmap₁, hpmap₂, PartitionMap.coLocated, PartitionMap.ownerOf, decide_eq_decide]
    exact h
  refine ⟨?_, ?_, afterwards compute k e₁, refines_afterwards href₁ run₁, ?_, ?_, ?_⟩
  · rw [superstepRun_eq run₁]
    exact hpmap₁
  · rw [superstepRun_eq run₂]
    exact hpmap₂
  · rw [hsame]
    exact refines_afterwards href₂ run₂
  · intro vid hvid
    rw [afterwards_isSome href₁] at hvid
    exact hexists vid hvid
  · intro u m hm hdst
    obtain ⟨i, boxes, box, htr, hbox, hmem⟩ := sent_in_trace href₁ run₁ hm
    exact sends tr₁ List.mem_cons_self i boxes htr u box hbox m hmem hdst

omit [Addressed μ] in
theorem load_exists {vertices : List (Vertex σ μ)} {vid : VertexId}
    (h : ((initially vertices).vertices vid).isSome) : ∃ v ∈ vertices, v.id = vid :=
  (isSome_lastWith.mp h).resolve_left (by simp)

theorem load_alike (config : EngineConfig) {vertices : List (Vertex σ μ)} {W₁ W₂ : Nat}
    (h₁ : 1 ≤ W₁) (h₂ : 1 ≤ W₂) (fresh : ∀ v ∈ vertices, v.outbox = []) :
    Alike vertices W₁ W₂ (load { config with workerCount := W₁ } vertices)
      (load { config with workerCount := W₂ } vertices) := by
  refine ⟨load_pmap _ _, load_pmap _ _, initially vertices, ?_, ?_, ?_, ?_⟩
  · refine load_refines ?_ fresh
    exact h₁
  · refine load_refines ?_ fresh
    exact h₂
  · exact fun vid hvid => load_exists hvid
  · intro u m hm
    cases hm

theorem alike_run {vertices : List (Vertex σ μ)} {W₁ W₂ : Nat} (unordered : Unordered compute)
    {x y x' y' : Superstep × GraphEngine σ μ} {trs₁ trs₂ : List (List (WorkerId × Event μ))}
    (run₁ : Run (NextSuperstep compute) x trs₁ x') (run₂ : Run (NextSuperstep compute) y trs₂ y')
    (start : x.1 = y.1) (stop : x'.1 = y'.1) (sends : SendsAlike vertices W₁ W₂ trs₁)
    (h : Alike vertices W₁ W₂ x.2 y.2) : Alike vertices W₁ W₂ x'.2 y'.2 := by
  have hlength : trs₁.length = trs₂.length := by
    have count₁ := run₁.count (f := Prod.fst) fun _ _ _ next => next.1
    have count₂ := run₂.count (f := Prod.fst) fun _ _ _ next => next.1
    exact Nat.add_left_cancel (n := x.1) (by rw [← count₁, stop, count₂, start])
  induction run₁ generalizing y trs₂ with
  | nil =>
      obtain rfl : trs₂ = [] := List.length_eq_zero_iff.mp hlength.symm
      rw [run_nil_iff.mp run₂]
      exact h
  | @cons x m x' tr₁ trs₁ next₁ _ ih =>
      cases run₂ with
      | nil => cases hlength
      | @cons y n y' tr₂ trs₂ next₂ rest₂ =>
          obtain ⟨hk₁, timing₁, super₁⟩ := next₁
          obtain ⟨hk₂, timing₂, super₂⟩ := next₂
          rw [← start] at super₂
          refine ih rest₂ (by rw [hk₁, hk₂, start]) stop
            (fun tr htr => sends tr (List.mem_cons_of_mem _ htr)) ?_
            (by simpa using hlength)
          apply alike_step unordered h super₁ super₂
          intro tr htr
          rw [List.mem_singleton.mp htr]
          exact sends tr₁ List.mem_cons_self

/-- **Two numbers of workers give the same results as long as messages stay or
leave alike.** -/
theorem same_results (unordered : Unordered compute) (config : EngineConfig)
    {vertices : List (Vertex σ μ)} (fresh : ∀ v ∈ vertices, v.outbox = []) {W₁ W₂ : Nat}
    (h₁ : 1 ≤ W₁) (h₂ : 1 ≤ W₂) {k : Nat} {trs₁ trs₂ : List (List (WorkerId × Event μ))}
    {e₁ e₂ : GraphEngine σ μ}
    (exec₁ : Execution compute (load { config with workerCount := W₁ } vertices) trs₁ k e₁)
    (exec₂ : Execution compute (load { config with workerCount := W₂ } vertices) trs₂ k e₂)
    (sends : SendsAlike vertices W₁ W₂ trs₁) (vid : VertexId) :
    e₁.vertexAt vid = e₂.vertexAt vid := by
  have start := load_alike config h₁ h₂ fresh
  obtain ⟨-, -, s, href₁, href₂, -⟩ := alike_run unordered exec₁ exec₂ rfl rfl sends start
  rw [vertexAt, ← href₁.vertices, href₂.vertices, vertexAt]

end SameResults

/-! ### A program that shows where a vertex is -/

/-- Counts its messages. In superstep 0, vertex 0 sends one to vertex `a`. -/
def probe (a : VertexId) : Compute Nat Message := fun v ms k =>
  let v := { v with state := v.state + ms.length }
  if k = 0 ∧ v.id = 0 then v.sendMessage a ⟨0, a, 0, .heartbeat⟩ else v

def probeVertices (a : VertexId) : List (Vertex Nat Message) :=
  [⟨0, .order, 0, false, [], [], 0⟩, ⟨a, .order, 0, false, [], [], 0⟩]

theorem probe_unordered (a : VertexId) : Unordered (probe a) := by
  intro v ms ms' k hperm
  simp only [probe, hperm.length_eq]

theorem initially_probe (a : VertexId) (vid : VertexId) :
    (initially (probeVertices a)).vertices vid =
      if vid = a then some ⟨a, .order, 0, false, [], [], 0⟩
      else if vid = 0 then some ⟨0, .order, 0, false, [], [], 0⟩ else none := by
  simp only [initially, lastWith, probeVertices, List.foldl_cons, List.foldl_nil, eq_comm]

/-- After superstep 0, vertex 0 has sent its message and no one else has sent any. -/
theorem probe_first {a : VertexId} (ha : a ≠ 0) {links : VertexId → VertexId → Bool}
    {calls : List (VertexId × List Message)} {t : Bsp.State VertexId (Vertex Nat Message) Message}
    (step : Bsp.Step (program (probe a)) links 0 (initially (probeVertices a)) calls t) :
    t.vertices a = some ⟨a, .order, 0, false, [], [], 0⟩ ∧
      ∀ u, t.sent u = if u = 0 then [⟨0, a, 0, .heartbeat⟩] else [] := by
  have hmail : ∀ v ms, (v, ms) ∈ calls → ms = [] := by
    intro v ms hcall
    apply (step.inbox v ms hcall).eq_nil_iff.mpr
    intro u
    simp [Bsp.mail, initially]
  have hcalled : ∀ v x, (initially (probeVertices a)).vertices v = some x → x.halted = false →
      t.vertices v = some ((program (probe a)).compute 0 v x []).1 ∧
        t.sent v = ((program (probe a)).compute 0 v x []).2 := by
    intro v x hx hhalted
    have hactive : Bsp.Active (program (probe a)) links (initially (probeVertices a)) v :=
      ⟨x, hx, Or.inl (by simp [program, hhalted])⟩
    obtain ⟨ms, hcall⟩ := step.exists_call hactive
    obtain rfl := hmail v ms hcall
    exact step.computed v [] x hcall hx
  obtain ⟨hva, hsa⟩ := hcalled a _ (by rw [initially_probe a, if_pos rfl]) rfl
  obtain ⟨-, hs0⟩ := hcalled 0 ⟨0, .order, 0, false, [], [], 0⟩
    (by rw [initially_probe a, if_neg ha.symm, if_pos rfl]) rfl
  refine ⟨?_, fun u => ?_⟩
  · rw [hva]
    simp [program, probe, ha, Vertex.clearOutbox]
  · rcases eq_or_ne u 0 with rfl | hu
    · rw [hs0]
      simp [program, probe, Vertex.sendMessage]
    · rcases eq_or_ne u a with rfl | hua
      · rw [hsa]
        simp [program, probe, hu]
      · rw [if_neg hu]
        refine (step.unchanged u ?_).2
        rintro ⟨x, hx, -⟩
        rw [initially_probe a, if_neg hua, if_neg hu] at hx
        cases hx

/-- In superstep 1, vertex `a` finds the message if vertex 0 can reach it. -/
theorem probe_second {a : VertexId} {links : VertexId → VertexId → Bool}
    {calls : List (VertexId × List Message)}
    {s t : Bsp.State VertexId (Vertex Nat Message) Message}
    (hva : s.vertices a = some ⟨a, .order, 0, false, [], [], 0⟩)
    (hsent : ∀ u, s.sent u = if u = 0 then [⟨0, a, 0, .heartbeat⟩] else [])
    (step : Bsp.Step (program (probe a)) links 1 s calls t) :
    (t.vertices a).map Vertex.state = some (if links 0 a then 1 else 0) := by
  have hactive : Bsp.Active (program (probe a)) links s a :=
    ⟨_, hva, Or.inl (by simp [program])⟩
  obtain ⟨ms, hcall⟩ := step.exists_call hactive
  have hmerges := step.inbox a ms hcall
  have hlen : ms.length = if links 0 a then 1 else 0 := by
    by_cases hlink : links 0 a = true
    · have hone : Bsp.Merges (Bsp.mail (program (probe a)) links s a)
          [⟨0, a, 0, .heartbeat⟩] := by
        refine ⟨[(0, ⟨0, a, 0, .heartbeat⟩)], rfl, fun u => ?_⟩
        rcases eq_or_ne u 0 with rfl | hu
        · simp [Bsp.mail, hlink, hsent, program]
        · simp [Bsp.mail, hsent, hu, hu.symm]
      rw [(hmerges.perm hone).length_eq, if_pos hlink]
      rfl
    · have hnil : ms = [] := by
        apply hmerges.eq_nil_iff.mpr
        intro u
        rcases eq_or_ne u 0 with rfl | hu
        · simp [Bsp.mail, hlink]
        · simp [Bsp.mail, hsent, hu]
      rw [hnil, if_neg hlink]
      rfl
  rw [(step.computed a ms _ hcall hva).1]
  simp [program, probe, Vertex.clearOutbox, hlen]

/-- **After two supersteps vertex `a` has counted the message if and only if vertex
0 can reach it.** -/
theorem probe_result {a : VertexId} (ha : a ≠ 0) {links : VertexId → VertexId → Bool}
    {cs : List (List (VertexId × List Message))}
    {t : Bsp.State VertexId (Vertex Nat Message) Message}
    (run : Run (Bsp.Next (program (probe a)) links) (0, initially (probeVertices a)) cs (2, t)) :
    (t.vertices a).map Vertex.state = some (if links 0 a then 1 else 0) := by
  have hlength := run.count (f := Prod.fst) fun _ _ _ next => next.1
  obtain ⟨c₀, c₁, rfl⟩ := List.length_eq_two.mp (show cs.length = 2 by simpa using hlength.symm)
  obtain ⟨⟨k, s⟩, ⟨hk, first⟩, run⟩ := run_cons_iff.mp run
  obtain ⟨⟨_, t'⟩, ⟨-, second⟩, run⟩ := run_cons_iff.mp run
  obtain rfl : t' = t := (congrArg Prod.snd (run_nil_iff.mp run)).symm
  obtain rfl : k = 1 := hk
  obtain ⟨hva, hsent⟩ := probe_first ha first
  exact probe_second hva hsent second

/-! ### When the number of workers does not show -/

/-- On every graph, `k` supersteps with `W₁` and with `W₂` workers leave every vertex
with the same state and the same halted flag. -/
def Transparent (config : EngineConfig) (W₁ W₂ : Nat) : Prop :=
  ∀ (σ μ : Type) [Addressed μ] (compute : Compute σ μ), Unordered compute →
    ∀ vertices : List (Vertex σ μ), (vertices.map Vertex.id).Nodup →
      (∀ v ∈ vertices, v.outbox = []) → ∀ k trs₁ trs₂ e₁ e₂,
        Execution compute (load { config with workerCount := W₁ } vertices) trs₁ k e₁ →
        Execution compute (load { config with workerCount := W₂ } vertices) trs₂ k e₂ →
        ∀ vid, e₁.result vid = e₂.result vid

/-- What the probe shows on `W` workers. -/
theorem probe_shows {config : EngineConfig} {W : Nat} (hW : 1 ≤ W) {a : VertexId} (ha : a ≠ 0)
    {trs : List (List (WorkerId × Event Message))} {e : GraphEngine Nat Message}
    (exec : Execution (probe a) (load { config with workerCount := W } (probeVertices a)) trs 2 e) :
    (e.result a).map Prod.fst = some (if a % W = 0 then 1 else 0) := by
  have href : Refines (load { config with workerCount := W } (probeVertices a))
      (initially (probeVertices a)) := by
    refine load_refines ?_ (by simp [probeVertices])
    exact hW
  obtain ⟨t, run, href'⟩ := execution_refines href exec
  have hlink : (load { config with workerCount := W } (probeVertices a)).pmap.coLocated 0 a =
      decide (a % W = 0) := by
    rw [load_pmap]
    simp [PartitionMap.coLocated, PartitionMap.ownerOf, eq_comm]
  have hshow := probe_result ha run
  rw [href'.vertices, hlink] at hshow
  rw [result, Option.map_map, vertexAt]
  simpa [Function.comp_def] using hshow

/-- On `W` workers vertices 0 and `W` are together; on more they are not. -/
theorem probe_tells {config : EngineConfig} {W W' : Nat} (hW : 1 ≤ W) (hlt : W < W')
    {trs trs' : List (List (WorkerId × Event Message))} {e e' : GraphEngine Nat Message}
    (exec : Execution (probe W) (load { config with workerCount := W } (probeVertices W)) trs 2 e)
    (exec' : Execution (probe W) (load { config with workerCount := W' } (probeVertices W))
      trs' 2 e') :
    e.result W ≠ e'.result W := by
  intro hsame
  have hne : W ≠ 0 := by omega
  have hone := probe_shows hW hne exec
  have hzero := probe_shows (by omega) hne exec'
  rw [Nat.mod_self, if_pos rfl] at hone
  rw [Nat.mod_eq_of_lt hlt, if_neg hne, ← hsame, hone] at hzero
  cases hzero

/-- Different numbers of workers can be told apart. -/
theorem not_transparent {config : EngineConfig} (numa : 1 ≤ config.numaNodes) {W₁ W₂ : Nat}
    (h₁ : 1 ≤ W₁) (h₂ : 1 ≤ W₂) (hne : W₁ ≠ W₂) : ¬ Transparent config W₁ W₂ := by
  intro transparent
  have hexec : ∀ a W, ∃ trs e,
      Execution (probe a) (load { config with workerCount := W } (probeVertices a)) trs 2 e := by
    intro a W
    have nodes : ∀ i < (load { config with workerCount := W } (probeVertices a)).config.workerCount,
        0 < ((load { config with workerCount := W } (probeVertices a)).workers i).config.numaNodes := by
      intro i _
      refine load_nodes ?_ _ i
      exact numa
    obtain ⟨trs, exec⟩ := execution_supersteps (probe a) (fun _ _ _ => 0) nodes 2
    exact ⟨trs, _, exec⟩
  have hsame : ∀ a, a ≠ 0 → ∀ trs₁ e₁ trs₂ e₂,
      Execution (probe a) (load { config with workerCount := W₁ } (probeVertices a)) trs₁ 2 e₁ →
      Execution (probe a) (load { config with workerCount := W₂ } (probeVertices a)) trs₂ 2 e₂ →
      e₁.result a = e₂.result a := by
    intro a ha trs₁ e₁ trs₂ e₂ exec₁ exec₂
    exact transparent Nat Message (probe a) (probe_unordered a) (probeVertices a)
      (by simpa [probeVertices] using ha.symm) (by simp [probeVertices]) 2 _ _ _ _ exec₁ exec₂ a
  rcases Nat.lt_or_gt_of_ne hne with hlt | hlt
  · obtain ⟨trs₁, e₁, exec₁⟩ := hexec W₁ W₁
    obtain ⟨trs₂, e₂, exec₂⟩ := hexec W₁ W₂
    exact probe_tells h₁ hlt exec₁ exec₂ (hsame W₁ (Nat.one_le_iff_ne_zero.mp h₁) _ _ _ _ exec₁ exec₂)
  · obtain ⟨trs₁, e₁, exec₁⟩ := hexec W₂ W₁
    obtain ⟨trs₂, e₂, exec₂⟩ := hexec W₂ W₂
    exact probe_tells h₂ hlt exec₂ exec₁
      (hsame W₂ (Nat.one_le_iff_ne_zero.mp h₂) _ _ _ _ exec₁ exec₂).symm

/-- **The number of workers is transparent only to itself.** Two numbers of workers
give the same results on every graph if and only if they are equal. On one graph
they do as long as every message from a vertex to one that exists stays on its
worker under both numbers or leaves it under both. -/
theorem partition_transparency (config : EngineConfig) (numa : 1 ≤ config.numaNodes)
    {W₁ W₂ : Nat} (h₁ : 1 ≤ W₁) (h₂ : 1 ≤ W₂) :
    (Transparent config W₁ W₂ ↔ W₁ = W₂) ∧
    ∀ (σ μ : Type) [Addressed μ] (compute : Compute σ μ), Unordered compute →
      ∀ vertices : List (Vertex σ μ), (∀ v ∈ vertices, v.outbox = []) →
      ∀ k trs₁ trs₂ e₁ e₂,
        Execution compute (load { config with workerCount := W₁ } vertices) trs₁ k e₁ →
        Execution compute (load { config with workerCount := W₂ } vertices) trs₂ k e₂ →
        SendsAlike vertices W₁ W₂ trs₁ → ∀ vid, e₁.result vid = e₂.result vid := by
  have hsame : ∀ (σ μ : Type) [Addressed μ] (compute : Compute σ μ), Unordered compute →
      ∀ vertices : List (Vertex σ μ), (∀ v ∈ vertices, v.outbox = []) →
      ∀ k trs₁ trs₂ e₁ e₂,
        Execution compute (load { config with workerCount := W₁ } vertices) trs₁ k e₁ →
        Execution compute (load { config with workerCount := W₂ } vertices) trs₂ k e₂ →
        SendsAlike vertices W₁ W₂ trs₁ → ∀ vid, e₁.result vid = e₂.result vid := by
    intro σ μ _ compute unordered vertices fresh k trs₁ trs₂ e₁ e₂ exec₁ exec₂ sends vid
    rw [result, same_results unordered config fresh h₁ h₂ exec₁ exec₂ sends vid, result]
  refine ⟨⟨fun transparent => ?_, ?_⟩, hsame⟩
  · by_contra hne
    exact not_transparent numa h₁ h₂ hne transparent
  · rintro rfl
    intro σ μ _ compute unordered vertices _ fresh k trs₁ trs₂ e₁ e₂ exec₁ exec₂
    apply hsame σ μ compute unordered vertices fresh k trs₁ trs₂ e₁ e₂ exec₁ exec₂
    exact fun _ _ _ _ _ _ _ _ _ _ _ => Iff.rfl

/-- Vertices 0 and 2 are together on one worker and on two. -/
theorem partition_transparency_two :
    (Transparent { numaNodes := 1 } 1 2 ↔ 1 = 2) ∧
    ∃ tr₁ tr₂ e₁ e₂,
      Execution (probe 2) (load { workerCount := 1, numaNodes := 1 } (probeVertices 2)) [tr₁] 1 e₁ ∧
      Execution (probe 2) (load { workerCount := 2, numaNodes := 1 } (probeVertices 2)) [tr₂] 1 e₂ ∧
      SendsAlike (probeVertices 2) 1 2 [tr₁] ∧ e₁.result 2 = e₂.result 2 := by
  obtain ⟨hiff, hsame⟩ := partition_transparency { numaNodes := 1 } (by decide)
    (show 1 ≤ 1 by decide) (show 1 ≤ 2 by decide)
  obtain ⟨tr₁, run₁⟩ := superstepRun_supersteps (probe 2) (fun _ _ _ => 0)
    (e := load { workerCount := 1, numaNodes := 1 } (probeVertices 2))
    (fun i _ => load_nodes Nat.one_pos _ i) 0
  obtain ⟨tr₂, run₂⟩ := superstepRun_supersteps (probe 2) (fun _ _ _ => 0)
    (e := load { workerCount := 2, numaNodes := 1 } (probeVertices 2))
    (fun i _ => load_nodes Nat.one_pos _ i) 0
  have exec₁ : Execution (probe 2) (load { workerCount := 1, numaNodes := 1 } (probeVertices 2))
    [tr₁] 1 _ := .one ⟨rfl, _, run₁⟩
  have exec₂ : Execution (probe 2) (load { workerCount := 2, numaNodes := 1 } (probeVertices 2))
    [tr₂] 1 _ := .one ⟨rfl, _, run₂⟩
  have sends : SendsAlike (probeVertices 2) 1 2 [tr₁] := by
    intro tr htr i boxes hmem u box hbox m hm _
    rw [List.mem_singleton.mp htr] at hmem
    obtain rfl : i = 0 := Nat.lt_one_iff.mp (label_inRange run₁ hmem)
    have hcollected := collected_core (load_atBoundary _ _ Nat.one_pos) (worker_run run₁ Nat.one_pos)
    have hboxes : boxes ∈ WorkerNode.collected (labelsOf 0 tr₁) :=
      List.mem_filterMap.mpr ⟨_, mem_labelsOf.mpr hmem, rfl⟩
    rw [hcollected, List.mem_singleton] at hboxes
    have hall : ∀ b ∈ ((load { workerCount := 1, numaNodes := 1 }
        (probeVertices 2)).workers 0).core.computed (probe 2) 0 |>.entries.map
          (fun e => (e.1, e.2.outbox)), ∀ m ∈ b.2, b.1 % 2 = m.dst % 2 := by decide
    have halike := hall (u, box) (hboxes ▸ hbox) m hm
    simpa [Nat.mod_one] using halike
  exact ⟨hiff, tr₁, tr₂, _, _, exec₁, exec₂, sends,
    hsame Nat Message (probe 2) (probe_unordered 2) (probeVertices 2) (by decide) 1 _ _ _ _
      exec₁ exec₂ sends 2⟩

/-- One and two workers give different results. -/
theorem transparency_fails : ∃ trs₁ trs₂ e₁ e₂,
    Unordered (probe 1) ∧
    Execution (probe 1) (load { workerCount := 1 } (probeVertices 1)) trs₁ 2 e₁ ∧
    Execution (probe 1) (load { workerCount := 2 } (probeVertices 1)) trs₂ 2 e₂ ∧
    e₁.result 1 = some (1, false) ∧ e₂.result 1 = some (0, false) := by
  obtain ⟨trs₁, exec₁⟩ := execution_supersteps (probe 1) (fun _ _ _ => 4)
    (e := load { workerCount := 1 } (probeVertices 1)) (fun i _ => load_nodes Nat.two_pos _ i) 2
  obtain ⟨trs₂, exec₂⟩ := execution_supersteps (probe 1) (fun _ _ _ => 4)
    (e := load { workerCount := 2 } (probeVertices 1)) (fun i _ => load_nodes Nat.two_pos _ i) 2
  exact ⟨trs₁, trs₂, _, _, probe_unordered 1, exec₁, exec₂, by decide +kernel,
    by decide +kernel⟩

end GraphEngine

end Pregel
