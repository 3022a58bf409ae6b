import ExactInference.Proofs.BestAssignments
import ExactInference.Proofs.ImpossibleEvidence

/-!
# Graphs made by any calls

A caller declares variables, adds factors, makes graphs of factors and observes variables, in any
order, and goes on where a call was refused. A refused call leaves the graph as it is. So after any
calls every factor fits the free variables, and every observed state is one of its variable. This
leaves an engine only two things to complain about: the graph has no clique tree, or its total is
zero. Max-marginals can always be decoded.
-/

namespace ExactInference

variable {W L : Type}

/-- A call that makes a graph of the one before. -/
inductive GraphCall (W L : Type) : Type 1
  /-- Declare a variable. -/
  | addVariable (name : String) (states : StateList)
  /-- Add a factor. -/
  | addFactor (f : Factor W L)
  /-- Begin anew with the graph of some factors. -/
  | ofFactors (fs : List (Factor W L))
  /-- Observe variables. -/
  | conditional {σ : Type} [StateValue σ] (a : OrderedMap String σ)

variable [WeightScale W] [WeightScale L]

namespace GraphCall

/-- What a call makes of a graph, or why it is refused. -/
def run (g : FactorGraph W L) : GraphCall W L → Except Fault (FactorGraph W L)
  | addVariable name states => g.addVariable name states
  | addFactor f => g.addFactor f
  | ofFactors fs => FactorGraph.ofFactors fs
  | conditional a => g.conditional a

/-- The graph after a call; one that is refused leaves the graph as it is. -/
def apply (g : FactorGraph W L) (call : GraphCall W L) : FactorGraph W L :=
  match call.run g with
  | .ok g' => g'
  | .error _ => g

end GraphCall

namespace FactorGraph

/-- The graph after some calls, beginning without variables and factors. -/
def graphAfter (calls : List (GraphCall W L)) : FactorGraph W L := calls.foldl GraphCall.apply empty

variable {g : FactorGraph W L}

/-- A call that is accepted leaves a graph that can be made, without a schedule. -/
theorem reachable_apply (hg : Reachable g) (hhint : g.hint = none) (call : GraphCall W L) :
    Reachable (call.apply g) ∧ (call.apply g).hint = none := by
  unfold GraphCall.apply
  cases h : call.run g with
  | error _ => exact ⟨hg, hhint⟩
  | ok g' =>
    cases call with
    | addVariable name states =>
      refine ⟨.addVariable hg h, ?_⟩
      obtain ⟨-, -, rfl⟩ := of_addVariable h
      exact hhint
    | addFactor f =>
      refine ⟨.addFactor hg h, ?_⟩
      obtain ⟨⟨⟩, -, h⟩ := bind_eq_ok_iff.1 h
      cases h
      exact hhint
    | ofFactors fs => exact ⟨.ofFactors h, (unobserved_of_ofFactors h).2⟩
    | conditional a =>
      refine ⟨.conditional hg h, ?_⟩
      obtain ⟨observed, factors, -, -, rfl⟩ := of_conditional h
      rfl

/-- So do any calls. -/
theorem reachable_graphAfter (calls : List (GraphCall W L)) :
    Reachable (graphAfter calls) ∧ (graphAfter calls).hint = none := by
  induction calls using List.reverseRecOn with
  | nil => exact ⟨.empty, rfl⟩
  | append_singleton calls call ih =>
    rw [graphAfter, List.foldl_append]
    exact reachable_apply ih.1 ih.2 call

/-- A graph whose factors fit its free variables, and whose observed states are states of their
variables. -/
structure Consistent (g : FactorGraph W L) : Prop where
  /-- The variables of a factor are declared, with as many states as the factor has there, of which
  there is one at least. -/
  declared : ∀ f ∈ g.factors, ∀ a ∈ f.scope.axes,
    ∃ labels, g.states.get? a.name = some labels ∧ labels.length = a.card ∧ 0 < a.card
  /-- They are different. -/
  distinct : ∀ f ∈ g.factors, f.names.Nodup
  /-- Nothing is observed of them. -/
  unobserved : ∀ f ∈ g.factors, ∀ n ∈ f.names, g.conditioned.get? n = none
  /-- An observed state is a state of a declared variable. -/
  in_range : ∀ {n : String} {i : Int}, g.conditioned.get? n = some i →
    ∃ labels, g.states.get? n = some labels ∧ 0 ≤ i ∧ i < labels.length

/-- Every graph that can be made is consistent. -/
theorem Reachable.consistent (hg : Reachable g) : g.Consistent where
  declared f hf a ha := by
    obtain ⟨hfree, hcard⟩ := mem_freeAxes.1 (hg.sound.within f hf a ha)
    obtain ⟨labels, hlabels⟩ := OrderedMap.exists_get?_of_mem_keys (mem_freeNames.1 hfree).1
    have hlength : labels.length = a.card := by rw [hcard, stateCountOf, hlabels, Option.getD_some]
    exact ⟨labels, hlabels, hlength,
      hlength ▸ List.length_pos_iff.2 (hg.sound.states_ne_nil hlabels)⟩
  distinct f _ := f.scope.distinct
  unobserved f hf n hn := by
    obtain ⟨a, ha, rfl⟩ := List.mem_map.1 hn
    exact get?_conditioned (mem_freeAxes.1 (hg.sound.within f hf a ha)).1
  in_range h := hg.observed_lt h

end FactorGraph

variable [LogConversion W L]

namespace Engine

open CliqueTree FactorGraph

variable {g : FactorGraph W L} {e : Engine}

/-- Without a schedule of its own a graph has all that an engine needs, or it is refused for having
no tree. -/
theorem equipped_or_refused (hg : g.Sound) (hhint : g.hint = none) :
    e.Equipped g ∨ ∃ fault, fault.isConstruction = true ∧
      (e.marginals g).answer = .error fault ∧ (e.maxMarginals g).answer = .error fault := by
  by_cases hfree : g.freeNames = []
  · exact Or.inl (Or.inl hfree)
  cases hsole : soleFactor? g with
  | some f => exact Or.inl (Or.inr (Or.inl (by rw [hsole]; rfl)))
  | none =>
    cases ht : (ofGraph e.useHint g).answer with
    | ok t => exact Or.inl (.of_ofGraph hg (fun _ => hhint) ht)
    | error fault =>
      refine Or.inr ⟨fault, isConstruction_of_ofGraph hg hfree ht, ?_, ?_⟩
      · rw [marginals_eq_throughTree hfree hsole]
        exact throughTree_of_no_tree ht
      · rw [maxMarginals_eq_throughTree hfree hsole]
        exact throughTree_of_no_tree ht

variable [Semifield W] [LinearOrder W] [IsStrictOrderedRing W] [CanonicallyOrderedAdd W]
  [ExactScale W] [ExactLog W L]

/-- With exact weights nothing is too large to be written, so only the total can be wrong. -/
theorem Equipped.zeroProbability_of_error (h : e.Equipped g) (hg : FactorGraph.Reachable g)
    (hhint : g.hint = none) {fault : Fault} (hfault : (e.marginals g).answer = .error fault) :
    fault = .zeroProbability := by
  have hreports := h.reportsImpossible hg hhint
  by_cases hzero : g.partitionFunction = 0 ∧ g.freeNames ≠ []
  · cases hfault.symm.trans (hreports.fault_iff.2 hzero)
    rfl
  · obtain ⟨m, hm, -⟩ := hreports.exists_exact hzero
    cases hfault.symm.trans hm

/-- After any calls the graph is consistent. Then marginals only fail if there is no clique tree or
if the total is zero, and max-marginals with their decoding only if there is no clique tree. -/
theorem nothing_unexpected (calls : List (GraphCall W L)) (e : Engine) :
    (graphAfter calls).Consistent ∧
      (∀ fault, (e.marginals (graphAfter calls)).answer = .error fault →
        fault.isConstruction = true ∨ fault = .zeroProbability) ∧
      ∀ fault, ((e.maxMarginals (graphAfter calls)).answer >>= MaxMarginalSet.bestAssignment)
          = .error fault → fault.isConstruction = true := by
  obtain ⟨hg, hhint⟩ := reachable_graphAfter calls
  refine ⟨hg.consistent, fun fault hfault => ?_, fun fault hfault => ?_⟩
  · rcases equipped_or_refused (e := e) hg.sound hhint with h | ⟨refusal, hrefusal, hsum, -⟩
    · exact Or.inr (h.zeroProbability_of_error hg hhint hfault)
    · cases hfault.symm.trans hsum
      exact Or.inl hrefusal
  · rcases equipped_or_refused (e := e) hg.sound hhint with h | ⟨refusal, hrefusal, -, hmax⟩
    · obtain ⟨m, hm⟩ := h.exists_maxMarginals hg.sound
      obtain ⟨a, ha, -⟩ := decodes_of_maxMarginals hg hm
      rw [hm] at hfault
      cases hfault.symm.trans ha
    · rw [hmax] at hfault
      cases hfault
      exact hrefusal

/-- Calls of which every second one is refused: a factor without states, a name that is taken, a
factor with a state too many, a factor over an unknown variable, and a state that does not exist. -/
def unrulyCalls : List (GraphCall ℚ≥0 (FormalLog ℚ≥0)) :=
  [.addVariable "Z" (.count 2), .ofFactors [Factor.uniformOver "A" 0],
    .ofFactors pairOfFactors, .addVariable "C" (.count 3),
    .addVariable "D" (.labels ["no", "yes"]),
    .addFactor (Factor.uniformOver "D" 3),
    .addFactor (pairFactor "C" "D" 1 2 3 4),
    .addFactor (pairFactor "D" "E" 1 1 1 1),
    .conditional (OrderedMap.ofList [("B", (1 : Int))]),
    .conditional (OrderedMap.ofList [("D", (2 : Int))])]

/-- After these calls three variables are free, and both kinds of marginals are answered. -/
theorem nothing_unexpected_unruly :
    ((graphAfter unrulyCalls).Consistent ∧
      (∀ fault, (standard.marginals (graphAfter unrulyCalls)).answer = .error fault →
        fault.isConstruction = true ∨ fault = .zeroProbability) ∧
      ∀ fault, ((standard.maxMarginals (graphAfter unrulyCalls)).answer
          >>= MaxMarginalSet.bestAssignment) = .error fault → fault.isConstruction = true) ∧
    (graphAfter unrulyCalls).freeNames = ["A", "C", "D"] ∧
      ∃ m, (standard.marginals (graphAfter unrulyCalls)).answer = .ok m := by
  have hok : (standard.marginals (graphAfter unrulyCalls)).answer.toBool = true := by
    decide +kernel
  exact ⟨nothing_unexpected unrulyCalls standard, by decide +kernel, exists_of_toBool hok⟩

end Engine

end ExactInference
