import ExactInference.Proofs.AnyQueries

/-!
# Queries to exact marginals

A query for one variable is answered with the weights of its states, whether it is free or observed.
If the set is exact for a graph, then the posterior of a variable gives
to each of its states the share of that state in the partition function. If the partition function
is zero, then dividing by it is left out, and all the weights are zero.
-/

namespace ExactInference

variable {W L : Type}

theorem completions_singleton (n : String) (c : ℕ) (x : JointState) :
    completions [⟨n, c⟩] x = (List.range c).map (x.set n) := by
  rw [completions_cons, List.map_eq_flatMap]
  rfl

namespace Factor

variable {f : Factor W L} {n : String} {c : ℕ}

theorem inRange_single (h : f.scope.axes = [⟨n, c⟩]) {s : ℕ} (hs : s < c) :
    InRange f.scope.axes (JointState.origin.set n s) := by
  rw [h]
  intro a ha
  rw [List.mem_singleton.1 ha, JointState.set_self]
  exact hs

variable [WeightScale W] [WeightScale L] [LogConversion W L]

/-- The values of a factor over one variable are its weights at the states. -/
theorem valuesFor_of_single (h : f.scope.axes = [⟨n, c⟩]) :
    f.valuesFor [n] = .ok ((List.range c).map fun s => f.weightAt (JointState.origin.set n s)) := by
  have haxes : f.weights.scope.axes = [⟨n, c⟩] := by rw [FactorGraph.scope_weights, h]
  have hnames : f.weights.names = [n] := by rw [Table.names, Scope.names, haxes]; rfl
  have horder : f.weights.axesInOrder [n] = [⟨n, c⟩] := by simp [Table.axesInOrder, haxes]
  have hperm : [n].isPerm f.weights.names = true := by
    rw [hnames, List.isPerm_iff]
  rw [valuesFor, Table.valuesFor_eq, if_pos hperm, horder, completions_singleton, List.map_map]
  rfl

end Factor

namespace FactorGraph

variable {g : FactorGraph W L} {n : String}

/-- A query for one variable can only fail if it is observed and its states are too many. -/
theorem tooLarge_single :
    g.TooLarge [n] ↔ n ∈ g.conditioned.keys ∧ ¬ 8 * (g.stateCountOf n : Int) < signedLimit := by
  have hfits : FitsTable ([n].map g.stateCountOf) ↔ 8 * (g.stateCountOf n : Int) < signedLimit := by
    simp [FitsTable, maxAxes]
  simp only [TooLarge, List.mem_singleton, exists_eq_left, hfits]

end FactorGraph

namespace Factor

variable [Semifield W] [LinearOrder W] [WeightScale W] [WeightScale L] [LogConversion W L]
  [ExactScale W] {f : Factor W L} {n : String} {c : ℕ}

/-- The total of a factor over one variable is the sum over its states. -/
theorem totalWeight_of_single (h : f.scope.axes = [⟨n, c⟩]) :
    f.totalWeight = ((List.range c).map fun s => f.weightAt (JointState.origin.set n s)).sum := by
  rw [totalWeight, Table.total, Table.toList_eq_map_weightAt, ExactScale.total_eq,
    FactorGraph.scope_weights, Scope.jointStates, h, completions_singleton, List.map_map]
  rfl

variable [IsStrictOrderedRing W] [CanonicallyOrderedAdd W] [ExactLog W L]

/-- Normalized, they are the shares of the states in the total. -/
theorem valuesFor_normalize (h : f.scope.axes = [⟨n, c⟩]) (hc : 0 < c) :
    (f.normalize >>= fun r => r.valuesFor [n]) = .ok ((List.range c).map fun s =>
      f.weightAt (JointState.origin.set n s) / f.totalWeight) := by
  have hpos : ∀ a ∈ f.scope.axes, 0 < a.card := by
    rw [h]
    exact fun a ha => List.mem_singleton.1 ha ▸ hc
  obtain ⟨r, hr, hscope, hweight⟩ := f.normalize_spec hpos
  rw [hr]
  refine (valuesFor_of_single (hscope ▸ h)).trans (congrArg Except.ok ?_)
  exact List.map_congr_left fun s hs => hweight _ (inRange_single h (List.mem_range.1 hs))

end Factor

namespace FactorGraph

variable [Semifield W] [WeightScale W] [WeightScale L] [LogConversion W L] {g : FactorGraph W L}
  {n : String}

/-- The joint weights of all joint states in which a variable is in one of its states, added up. An
observed variable only has weight in its observed state. -/
def stateWeight (g : FactorGraph W L) (n : String) (s : ℕ) : W :=
  match g.conditioned.get? n with
  | some i => if i = s then g.partitionFunction else 0
  | none => g.jointWeightOver (g.freeAxes.filter fun a => a.name ≠ n) (JointState.origin.set n s)

theorem stateWeight_of_observed {i : Int} (h : g.conditioned.get? n = some i) (s : ℕ) :
    g.stateWeight n s = if i = s then g.partitionFunction else 0 := by
  rw [stateWeight, h]

variable [LinearOrder W] [ExactScale W]

theorem stateWeight_of_free (h : n ∈ g.freeNames) (s : ℕ) :
    g.stateWeight n s = g.marginalOver .sum {n} (JointState.origin.set n s) := by
  rw [stateWeight, get?_conditioned h, ← jointWeightOver_eq]
  simp only [Finset.mem_singleton]

/-- The states of a variable share the partition function. -/
theorem Reachable.sum_stateWeight [CanonicallyOrderedAdd W]
    (hg : Reachable g) (hn : n ∈ g.states.keys) :
    ((List.range (g.stateCountOf n)).map (g.stateWeight n)).sum = g.partitionFunction := by
  cases hobserved : g.conditioned.get? n with
  | some i =>
    obtain ⟨labels, hlabels, hlow, hlt⟩ := hg.observed_lt hobserved
    obtain ⟨k, rfl⟩ := Int.eq_ofNat_of_zero_le hlow
    have hk : k < g.stateCountOf n := by
      rw [stateCountOf, hlabels]
      exact_mod_cast hlt
    rw [List.map_congr_left fun s _ => stateWeight_of_observed hobserved s,
      ← List.sum_toFinset _ List.nodup_range, List.toFinset_range]
    simp [hk]
  | none =>
    have hfree : n ∈ g.freeNames := mem_freeNames_of_get? hn hobserved
    let own : List Axis := [⟨n, g.stateCountOf n⟩]
    have hown : (own.map Axis.name).Nodup := List.nodup_singleton n
    have hperm : own.Perm (axesIn g.freeAxes {n}) :=
      Scope.perm_axesIn hg.sound.freeNames_nodup hown
        (fun a ha => List.mem_singleton.1 ha ▸ mem_freeAxes.2 ⟨hfree, rfl⟩) fun k => by simp [own]
    have hsum : Mode.sum.along own (g.marginalOver .sum {n}) = g.marginalOver .sum ∅ := by
      rw [Mode.along_perm .sum hperm hown]
      exact hg.sound.collapse_marginalOver .sum
        (Finset.singleton_subset_iff.2 (List.mem_toFinset.2 hfree))
    rw [List.map_congr_left fun s _ => stateWeight_of_free hfree s,
      hg.sound.partitionFunction_eq JointState.origin, ← hsum, Mode.along, completions_singleton,
      List.map_map, ← Mode.total_eq_collect, ExactScale.total_eq]
    rfl

/-- An answer for one variable is over just this variable, and has the weights of its states. -/
theorem Answers.single (hg : Reachable g) (hn : n ∈ g.states.keys) {f : Factor W L}
    (hf : g.Answers [n] f) :
    f.scope.axes = [⟨n, g.stateCountOf n⟩] ∧
      ∀ x, InRange f.scope.axes x → f.weightAt x = g.stateWeight n (x n) := by
  constructor
  · obtain ⟨a, haxes, hname⟩ := List.map_eq_singleton_iff.1 (List.perm_singleton.1 hf.names_perm)
    have hcard := hf.card_eq a (haxes ▸ List.mem_singleton_self a)
    rw [haxes, ← hname, ← hcard]
  · intro x hx
    cases hi : g.conditioned.get? n with
    | none =>
      have hfree : n ∈ g.freeNames := mem_freeNames_of_get? hn hi
      have hown : (g.unobserved [n]).toFinset = {n} := by
        rw [unobserved, List.filter_singleton, OrderedMap.contains, hi]
        rfl
      have hweight := hf.weight_eq x hx fun v hv i hv' => by
        rw [List.mem_singleton.1 hv, hi] at hv'
        cases hv'
      rw [hweight, ← marginalOver_unobserved, hown, stateWeight_of_free hfree]
      refine hg.sound.reads_marginalOver .sum {n} _ _ fun v hv => ?_
      rw [Finset.mem_singleton.1 hv, JointState.set_self]
    | some i =>
      have hnone : (g.unobserved [n]).toFinset = ∅ := by
        rw [unobserved, List.filter_singleton, OrderedMap.contains, hi]
        rfl
      rw [stateWeight_of_observed hi]
      by_cases hstate : i = x n
      · have hweight := hf.weight_eq x hx fun v hv j hj => by
          rw [List.mem_singleton.1 hv] at hj ⊢
          rwa [← Option.some.inj (hi.symm.trans hj)]
        rw [if_pos hstate, hweight, ← marginalOver_unobserved, hnone,
          hg.sound.partitionFunction_eq x]
      · rw [if_neg hstate]
        exact hf.weight_eq_zero x hx n (List.mem_singleton_self n) i hi hstate

end FactorGraph

namespace MarginalSet

variable [WeightScale W] [WeightScale L] [LogConversion W L] {g : FactorGraph W L}
  {m : MarginalSet W L} {n : String} (h : ExactFor g m) (hg : FactorGraph.Reachable g)
  (hcards : m.cards = Engine.observedCards g) (hn : n ∈ g.states.keys)

include h hg hcards hn

variable [Semifield W] [LinearOrder W] [CanonicallyOrderedAdd W] [ExactScale W] [ExactLog W L]

/-- Every variable has an answer, unless it is observed and its states are too many. -/
theorem ExactFor.yields_single :
    Yields (fun fault => fault.isTableLimit = true ∧ g.TooLarge [n])
      (fun f => g.Answers [n] f ∧ ¬ g.TooLarge [n]) (m.marginal [n]) := by
  refine h.yields_marginal hg hcards (List.nodup_singleton n) ?_
  rintro ⟨hsome, hnone⟩
  obtain ⟨v, hv⟩ := List.exists_mem_of_ne_nil _ hsome
  obtain ⟨hv, hfree⟩ := FactorGraph.mem_unobserved.1 hv
  rw [List.mem_singleton.1 hv] at hfree
  obtain ⟨f, hf, hcover⟩ := h.cover n (FactorGraph.mem_freeNames.2 ⟨hn, hfree⟩)
  exact hnone f hf fun w hw => List.mem_singleton.1 (FactorGraph.mem_unobserved.1 hw).1 ▸ hcover

/-- If the posterior of an observed variable is given, then its states are not too many. -/
theorem ExactFor.lt_of_posterior (hobserved : n ∈ g.conditioned.keys) {f : Factor W L}
    (hf : m.posterior [n] = .ok f) : 8 * (g.stateCountOf n : Int) < signedLimit := by
  obtain ⟨k, hk, -⟩ := bind_eq_ok_iff.1 hf
  by_contra hlarge
  exact ((h.yields_single hg hcards hn).answer_of_eq_ok hk).2
    (FactorGraph.tooLarge_single.2 ⟨hobserved, hlarge⟩)

variable [IsStrictOrderedRing W]

/-- The posterior of a variable gives to each state its share of the partition function. If that is
zero, then all shares are. -/
theorem ExactFor.posterior
    (hfit : n ∈ g.conditioned.keys → 8 * (g.stateCountOf n : Int) < signedLimit) :
    (m.posterior [n] >>= fun f => f.valuesFor [n]) = .ok
      ((List.range (g.stateCountOf n)).map fun s => g.stateWeight n s / g.partitionFunction) := by
  have hmarginal : ∃ k, m.marginal [n] = .ok k ∧ g.Answers [n] k := by
    have hyields := h.yields_single hg hcards hn
    cases hk : m.marginal [n] with
    | error fault =>
      obtain ⟨hobserved, hlarge⟩ :=
        FactorGraph.tooLarge_single.1 (hyields.fault_of_eq_error hk).2
      exact absurd (hfit hobserved) hlarge
    | ok k => exact ⟨k, rfl, (hyields.answer_of_eq_ok hk).1⟩
  obtain ⟨k, hk, hanswers⟩ := hmarginal
  obtain ⟨haxes, hweight⟩ := hanswers.single hg hn
  have hstate : ∀ s ∈ List.range (g.stateCountOf n),
      k.weightAt (JointState.origin.set n s) = g.stateWeight n s := by
    intro s hs
    rw [hweight _ (Factor.inRange_single haxes (List.mem_range.1 hs)), JointState.set_self]
  have htotal : k.totalWeight = g.partitionFunction := by
    rw [Factor.totalWeight_of_single haxes, List.map_congr_left hstate, hg.sum_stateWeight hn]
  have hvalues := Factor.valuesFor_normalize haxes (hg.sound.stateCountOf_pos hn)
  rw [htotal, List.map_congr_left fun s hs => congrArg (· / g.partitionFunction) (hstate s hs)]
    at hvalues
  rw [MarginalSet.posterior, hk]
  exact hvalues

end MarginalSet

end ExactInference
