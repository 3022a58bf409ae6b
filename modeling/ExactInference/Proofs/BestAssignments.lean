import ExactInference.Proofs.Decoding
import ExactInference.Proofs.ExactMarginals

/-!
# Optimality of decoding

Whenever an engine answers a graph with max-marginals, decoding them gives a best assignment: every
free variable is in one of its states, every observed variable keeps its state, and no joint state
weighs more. Ties, zeros, several components and variables that no factor mentions make no
difference.
-/

namespace ExactInference.Engine

open MaxMarginalSet CliqueTree

variable {W L : Type} [LinearOrder W] [WeightScale W] [WeightScale L] [LogConversion W L]
  {g : FactorGraph W L} {e : Engine} {t : CliqueTree W L}

/-- Max-marginals whose decoding gives a best assignment. -/
def Decodes (g : FactorGraph W L) (m : MaxMarginalSet W L) : Prop :=
  ∃ a, m.bestAssignment = .ok a ∧ BestFor g a

/-- A graph without free variables only keeps what was observed. -/
theorem maxMarginals_of_no_names (hg : g.Sound) (hfree : g.freeNames = []) :
    ∃ m, (e.maxMarginals g).answer = .ok m ∧ Decodes g m := by
  refine ⟨_, maxAnswer_of_no_names hfree, g.conditioned, rfl, ?_⟩
  have haxes : g.freeAxes = [] := by rw [FactorGraph.freeAxes, hfree, List.map_nil]
  refine BestFor.of_state (y := JointState.origin) hg (inRange_origin hg.card_pos) (fun n hn => ?_)
    (fun _ _ => rfl) fun x _ => le_of_eq ?_
  · rw [hfree] at hn
    exact absurd hn List.not_mem_nil
  · refine hg.reads_jointWeightAt x JointState.origin fun n hn => ?_
    rw [hfree] at hn
    simp at hn

variable [Semifield W] [ExactScale W] [ExactLog W L]

/-- A graph with one factor over its free variables is decoded by the best entry of it. -/
theorem maxMarginals_of_sole (hg : g.Sound) (hfree : g.freeNames ≠ []) {f : Factor W L}
    (hf : soleFactor? g = some f) :
    ∃ m, (e.maxMarginals g).answer = .ok m ∧ Decodes g m := by
  obtain ⟨hfactors, hvars⟩ := soleFactor?_eq_some hf
  have hin : f.scope.Within g.freeAxes :=
    hg.within f (by rw [hfactors]; exact List.mem_singleton_self f)
  have hweight : ∀ x, g.jointWeightAt x = f.weightAt x := fun x => by
    rw [FactorGraph.jointWeightAt, Factor.productAt_eq_prod, hfactors]
    simp
  have hnone : ∀ v ∈ f.vars, v ∉ (∅ : Finset String) → g.conditioned.get? v = none := by
    intro v hv _
    rw [hvars, List.mem_toFinset] at hv
    exact FactorGraph.get?_conditioned hv
  obtain ⟨a, y, hdecode, hy, -, hnew, hother, hbest⟩ :=
    decode_spec (m := inOrder [f] g.conditioned) (i := 0) hg.freeNames_nodup hg.card_pos rfl hin
      (inRange_origin hg.card_pos) ∅ (fun v _ hk => absurd hk (Finset.notMem_empty v)) hnone
  have hassignment : (inOrder [f] g.conditioned).bestAssignment = .ok a := by
    change ((inOrder [f] g.conditioned).decode g.conditioned ((0 : ℕ) : Int) >>= fun a => .ok a)
      = .ok a
    rw [hdecode]
    rfl
  refine ⟨_, maxAnswer_of_sole hfree hf, a, hassignment,
    BestFor.of_state hg hy (fun n hn => hnew n ?_) (fun n hn => hother n fun hin => hn ?_)
      fun x hx => ?_⟩
  · rw [hvars]
    exact List.mem_toFinset.2 hn
  · rw [hvars] at hin
    exact List.mem_toFinset.1 hin
  · rw [hweight, hweight]
    exact hbest x hx fun v _ hk => absurd hk (Finset.notMem_empty v)

variable [IsStrictOrderedRing W] [CanonicallyOrderedAdd W]

section Tree

variable (hg : g.Sound) (hfree : g.freeNames ≠ []) (hsole : soleFactor? g = none)
  (ht : (ofGraph e.useHint g).answer = .ok t)
include hg hfree hsole ht

/-- A tree on which all messages are delivered can be decoded. -/
theorem maxMarginals_of_delivers (hall : t.Delivers) :
    ∃ m, (e.maxMarginals g).answer = .ok m ∧ Decodes g m := by
  have hbuilt := built_of_ofGraph hg ht
  obtain ⟨roots, p, ms, q, hrun, hms, hframe, hpassed⟩ := hbuilt.passed hg .max hall
  have horder : q.tree.tracebackOrder roots = t.tracebackOrder roots :=
    tracebackOrder_eq_of_frame_eq hframe roots
  have hextract : Passing.extractMaxMarginals roots g.conditioned ⟨p.tree, []⟩
      = .ok ⟨ms, g.conditioned, (q.tree.tracebackOrder roots).map Int.ofNat⟩ q :=
    (PassingStep.bind_of_ok hms).trans (PassingStep.inspect_of_ok rfl)
  rw [horder] at hextract
  refine ⟨_, ?_, bestAssignment_of_passed hbuilt hg hpassed⟩
  rw [maxMarginals_eq_throughTree hfree hsole]
  exact throughTree_of_ok ht hrun hextract

/-- A tree on which some message is not delivered gives no max-marginals. -/
theorem maxMarginals_of_not_delivers (hmissing : ¬ t.Delivers) :
    ∃ k i : ℕ, (e.maxMarginals g).answer = .error (.messageMissing k i) := by
  have hbuilt := built_of_ofGraph hg ht
  obtain ⟨roots, p, k, i, q, hrun, hq⟩ := hbuilt.not_passed hg .max hmissing
  refine ⟨k, i, ?_⟩
  rw [maxMarginals_eq_throughTree hfree hsole]
  exact throughTree_of_error ht hrun (PassingStep.bind_of_error hq)

end Tree

/-- Any answer with max-marginals can be decoded. -/
theorem decodes_of_maxMarginals (hg : FactorGraph.Reachable g) {m : MaxMarginalSet W L}
    (h : (e.maxMarginals g).answer = .ok m) : Decodes g m := by
  have hdecodes : (∃ m', (e.maxMarginals g).answer = .ok m' ∧ Decodes g m') → Decodes g m := by
    rintro ⟨m', hm', hm'g⟩
    cases hm'.symm.trans h
    exact hm'g
  by_cases hfree : g.freeNames = []
  · exact hdecodes (maxMarginals_of_no_names hg.sound hfree)
  cases hsole : soleFactor? g with
  | some f => exact hdecodes (maxMarginals_of_sole hg.sound hfree hsole)
  | none =>
    cases ht : (ofGraph e.useHint g).answer with
    | error fault =>
      rw [maxMarginals_eq_throughTree hfree hsole, throughTree_of_no_tree ht] at h
      cases h
    | ok t =>
      by_cases hall : t.Delivers
      · exact hdecodes (maxMarginals_of_delivers hg.sound hfree hsole ht hall)
      · obtain ⟨k, i, herror⟩ := maxMarginals_of_not_delivers hg.sound hfree hsole ht hall
        cases herror.symm.trans h

/-- Whenever an engine answers with max-marginals, decoding them puts every free variable into one
of its states, leaves the observed variables at theirs, and no joint state weighs more. -/
theorem bestAssignment_of_maxMarginals (hg : FactorGraph.Reachable g) {m : MaxMarginalSet W L}
    (h : (e.maxMarginals g).answer = .ok m) :
    ∃ a, m.bestAssignment = .ok a ∧
      (∀ n ∈ g.freeNames, ∃ s : ℕ, a.get? n = some (s : Int) ∧ s < g.stateCountOf n) ∧
      (∀ n ∈ g.conditioned.keys, a.get? n = g.conditioned.get? n) ∧
      ∀ x, InRange g.freeAxes x → g.jointWeightAt x ≤ g.jointWeightAt (stateOf a) := by
  obtain ⟨a, ha, hbest⟩ := decodes_of_maxMarginals hg h
  have hobserved : ∀ n ∈ g.conditioned.keys, n ∉ g.freeNames := fun n hn hfree =>
    (FactorGraph.mem_freeNames.1 hfree).2 hn
  exact ⟨a, ha, hbest.assigned, fun n hn => hbest.observed n (hobserved n hn), hbest.best⟩

/-- Three components with zeros and an observation are decoded. -/
theorem bestAssignment_islands :
    ∃ g m a, islands = .ok g ∧ (standard.maxMarginals g).answer = .ok m ∧
      m.bestAssignment = .ok a ∧
      ∀ x, InRange g.freeAxes x → g.jointWeightAt x ≤ g.jointWeightAt (stateOf a) := by
  have hok : (islands >>= fun g => (standard.maxMarginals g).answer).toBool = true := by
    decide +kernel
  obtain ⟨m, hrun⟩ := exists_of_toBool hok
  obtain ⟨g, hg, hm⟩ := bind_eq_ok_iff.1 hrun
  obtain ⟨a, ha, -, -, hbest⟩ := bestAssignment_of_maxMarginals (reachable_of_islands hg) hm
  exact ⟨g, m, a, hg, hm, ha, hbest⟩

end ExactInference.Engine
