import ExactInference.Proofs.AgreeingGraphs
import ExactInference.Proofs.ExactMarginals

/-!
# Storing logarithms changes no answer

A caller may store the logarithms of some factors in place of their weights. No expression over the
factors and no inference on their graph shows which ones: the results have the same variables,
weights and totals, decode to the same best assignment, and what is refused in one form is refused
in the other with the same fault. The scales may be any on which weights and logarithms are exact,
the real numbers from zero on with their logarithms among them.
-/

namespace ExactInference

variable {W L : Type} [WeightScale W] [WeightScale L] [LogConversion W L]

/-- Two trees that only differ in what their factors store. -/
structure CliqueTree.Equivalent (t u : CliqueTree W L) : Prop where
  /-- The factors of the cliques are equivalent one by one. -/
  factors : List.Forall₂ Factor.Equivalent (t.cliques.map Clique.factor)
    (u.cliques.map Clique.factor)
  /-- The trees have the same edges. -/
  edges_eq : t.edges = u.edges
  /-- They have the same separators. -/
  separators_eq : t.separators = u.separators
  /-- They have the same schedule. -/
  order_eq : t.order = u.order

/-- Two sets of marginals that only differ in what their factors store. -/
structure MarginalSet.Equivalent (m n : MarginalSet W L) : Prop where
  /-- The marginals are equivalent one by one. -/
  factors : List.Forall₂ Factor.Equivalent m.factors n.factors
  /-- The logarithms of the totals are the same. -/
  logTotal_eq : m.logTotal = n.logTotal
  /-- So are the totals. -/
  total_eq : m.total = n.total
  /-- Marginals over any variables are equivalent, or refused with the same fault. -/
  marginal : ∀ names, Parallel Factor.Equivalent (m.marginal names) (n.marginal names)
  /-- So are posteriors. -/
  posterior : ∀ names, Parallel Factor.Equivalent (m.posterior names) (n.posterior names)

/-- Two sets of max-marginals that only differ in what their factors store. -/
structure MaxMarginalSet.Equivalent (m n : MaxMarginalSet W L) : Prop where
  /-- The max-marginals are equivalent one by one. -/
  factors : List.Forall₂ Factor.Equivalent m.factors n.factors
  /-- The best assignments are the same. -/
  bestAssignment_eq : m.bestAssignment = n.bestAssignment

variable [Semifield W] [LinearOrder W] [ExactScale W] [ExactLog W L]

theorem CliqueTree.Agrees.equivalent {t u : CliqueTree W L} (h : t.Agrees u) : t.Equivalent u where
  factors := List.rel_map (fun _ _ hcd => hcd.factor.equivalent) h.cliques
  edges_eq := h.edges_eq
  separators_eq := by
    unfold separators
    rw [List.flatMap_def, List.flatMap_def]
    refine congrArg List.flatten (map_eq_of_forall₂ (fun hcd => ?_) h.cliques)
    rw [hcd.neighbors_eq, hcd.separators_eq]
  order_eq := h.order_eq

theorem Scope.hasStates_of_ofNames? {names : List String} {cards : List ℕ} {s : Scope}
    (h : ofNames? names cards = .ok s) (hcards : ∀ c ∈ cards, 0 < c) : s.HasStates := by
  unfold ofNames? at h
  dsimp only at h
  split at h
  · split at h
    · cases h
      intro a ha
      obtain ⟨e, he, rfl⟩ := List.mem_map.1 ha
      exact hcards e.2 (List.of_mem_zip he).2
    · cases h
  · cases h

namespace MarginalSet

variable {m n : MarginalSet W L}

omit [Semifield W] [LinearOrder W] [WeightScale L] [LogConversion W L] [ExactScale W]
  [ExactLog W L] in
/-- A point mass is over the observed variables with their numbers of states. -/
theorem hasStates_of_pointMass (hcards : ∀ {v c}, m.cards.get? v = some c → 0 < c)
    {names : List String} {f : Factor W L} (h : m.pointMass names = .ok f) :
    f.scope.HasStates := by
  unfold pointMass at h
  dsimp only at h
  split at h
  · cases ht : Table.indicator (α := W) names (names.filterMap m.cards.get?) m.conditioned with
    | error fault =>
      rw [ht] at h
      cases h
    | ok t =>
      rw [ht] at h
      cases h
      obtain ⟨-, -, ht⟩ := bind_eq_ok_iff.1 ht
      obtain ⟨key, -, ht⟩ := bind_eq_ok_iff.1 ht
      obtain ⟨place, -, ht⟩ := bind_eq_ok_iff.1 ht
      obtain ⟨s, hs, ht⟩ := bind_eq_ok_iff.1 ht
      cases ht
      refine Scope.hasStates_of_ofNames? hs fun c hc => ?_
      obtain ⟨i, hi, rfl⟩ := List.mem_map.1 hc
      obtain ⟨v, -, hv⟩ := List.mem_filterMap.1 hi
      have := hcards hv
      omega
  · cases h

namespace Agrees

variable (h : m.Agrees n)
include h

omit [Semifield W] [LinearOrder W] [ExactScale W] [ExactLog W L] in
theorem total_eq : m.total = n.total := by
  rw [total, total, h.logTotal_eq]

/-- The smallest factors that cover some names agree. -/
theorem source? (names : List String) :
    Option.Rel Factor.Agrees (m.source? names) (n.source? names) := by
  have hcover := List.rel_filter (p := fun f : Factor W L => covers f.names names)
    (q := fun f => covers f.names names) (fun f g hfg => by simp only [hfg.names_eq]) h.factors
  unfold MarginalSet.source?
  generalize m.factors.filter _ = fs, n.factors.filter _ = gs at hcover
  cases hcover with
  | nil => exact .none
  | cons hfg hrest =>
    refine .some (List.rel_foldl (fun f g hfg f' g' hfg' => ?_) hfg hrest)
    rw [hfg.names_eq, hfg'.names_eq]
    split
    · exact hfg'
    · exact hfg

theorem freeMarginal (names : List String) :
    Parallel Factor.Agrees (m.freeMarginal names) (n.freeMarginal names) := by
  unfold MarginalSet.freeMarginal
  rw [h.total_eq]
  split
  · refine (Parallel.of_eq rfl).map ?_
    rintro w _ rfl
    exact Factor.agrees_self fun a ha => by cases ha
  · have hsource := h.source? names
    generalize m.source? names = f, n.source? names = g at hsource
    cases hsource with
    | none => rfl
    | some hfg =>
      dsimp only
      rw [hfg.names_eq]
      exact hfg.marginalize _

/-- Marginals over any variables agree. -/
theorem marginal (names : List String) :
    Parallel Factor.Agrees (m.marginal names) (n.marginal names) := by
  have hmass : ∀ ns, m.pointMass ns = n.pointMass ns := fun ns => by
    rw [pointMass, pointMass, h.cards_eq, h.conditioned_eq]
  unfold MarginalSet.marginal
  rw [h.conditioned_eq]
  refine (h.freeMarginal _).bind fun f g hfg => ?_
  dsimp only
  split
  · exact hfg
  · rw [← hmass]
    -- the point mass is one and the same factor on both sides
    refine Parallel.bind (R := Factor.Agrees) ?_ fun k k' hk => hfg.product hk
    refine ((Parallel.of_eq rfl).and fun hk _ => hasStates_of_pointMass h.cards_pos hk).imp ?_
    rintro k _ ⟨rfl, hk⟩
    exact Factor.agrees_self hk

theorem posterior (names : List String) :
    Parallel Factor.Agrees (m.posterior names) (n.posterior names) :=
  (h.marginal names).bind fun _ _ hfg => hfg.normalize

theorem equivalent : m.Equivalent n where
  factors := h.factors.imp fun _ _ hfg => hfg.equivalent
  logTotal_eq := h.logTotal_eq
  total_eq := h.total_eq
  marginal names := (h.marginal names).imp fun hfg => hfg.equivalent
  posterior names := (h.posterior names).imp fun hfg => hfg.equivalent

end Agrees

end MarginalSet

namespace MaxMarginalSet.Agrees

variable {m n : MaxMarginalSet W L} (h : m.Agrees n)
include h

/-- A factor fixes the same variables at the same states. -/
theorem decode (fixed : OrderedMap String Int) (i : Int) :
    Parallel Eq (m.decode fixed i) (n.decode fixed i) := by
  refine (parallel_elementAt h.factors i).bind fun f g hfg => ?_
  refine (hfg.conditional fixed).bind fun f g hfg => ?_
  rw [hfg.names_eq, hfg.equivalent.argmax_eq]
  exact .of_eq rfl

theorem bestAssignment_eq : m.bestAssignment = n.bestAssignment := by
  unfold bestAssignment
  rw [h.order_eq, h.conditioned_eq]
  refine Parallel.eq (Parallel.foldlM_same ?_ rfl)
  rintro fixed _ rfl i
  exact h.decode fixed i

theorem equivalent : m.Equivalent n where
  factors := h.factors.imp fun _ _ hfg => hfg.equivalent
  bestAssignment_eq := h.bestAssignment_eq

end MaxMarginalSet.Agrees

/-- The second graph is the first one with the logarithms of some factors stored. -/
structure FactorGraph.Converted (g h : FactorGraph W L) : Prop where
  /-- The same variables are declared. -/
  states_eq : g.states = h.states
  /-- Every factor stays as it is or stores its logarithms. -/
  factors : List.Forall₂ (fun f f' => f' = f ∨ f' = f.toLog) g.factors h.factors
  /-- The same was observed. -/
  conditioned_eq : g.conditioned = h.conditioned
  /-- The schedules are the same. -/
  hint_eq : g.hint = h.hint

omit [Semifield W] [LinearOrder W] [ExactScale W] [ExactLog W L] in
/-- All factors may store their logarithms. -/
theorem FactorGraph.converted_toLog (g : FactorGraph W L) :
    g.Converted { g with factors := g.factors.map Factor.toLog } where
  states_eq := rfl
  factors := List.forall₂_map_right_iff.2 (List.forall₂_same.2 fun _ _ => Or.inr rfl)
  conditioned_eq := rfl
  hint_eq := rfl

omit [ExactScale W] in
theorem Factor.agrees_of_converted {f f' : Factor W L} (hf : f.scope.HasStates)
    (h : f' = f ∨ f' = f.toLog) : f.Agrees f' := by
  rcases h with rfl | rfl
  · exact agrees_self hf
  · exact agrees_toLog hf

omit [ExactScale W] in
theorem FactorGraph.Converted.agrees {g h : FactorGraph W L} (hgh : g.Converted h)
    (hg : g.Sound) : g.Agrees h where
  states_eq := hgh.states_eq
  factors := by
    have hstates : ∀ f ∈ g.factors, f.scope.HasStates := fun f hf a ha =>
      hg.card_pos a (hg.within f hf a ha)
    exact ((List.forall₂_and_left _ _).2 ⟨hstates, hgh.factors⟩).imp fun f f' hff' =>
      Factor.agrees_of_converted hff'.1 hff'.2
  conditioned_eq := hgh.conditioned_eq
  hint_eq := hgh.hint_eq

variable (W L) in
/-- Storing logarithms changes neither what an expression makes of some factors nor the trees and
answers of a graph. -/
theorem indifferent_to_logarithms :
    (∀ {ι : Type} (e : Expression W L ι) (env env' : ι → Factor W L),
      (∀ i, (env i).scope.HasStates) → (∀ i, env' i = env i ∨ env' i = (env i).toLog) →
      Parallel Factor.Equivalent (e.eval env) (e.eval env')) ∧
    ∀ (engine : Engine) (g h : FactorGraph W L), FactorGraph.Reachable g → g.Converted h →
      Traced.InStep CliqueTree.Equivalent (CliqueTree.ofGraph engine.useHint g)
        (CliqueTree.ofGraph engine.useHint h) ∧
      Traced.InStep MarginalSet.Equivalent (engine.marginals g) (engine.marginals h) ∧
      Traced.InStep MaxMarginalSet.Equivalent (engine.maxMarginals g) (engine.maxMarginals h) := by
  constructor
  · intro ι e env env' hstates hconverted
    refine (Expression.parallel_eval (fun i => ?_) e).imp fun h => h.equivalent
    exact Factor.agrees_of_converted (hstates i) (hconverted i)
  · intro engine g h hg hgh
    have hagrees := hgh.agrees hg.sound
    exact ⟨(hagrees.ofGraph hg.sound engine.useHint).imp fun h => h.equivalent,
      (Engine.inStep_marginals engine hagrees hg).imp fun h => h.equivalent,
      (Engine.inStep_maxMarginals engine hagrees hg.sound).imp fun h => h.equivalent⟩

/-- A product with an inverted factor, scaled, maximized and scaled again to sum to one. -/
def scaledQuotient : Expression ℚ≥0 (FormalLog ℚ≥0) Bool :=
  .normalize
    (.maxMarginalize (.scale (.product (.leaf true) (.invert (.leaf false))) (3 : ℕ)) ["B"])

/-- A factor to multiply with, and one with zeros to divide by. -/
def dividendOrDivisor : Bool → Factor ℚ≥0 (FormalLog ℚ≥0)
  | true => CliqueTree.pairFactor "A" "B" 1 0 2 3
  | false => CliqueTree.pairFactor "B" "C" 0 0 7 11

/-- The divisor may store logarithms, and so may all factors of a graph with three components. -/
theorem indifferent_islands :
    (∃ f f', scaledQuotient.eval dividendOrDivisor = .ok f ∧
      scaledQuotient.eval (fun i => cond i (dividendOrDivisor i) (dividendOrDivisor i).toLog)
        = .ok f' ∧ f.Equivalent f') ∧
    ∃ g h m m' k k', Engine.islands = .ok g ∧ h = { g with factors := g.factors.map Factor.toLog } ∧
      (Engine.standard.marginals g).answer = .ok m ∧
      (Engine.standard.marginals h).answer = .ok m' ∧ m.Equivalent m' ∧
      (Engine.standard.maxMarginals g).answer = .ok k ∧
      (Engine.standard.maxMarginals h).answer = .ok k' ∧ k.Equivalent k' := by
  obtain ⟨hexpressions, hengines⟩ := indifferent_to_logarithms ℚ≥0 (FormalLog ℚ≥0)
  constructor
  · have hok : (scaledQuotient.eval dividendOrDivisor).toBool = true := by decide +kernel
    obtain ⟨f, hf⟩ := exists_of_toBool hok
    have hstates : ∀ i, (dividendOrDivisor i).scope.HasStates := by
      intro i a ha
      fin_cases i <;> fin_cases ha <;> exact Nat.two_pos
    obtain ⟨f', hf', hff'⟩ := (hexpressions scaledQuotient dividendOrDivisor
      (fun i => cond i (dividendOrDivisor i) (dividendOrDivisor i).toLog) hstates
      (fun i => by cases i <;> simp)).exists_of_ok hf
    exact ⟨f, f', hf, hf', hff'⟩
  · have hok : (Engine.islands >>= fun g => (Engine.standard.marginals g).answer >>= fun _ =>
        (Engine.standard.maxMarginals g).answer).toBool = true := by
      decide +kernel
    obtain ⟨k, hrun⟩ := exists_of_toBool hok
    obtain ⟨g, hg, hrun⟩ := bind_eq_ok_iff.1 hrun
    obtain ⟨m, hm, hk⟩ := bind_eq_ok_iff.1 hrun
    obtain ⟨-, hsum, hmax⟩ := hengines Engine.standard g _ (Engine.reachable_of_islands hg)
      g.converted_toLog
    obtain ⟨m', hm', hmm'⟩ := hsum.answers.exists_of_ok hm
    obtain ⟨k', hk', hkk'⟩ := hmax.answers.exists_of_ok hk
    exact ⟨g, _, m, m', k, k', hg, rfl, hm, hm', hmm', hk, hk', hkk'⟩

end ExactInference
