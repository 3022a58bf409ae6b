import ExactInference.Proofs.Answers
import ExactInference.Proofs.Interleavings
import ExactInference.Proofs.Rescaling

/-!
# Exactness of the marginals

Whenever an engine answers a graph with marginals, they are exact: their total is the partition
function, and every factor adds up the joint weights over the free variables that it does not
have. The way to the answer does not matter: a graph without free variables, a graph that is its
own marginal, and a graph whose messages are passed, with one component or many.
-/

namespace ExactInference

variable {W L : Type} [Semifield W] [LinearOrder W] [WeightScale W] [WeightScale L]
  [LogConversion W L] [ExactScale W] [ExactLog W L]

/-- The logarithm of a weight that is looked up. -/
theorem Factor.exists_logWeightOf {σ : Type} [StateValue σ] {f : Factor W L}
    {a : OrderedMap String σ} {w : W} (h : f.weightOf a = .ok w) :
    ∃ c : L, f.logWeightOf a = .ok c ∧ LogConversion.exp c = w := by
  refine ⟨LogConversion.logPositive w, ?_, exp_logPositive w⟩
  rw [logWeightOf_eq, show f.weights.lookup a = .ok w from h]
  rfl

omit [Semifield W] [LinearOrder W] [ExactScale W] [ExactLog W L] in
/-- The weight of a scalar factor. -/
theorem Factor.weightOf_scalar {σ : Type} [StateValue σ] {f : Factor W L}
    (h : f.scope.axes = []) (a : OrderedMap String σ) :
    f.weightOf a = .ok (f.weightAt JointState.origin) :=
  Table.lookup_scalar (by rw [FactorGraph.scope_weights, h]) a

namespace FactorGraph

variable {g : FactorGraph W L}

/-- The weights of factors are multiplied, also if the first zero ends the product. -/
theorem logWeightFrom_of_weights {σ : Type} [StateValue σ] {a : OrderedMap String σ}
    {fs : List (Factor W L)} {ws : List W}
    (h : List.Forall₂ (fun f w => f.weightOf a = .ok w) fs ws) (sum : L) :
    ∃ c : L, logWeightFrom a fs sum = .ok c ∧
      LogConversion.exp c = (LogConversion.exp sum : W) * ws.prod := by
  induction h generalizing sum with
  | nil => exact ⟨sum, rfl, by simp⟩
  | @cons f v fs ws hv _ ih =>
    obtain ⟨w, hw, hexp⟩ := Factor.exists_logWeightOf hv
    have hsum : (LogConversion.exp (WeightScale.mul sum w) : W) = LogConversion.exp sum * v := by
      rw [ExactLog.exp_mul, hexp]
    rw [logWeightFrom, hw]
    change ∃ c : L, (if LogConversion.isBottom W (WeightScale.mul sum w) then _ else _) = _ ∧ _
    by_cases hb : LogConversion.isBottom W (WeightScale.mul sum w) = true
    · refine ⟨WeightScale.mul sum w, if_pos hb, ?_⟩
      have hzero := (ExactLog.isBottom_iff (W := W) _).1 hb
      rw [List.prod_cons, ← mul_assoc, ← hsum, hzero, zero_mul]
    · obtain ⟨c, hc, hexp'⟩ := ih (WeightScale.mul sum w)
      refine ⟨c, by rw [if_neg hb]; exact hc, ?_⟩
      rw [hexp', hsum, List.prod_cons, mul_assoc]

/-- The weights of scalar factors are multiplied. -/
theorem logWeightFrom_scalars {σ : Type} [StateValue σ] (a : OrderedMap String σ)
    {fs : List (Factor W L)} (hfs : ∀ f ∈ fs, f.scope.axes = []) (sum : L) :
    ∃ c : L, logWeightFrom a fs sum = .ok c ∧ LogConversion.exp c
      = (LogConversion.exp sum : W) * (fs.map (Factor.weightAt · JointState.origin)).prod :=
  logWeightFrom_of_weights (List.forall₂_map_right_iff.2 (List.forall₂_same.2 fun f hf =>
    Factor.weightOf_scalar (hfs f hf) a)) sum

variable [CanonicallyOrderedAdd W]

/-- A graph without free variables only has a total. -/
theorem Sound.logWeightOf_spec (hg : g.Sound) (hfree : g.freeNames = []) {σ : Type} [StateValue σ]
    (a : OrderedMap String σ) :
    ∃ c : L, g.logWeightOf a = .ok c ∧ LogConversion.exp c = g.partitionFunction := by
  have haxes : g.freeAxes = [] := by rw [freeAxes, hfree, List.map_nil]
  obtain ⟨c, hc, hexp⟩ := logWeightFrom_scalars a (hg.axes_eq_nil hfree) WeightScale.one
  refine ⟨c, hc, ?_⟩
  rw [hexp, ExactLog.exp_one, one_mul, ← Factor.productAt_eq_prod, partitionFunction,
    jointWeightOver, haxes, Mode.total_eq_collect]
  change g.jointWeightAt JointState.origin = Mode.sum.collect [g.jointWeightAt JointState.origin]
  rw [Mode.collect_cons, Mode.collect_nil, Mode.join_zero]

end FactorGraph

namespace MarginalSet

/-- Marginals that are exact for a graph. -/
structure ExactFor (g : FactorGraph W L) (m : MarginalSet W L) : Prop where
  /-- The total is the partition function. -/
  total_eq : m.total = .ok g.partitionFunction
  /-- Every factor is over free variables, with their numbers of states. -/
  within : ∀ f ∈ m.factors, f.scope.Within g.freeAxes
  /-- Every free variable has a factor. -/
  cover : ∀ n ∈ g.freeNames, ∃ f ∈ m.factors, n ∈ f.names
  /-- At every state of its own variables a factor gives the joint weights of all joint states that
  agree there, added up. -/
  weight_eq : ∀ f ∈ m.factors, ∀ x, InRange f.scope.axes x →
    f.weightAt x = g.jointWeightOver (g.freeAxes.filter fun a => a.name ∉ f.vars) x
  /-- Every factor adds up to the partition function. -/
  totalWeight_eq : ∀ f ∈ m.factors, f.totalWeight = g.partitionFunction
  /-- The observed variables are those of the graph. -/
  conditioned_eq : m.conditioned = g.conditioned

variable {g : FactorGraph W L} {m : MarginalSet W L}

omit [ExactLog W L] in
/-- A factor whose weights are a marginal at all joint states of the free variables is exact. -/
theorem weight_of_marginalOver [CanonicallyOrderedAdd W]
    (hg : g.Sound) {f : Factor W L} (hf : f.scope.Within g.freeAxes)
    (h : ∀ x, InRange g.freeAxes x → f.weightAt x = g.marginalOver .sum f.vars x) :
    (∀ x, InRange f.scope.axes x →
      f.weightAt x = g.jointWeightOver (g.freeAxes.filter fun a => a.name ∉ f.vars) x) ∧
    f.totalWeight = g.partitionFunction := by
  have hd := hg.freeNames_nodup
  refine ⟨fun x hx => ?_, ?_⟩
  · obtain ⟨y, hy, hyx⟩ := exists_inRange hg.card_pos hd hf hx
    have hsame : ∀ n ∈ f.vars, x n = y n := fun n hn => (hyx n (Factor.mem_vars.1 hn)).symm
    rw [FactorGraph.jointWeightOver_eq, hg.reads_marginalOver .sum f.vars x y hsame, ← h y hy]
    exact f.reads_weightAt x y hsame
  · have horigin := inRange_origin hg.card_pos
    have hsub : f.vars ⊆ g.freeNames.toFinset := fun n hn => by
      rw [List.mem_toFinset, ← FactorGraph.map_name_freeAxes]
      exact hf.mem_names (Factor.mem_vars.1 hn)
    rw [Factor.totalWeight_eq_collapse hd hf JointState.origin,
      Mode.collapse_congr .sum fun y hy => h y (inRange_of_mem_variants hd horigin hy),
      hg.collapse_marginalOver .sum hsub, hg.partitionFunction_eq JointState.origin]

omit [ExactScale W] in
/-- The total of a set is written as its logarithm says. -/
theorem total_of_exp {w : W} (h : LogConversion.exp m.logTotal = w) : m.total = .ok w := by
  rw [total, LogConversion.tryExp, ExactLog.exp?_eq, h]

end MarginalSet

namespace Engine

open MarginalSet CliqueTree

variable [CanonicallyOrderedAdd W] {g : FactorGraph W L} {e : Engine} {t : CliqueTree W L}

/-- A graph without free variables is answered with its total. -/
theorem marginals_of_no_names (hg : g.Sound) (hfree : g.freeNames = []) :
    ∃ m, (e.marginals g).answer = .ok m ∧ ExactFor g m := by
  obtain ⟨c, hc, hexp⟩ :=
    hg.logWeightOf_spec hfree (OrderedMap.empty : OrderedMap String Int)
  refine ⟨⟨[], c, g.conditioned, observedCards g⟩, ?_, ?_⟩
  · rw [answer_of_no_names hfree, hc]
    rfl
  · constructor
    case total_eq => exact total_of_exp hexp
    case within => exact fun f hf => absurd hf List.not_mem_nil
    case cover =>
      intro n hn
      rw [hfree] at hn
      exact absurd hn List.not_mem_nil
    case weight_eq => exact fun f hf => absurd hf List.not_mem_nil
    case totalWeight_eq => exact fun f hf => absurd hf List.not_mem_nil
    case conditioned_eq => rfl

/-- A graph with one factor over its free variables is its own marginal, unless its total is
zero. -/
theorem marginals_of_sole (hg : g.Sound) (hfree : g.freeNames ≠ []) {f : Factor W L}
    (hf : soleFactor? g = some f) :
    (g.partitionFunction = 0 ∧ (e.marginals g).answer = .error .zeroProbability) ∨
      (g.partitionFunction ≠ 0 ∧ ∃ m, (e.marginals g).answer = .ok m ∧ ExactFor g m) := by
  obtain ⟨hfactors, hvars⟩ := soleFactor?_eq_some hf
  have hin : f.scope.Within g.freeAxes :=
    hg.within f (by rw [hfactors]; exact List.mem_singleton_self f)
  have hweight : ∀ x, InRange g.freeAxes x → f.weightAt x = g.marginalOver .sum f.vars x := by
    intro x _
    rw [FactorGraph.marginalOver, hvars, Finset.sdiff_self, Mode.collapse_empty,
      FactorGraph.jointWeightAt, Factor.productAt_eq_prod, hfactors]
    simp
  obtain ⟨hown, htotal⟩ := weight_of_marginalOver hg hin hweight
  obtain ⟨c, hc, hexp⟩ := f.totalLogWeight_spec fun a ha => hg.card_pos a (hin a ha)
  have hanswer : (e.marginals g).answer = if LogConversion.isBottom W c = true
      then .error .zeroProbability else .ok ⟨[f], c, g.conditioned, observedCards g⟩ := by
    rw [answer_of_sole hfree hf, hc]
    rfl
  have hbottom : LogConversion.isBottom W c = true ↔ g.partitionFunction = 0 := by
    rw [ExactLog.isBottom_iff, hexp, htotal]
  by_cases hz : g.partitionFunction = 0
  · exact Or.inl ⟨hz, by rw [hanswer, if_pos (hbottom.2 hz)]⟩
  · refine Or.inr ⟨hz, ⟨[f], c, g.conditioned, observedCards g⟩,
      by rw [hanswer, if_neg fun hb => hz (hbottom.1 hb)], ?_⟩
    constructor
    case total_eq => exact total_of_exp (hexp.trans htotal)
    case within => exact fun k hk => List.mem_singleton.1 hk ▸ hin
    case cover =>
      intro n hn
      refine ⟨f, List.mem_singleton_self f, Factor.mem_vars.1 ?_⟩
      rw [hvars]
      exact List.mem_toFinset.2 hn
    case weight_eq => exact fun k hk => List.mem_singleton.1 hk ▸ hown
    case totalWeight_eq => exact fun k hk => List.mem_singleton.1 hk ▸ htotal
    case conditioned_eq => rfl

/-- A set of marginals of all cliques is exact. -/
theorem exactFor_of_isGlobal (hg : g.Sound) (ht : Built g t) {fs : List (Factor W L)} {c : L}
    {cards : OrderedMap String Int}
    (hfs : List.Forall₂ (Passing.IsGlobal g.freeAxes t) (List.range t.size) fs)
    (hc : LogConversion.exp c = t.grandTotal .sum g.freeAxes) :
    ExactFor g ⟨fs, c, g.conditioned, cards⟩ := by
  have horigin := inRange_origin hg.card_pos
  have hfactor : ∀ f ∈ fs, f.scope.Within g.freeAxes ∧
      ∀ x, InRange g.freeAxes x → f.weightAt x = g.marginalOver .sum f.vars x := by
    intro f hf
    obtain ⟨i, -, ⟨⟨d, hd, hscope⟩, hweight⟩⟩ := exists_of_forall₂_right hfs hf
    refine ⟨hscope ▸ ht.wellBuilt.within hd, fun x hx => ?_⟩
    rw [hweight x hx, ht.cliqueMarginal_eq hg .sum _ hx, scopeOf_eq hd,
      Factor.vars_eq_of_scope_eq hscope]
  constructor
  case total_eq =>
    refine total_of_exp (hc.trans ?_)
    rw [grandTotal, ht.cliqueMarginal_eq hg .sum ∅ horigin, ← hg.partitionFunction_eq]
  case within => exact fun f hf => (hfactor f hf).1
  case cover =>
    intro n hn
    have hin : n ∈ (Finset.range t.size).biUnion t.scopeOf := by
      rw [ht.biUnion_scopeOf hg]
      exact List.mem_toFinset.2 hn
    obtain ⟨i, hi, hni⟩ := Finset.mem_biUnion.1 hin
    obtain ⟨f, hf, ⟨⟨d, hd, hscope⟩, -⟩⟩ :=
      exists_of_forall₂_left hfs (List.mem_range.2 (Finset.mem_range.1 hi))
    refine ⟨f, hf, Factor.mem_vars.1 ?_⟩
    rwa [Factor.vars_eq_of_scope_eq hscope, ← scopeOf_eq hd]
  case weight_eq =>
    exact fun f hf => (weight_of_marginalOver hg (hfactor f hf).1 (hfactor f hf).2).1
  case totalWeight_eq =>
    exact fun f hf => (weight_of_marginalOver hg (hfactor f hf).1 (hfactor f hf).2).2
  case conditioned_eq => rfl

variable [IsStrictOrderedRing W]

section Tree

variable (hg : g.Sound) (hfree : g.freeNames ≠ []) (hsole : soleFactor? g = none)
  (ht : (ofGraph e.useHint g).answer = .ok t)
include hg hfree hsole ht

/-- A tree on which all messages are delivered gives exact marginals, unless the total is zero. -/
theorem marginals_of_delivers (hall : t.Delivers) :
    (g.partitionFunction = 0 ∧ (e.marginals g).answer = .error .zeroProbability) ∨
      (g.partitionFunction ≠ 0 ∧ ∃ m, (e.marginals g).answer = .ok m ∧ ExactFor g m ∧
        List.Forall₂ (Passing.IsGlobal g.freeAxes t) (List.range t.size) m.factors) := by
  have hbuilt := built_of_ofGraph hg ht
  have horigin := inRange_origin hg.card_pos
  obtain ⟨roots, p, ms, q, hrun, hms, hframe, hpassed⟩ := hbuilt.passed hg .sum hall
  have hassemble : ∀ r : Except Fault (MarginalSet W L),
      Passing.assemble t ms roots g.conditioned (observedCards g) = r →
      Passing.assemble q.tree ms roots g.conditioned (observedCards g) = r := by
    intro r hr
    rw [← hr]
    exact Passing.assemble_eq_of_frame_eq hframe
  have htotal : t.grandTotal .sum g.freeAxes = g.partitionFunction := by
    rw [grandTotal, hbuilt.cliqueMarginal_eq hg .sum ∅ horigin, ← hg.partitionFunction_eq]
  rw [marginals_eq_throughTree hfree hsole]
  by_cases hz : g.partitionFunction = 0
  · have hr := hassemble _ (Passing.assemble_of_zero hpassed hbuilt.wellBuilt hg.freeNames_nodup
      hg.card_pos hbuilt.size_pos (htotal.trans hz))
    exact Or.inl ⟨hz, throughTree_of_error ht hrun
      ((PassingStep.bind_of_ok hms).trans (PassingStep.inspect_of_error hr))⟩
  · obtain ⟨fs, c, hfs, hc, hglobal⟩ := Passing.assemble_of_ne_zero g.conditioned
      (observedCards g) hpassed hbuilt.wellBuilt hg.freeNames_nodup hg.card_pos hbuilt.size_pos
      fun hz' => hz (htotal.symm.trans hz')
    have hr := hassemble _ hfs
    exact Or.inr ⟨hz, _, throughTree_of_ok ht hrun
      ((PassingStep.bind_of_ok hms).trans (PassingStep.inspect_of_ok hr)),
      exactFor_of_isGlobal hg hbuilt hglobal hc, hglobal⟩

/-- A tree on which some message is not delivered gives no marginals. -/
theorem marginals_of_not_delivers (hmissing : ¬ t.Delivers) :
    ∃ k i : ℕ, (e.marginals g).answer = .error (.messageMissing k i) := by
  have hbuilt := built_of_ofGraph hg ht
  obtain ⟨roots, p, k, i, q, hrun, hq⟩ := hbuilt.not_passed hg .sum hmissing
  refine ⟨k, i, ?_⟩
  rw [marginals_eq_throughTree hfree hsole]
  exact throughTree_of_error ht hrun (PassingStep.bind_of_error hq)

end Tree

/-- Whenever an engine answers with marginals, they are exact. -/
theorem exactFor_of_marginals (hg : FactorGraph.Reachable g) {m : MarginalSet W L}
    (h : (e.marginals g).answer = .ok m) : ExactFor g m := by
  have hexact : ∀ {m'}, (e.marginals g).answer = .ok m' ∧ ExactFor g m' → ExactFor g m := by
    rintro m' ⟨hm', hm'g⟩
    cases hm'.symm.trans h
    exact hm'g
  by_cases hfree : g.freeNames = []
  · obtain ⟨m', hm'⟩ := marginals_of_no_names (e := e) hg.sound hfree
    exact hexact hm'
  cases hsole : soleFactor? g with
  | some f =>
    rcases marginals_of_sole (e := e) hg.sound hfree hsole with ⟨-, herror⟩ | ⟨-, m', hm'⟩
    · cases herror.symm.trans h
    · exact hexact hm'
  | none =>
    cases ht : (ofGraph e.useHint g).answer with
    | error fault =>
      rw [marginals_eq_throughTree hfree hsole, throughTree_of_no_tree ht] at h
      cases h
    | ok t =>
      by_cases hall : t.Delivers
      · rcases marginals_of_delivers hg.sound hfree hsole ht hall with
          ⟨-, herror⟩ | ⟨-, m', hm', hm'g, -⟩
        · cases herror.symm.trans h
        · exact hexact ⟨hm', hm'g⟩
      · obtain ⟨k, i, herror⟩ := marginals_of_not_delivers hg.sound hfree hsole ht hall
        cases herror.symm.trans h

/-- Three components: two factors with a zero, a factor that is cut down by an observation, and a
variable that no factor mentions. -/
def islands : Except Fault (FactorGraph ℚ≥0 (FormalLog ℚ≥0)) := do
  let pairs ← FactorGraph.ofFactors (pairOfFactors ++ [pairFactor "D" "E" 4 0 5 1])
  let bare ← pairs.addVariable "F" (.count 3)
  bare.conditional (OrderedMap.ofList [("E", (0 : Int))])

theorem reachable_of_islands {g : FactorGraph ℚ≥0 (FormalLog ℚ≥0)} (h : islands = .ok g) :
    FactorGraph.Reachable g := by
  obtain ⟨pairs, hpairs, h⟩ := bind_eq_ok_iff.1 h
  obtain ⟨bare, hbare, h⟩ := bind_eq_ok_iff.1 h
  exact .conditional (.addVariable (.ofFactors hpairs) hbare) h

/-- Three components are answered, so that they are rescaled. -/
theorem exactFor_islands :
    ∃ g m, islands = .ok g ∧ (standard.marginals g).answer = .ok m ∧ ExactFor g m := by
  have hok : (islands >>= fun g => (standard.marginals g).answer).toBool = true := by
    decide +kernel
  obtain ⟨m, hrun⟩ := exists_of_toBool hok
  obtain ⟨g, hg, hm⟩ := bind_eq_ok_iff.1 hrun
  exact ⟨g, m, hg, hm, exactFor_of_marginals (reachable_of_islands hg) hm⟩

end Engine

end ExactInference
