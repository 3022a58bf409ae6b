import ExactInference.Proofs.FillIn
import ExactInference.Proofs.LeafToRootSweeps
import ExactInference.Proofs.MarginalQueries
import ExactInference.Proofs.Networks

/-!
# Impossible evidence

If the joint weights of a graph add up to zero, then its evidence is impossible and there is no
posterior. An engine says so as long as a variable is free: if one factor covers all free variables,
and if messages are passed in a tree of one component or of many. If all variables are observed,
then no way of an engine looks at the total. It answers with the total zero, and the posterior of a
network is zero at every state.
-/

namespace ExactInference

variable {W L : Type} [WeightScale W] [WeightScale L] [LogConversion W L]

namespace Engine

open CliqueTree MarginalSet

variable [Semifield W] {e : Engine} {g : FactorGraph W L}

/-- What an engine says about a graph whose evidence may be impossible. -/
structure ReportsImpossible (e : Engine) (g : FactorGraph W L) : Prop where
  /-- The fault is reported exactly if the joint weights add up to zero and a variable is free. -/
  fault_iff : (e.marginals g).answer = .error .zeroProbability ↔
    g.partitionFunction = 0 ∧ g.freeNames ≠ []
  /-- Otherwise there are marginals, and they are exact. -/
  exists_exact : ¬ (g.partitionFunction = 0 ∧ g.freeNames ≠ []) →
    ∃ m, (e.marginals g).answer = .ok m ∧ ExactFor g m

/-- An engine that either finds the total zero or answers exactly reports impossible evidence. -/
theorem ReportsImpossible.of_cases (hfree : g.freeNames ≠ [])
    (h : (g.partitionFunction = 0 ∧ (e.marginals g).answer = .error .zeroProbability) ∨
      (g.partitionFunction ≠ 0 ∧ ∃ m, (e.marginals g).answer = .ok m ∧ ExactFor g m)) :
    e.ReportsImpossible g := by
  rcases h with ⟨hzero, herror⟩ | ⟨hne, m, hm, hexact⟩
  · exact ⟨⟨fun _ => ⟨hzero, hfree⟩, fun _ => herror⟩, fun h => absurd ⟨hzero, hfree⟩ h⟩
  · refine ⟨⟨fun herror => ?_, fun h => absurd h.1 hne⟩, fun _ => ⟨m, hm, hexact⟩⟩
    cases herror.symm.trans hm

variable [LinearOrder W] [IsStrictOrderedRing W] [CanonicallyOrderedAdd W] [ExactScale W]
  [ExactLog W L]

/-- Every way of an engine but the one without free variables looks at the total. -/
theorem reportsImpossible (hg : FactorGraph.Reachable g) (hhint : e.useHint = true → g.hint = none)
    (htree : ∀ fault, (e.marginals g).answer = .error fault → fault.isConstruction = false) :
    e.ReportsImpossible g := by
  by_cases hfree : g.freeNames = []
  · obtain ⟨m, hm, hexact⟩ := marginals_of_no_names (e := e) hg.sound hfree
    refine ⟨⟨fun herror => ?_, fun h => absurd hfree h.2⟩, fun _ => ⟨m, hm, hexact⟩⟩
    cases herror.symm.trans hm
  refine .of_cases hfree ?_
  cases hsole : soleFactor? g with
  | some f => exact marginals_of_sole hg.sound hfree hsole
  | none =>
    cases ht : (ofGraph e.useHint g).answer with
    | error fault =>
      have hanswer : (e.marginals g).answer = .error fault := by
        rw [marginals_eq_throughTree hfree hsole]
        exact throughTree_of_no_tree ht
      have hconstruction := isConstruction_of_ofGraph hg.sound hfree ht
      rw [htree fault hanswer] at hconstruction
      cases hconstruction
    | ok t =>
      have hall : t.Delivers := delivers_of_ofGraph ht hhint fun hadj =>
        (built_of_ofGraph hg.sound ht).wellBuilt.forest.lt_size hadj
      exact (marginals_of_delivers hg.sound hfree hsole ht hall).imp_right
        fun ⟨hne, m, hm, hexact, _⟩ => ⟨hne, m, hm, hexact⟩

/-- An engine that is equipped looks at the total. -/
theorem Equipped.reportsImpossible (h : e.Equipped g) (hg : FactorGraph.Reachable g)
    (hhint : g.hint = none) : e.ReportsImpossible g := by
  refine Engine.reportsImpossible hg (fun _ => hhint) fun fault hfault => ?_
  rcases (h.marginals hg.sound).fault_of_eq_error hfault with rfl | rfl
  · rfl
  · rfl

end Engine

namespace BeliefNetwork

open Engine MarginalSet

variable {e : Engine} {n : BeliefNetwork W} {g : FactorGraph W L} {query : String}

/-- A query to a node is a query to the graph of the network. -/
theorem answer_distribution (hquery : query ∈ n.nodes.keys) (h : n.toFactorGraph true = .ok g) :
    (n.distribution L e true query).answer = (posteriorIn e g query).answer := by
  have hnode : n.checkNode query = .ok () :=
    if_pos ((OrderedMap.contains_iff_mem_keys _ _).2 hquery)
  rw [distribution, Traced.answer_bind, Traced.answer_ofExcept, hnode]
  change (Traced.ofExcept (n.toFactorGraph true) >>= _).answer = _
  rw [Traced.answer_bind, Traced.answer_ofExcept, h]
  rfl

variable [Semifield W] [LinearOrder W] [IsStrictOrderedRing W] [CanonicallyOrderedAdd W]
  [ExactScale W] [ExactLog W L]

/-- If an engine answers exactly, then every state gets its share of the partition function. -/
theorem answer_posteriorIn (hg : FactorGraph.Reachable g) {m : MarginalSet W L}
    (hm : (e.marginals g).answer = .ok m) (hexact : ExactFor g m) (hquery : query ∈ g.states.keys)
    (hfit : query ∈ g.conditioned.keys → 8 * (g.stateCountOf query : Int) < signedLimit) :
    (posteriorIn e g query).answer = .ok ((List.range (g.stateCountOf query)).map fun s =>
      g.stateWeight query s / g.partitionFunction) := by
  rw [posteriorIn, Traced.answer_bind, hm]
  exact hexact.posterior hg (cards_of_marginals hm) hquery hfit

/-- What the distribution of a node comes to under evidence that may be impossible. -/
structure InfersImpossible (e : Engine) (n : BeliefNetwork W) (g : FactorGraph W L)
    (query : String) : Prop where
  /-- Impossible evidence is reported if some node is not observed. -/
  of_unobserved : g.partitionFunction = 0 → (∃ v ∈ n.nodes.keys, v ∉ n.observed.keys) →
    (n.distribution L e true query).answer = .error .zeroProbability
  /-- Otherwise no state gets any weight, if a table over the node fits into memory. -/
  of_all_observed : g.partitionFunction = 0 → (∀ v ∈ n.nodes.keys, v ∈ n.observed.keys) →
    8 * (n.cardOf query : Int) < signedLimit →
    (n.distribution L e true query).answer = .ok (List.replicate (n.cardOf query) 0)
  /-- If the evidence is possible, then the weights of the states add up to one. -/
  of_possible : g.partitionFunction ≠ 0 →
    (query ∈ n.observed.keys → 8 * (n.cardOf query : Int) < signedLimit) →
    ∃ ws : List W, (n.distribution L e true query).answer = .ok ws ∧
      ws.length = n.cardOf query ∧ ws.sum = 1

/-- A network passes on what an engine says about impossible evidence. -/
theorem infersImpossible (hn : n.Reachable) (h : n.toFactorGraph true = .ok g)
    (htree : ∀ fault, (e.marginals g).answer = .error fault → fault.isConstruction = false)
    (hquery : query ∈ n.nodes.keys) : n.InfersImpossible e g query := by
  have hgraph := hn.sound.hasGraph h
  have hreports := Engine.reportsImpossible hgraph.reachable (fun _ => hgraph.hint_eq) htree
  have hcard : g.stateCountOf query = n.cardOf query := hgraph.stateCountOf_eq query hquery
  have hfree : g.freeNames ≠ [] ↔ ∃ v ∈ n.nodes.keys, v ∉ n.observed.keys := by
    simp only [ne_eq, List.eq_nil_iff_forall_not_mem, not_forall, not_not,
      FactorGraph.mem_freeNames, hgraph.mem_keys, hgraph.mem_conditioned]
  have hshares : ¬ (g.partitionFunction = 0 ∧ g.freeNames ≠ []) →
      (query ∈ n.observed.keys → 8 * (n.cardOf query : Int) < signedLimit) →
      (n.distribution L e true query).answer = .ok ((List.range (n.cardOf query)).map fun s =>
        g.stateWeight query s / g.partitionFunction) := by
    intro hpossible hfit
    obtain ⟨m, hm, hexact⟩ := hreports.exists_exact hpossible
    rw [answer_distribution hquery h, ← hcard]
    refine answer_posteriorIn hgraph.reachable hm hexact ((hgraph.mem_keys query).2 hquery) ?_
    rw [hgraph.mem_conditioned, hcard]
    exact hfit
  constructor
  case of_unobserved =>
    intro hzero hsome
    rw [answer_distribution hquery h, posteriorIn, Traced.answer_bind,
      hreports.fault_iff.2 ⟨hzero, hfree.2 hsome⟩]
    rfl
  case of_all_observed =>
    intro hzero hall hfit
    have hnone : ¬ g.freeNames ≠ [] := fun hne => by
      obtain ⟨v, hv, hout⟩ := hfree.1 hne
      exact hout (hall v hv)
    rw [hshares (fun hboth => hnone hboth.2) fun _ => hfit, hzero]
    simp
  case of_possible =>
    intro hne hfit
    refine ⟨_, hshares (fun hboth => hne hboth.1) hfit, by simp, ?_⟩
    have hsum := hgraph.reachable.sum_stateWeight ((hgraph.mem_keys query).2 hquery)
    simp only [div_eq_mul_inv, List.sum_map_mul_right, ← hcard, hsum]
    exact mul_inv_cancel₀ hne

end BeliefNetwork

variable [Semifield W] [LinearOrder W] [IsStrictOrderedRing W] [CanonicallyOrderedAdd W]
  [ExactScale W] [ExactLog W L]

/-- Without a hint and unless there is no tree, an engine reports impossible evidence exactly if a
variable is free, and answers exactly otherwise. So a network reports it exactly if a node is not
observed; if all nodes are observed, its posterior gives no weight to any state. -/
theorem zeroProbability_unless_all_observed (e : Engine) :
    (∀ {g : FactorGraph W L}, FactorGraph.Reachable g → (e.useHint = true → g.hint = none) →
      (∀ fault, (e.marginals g).answer = .error fault → fault.isConstruction = false) →
      e.ReportsImpossible g) ∧
    ∀ {n : BeliefNetwork W} {g : FactorGraph W L} {query : String}, n.Reachable →
      n.toFactorGraph true = .ok g →
      (∀ fault, (e.marginals g).answer = .error fault → fault.isConstruction = false) →
      query ∈ n.nodes.keys → n.InfersImpossible e g query :=
  ⟨fun hg hhint htree => Engine.reportsImpossible hg hhint htree,
    fun hn h htree hquery => BeliefNetwork.infersImpossible hn h htree hquery⟩

/-- Whether an engine finds a tree, or needs none. -/
def Engine.constructs (e : Engine) (g : FactorGraph W L) : Bool :=
  match (e.marginals g).answer with
  | .ok _ => true
  | .error fault => !fault.isConstruction

omit [Semifield W] [LinearOrder W] [IsStrictOrderedRing W] [CanonicallyOrderedAdd W] [ExactScale W]
  [ExactLog W L] in
theorem Engine.isConstruction_of_constructs {e : Engine} {g : FactorGraph W L}
    (h : e.constructs g = true) (fault : Fault) (hfault : (e.marginals g).answer = .error fault) :
    fault.isConstruction = false := by
  rw [constructs, hfault] at h
  simpa using h

/-- Two variables that equal a third one, and are observed in different states. -/
def unequalEnds : Except Fault (FactorGraph ℚ≥0 (FormalLog ℚ≥0)) := do
  let chain ← FactorGraph.ofFactors [CliqueTree.pairFactor "A" "B" 1 0 0 1,
    CliqueTree.pairFactor "B" "C" 1 0 0 1]
  chain.conditional (OrderedMap.ofList [("A", (0 : Int)), ("C", 1)])

/-- A node that is never in its second state, with a copy, which is observed in its second state. -/
def unlikelyCopy : Except Fault (BeliefNetwork ℚ≥0) := do
  let single ← BeliefNetwork.empty.addNode "A" [2] [1, 0] [] none
  let copied ← single.addNode "B" [2, 2] [1, 0, 0, 1] ["A"] none
  copied.observe "B" (.whole 1)

theorem reachable_of_unlikelyCopy {n : BeliefNetwork ℚ≥0} (h : unlikelyCopy = .ok n) :
    n.Reachable := by
  obtain ⟨single, hsingle, h⟩ := bind_eq_ok_iff.1 h
  obtain ⟨copied, hcopied, h⟩ := bind_eq_ok_iff.1 h
  exact .observe (.addNode (.addNode .empty hsingle) hcopied) h

/-- The graph of a network whose evidence is impossible, if a node is not observed. -/
def impossibleGraph (n : BeliefNetwork ℚ≥0) (name : String) : Bool :=
  passes (fun g : FactorGraph ℚ≥0 (FormalLog ℚ≥0) => Engine.standard.constructs g
    && decide (g.partitionFunction = 0)) (n.toFactorGraph true)
    && decide (name ∈ n.nodes.keys) && decide (name ∉ n.observed.keys)

/-- The evidence on both chains is reported as impossible. -/
theorem zeroProbability_chains :
    (∃ g, unequalEnds = .ok g ∧
      (Engine.standard.marginals g).answer = .error .zeroProbability) ∧
    ∃ n, unlikelyCopy = .ok n ∧
      (n.distribution (FormalLog ℚ≥0) Engine.standard true "A").answer
        = .error .zeroProbability := by
  constructor
  · obtain ⟨g, hg, hcheck⟩ := exists_of_passes (x := unequalEnds)
      (fun g => g.hint.isNone && Engine.standard.constructs g
        && decide (g.partitionFunction = 0) && !g.freeNames.isEmpty) (by decide +kernel)
    simp only [Bool.and_eq_true, Option.isNone_iff_eq_none, decide_eq_true_eq, Bool.not_eq_true',
      List.isEmpty_eq_false_iff] at hcheck
    obtain ⟨⟨⟨hhint, htree⟩, hzero⟩, hfree⟩ := hcheck
    obtain ⟨chain, hchain, hobserve⟩ := bind_eq_ok_iff.1 hg
    have hreach : FactorGraph.Reachable g := .conditional (.ofFactors hchain) hobserve
    have hreports := (zeroProbability_unless_all_observed Engine.standard).1 hreach (fun _ => hhint)
      (Engine.isConstruction_of_constructs htree)
    exact ⟨g, hg, hreports.fault_iff.2 ⟨hzero, hfree⟩⟩
  · obtain ⟨n, hn, hcheck⟩ := exists_of_passes (x := unlikelyCopy)
      (fun n => impossibleGraph n "A") (by decide +kernel)
    simp only [impossibleGraph, Bool.and_eq_true, decide_eq_true_eq] at hcheck
    obtain ⟨⟨hgraph, hnode⟩, hunobserved⟩ := hcheck
    obtain ⟨g, hg, hcheck⟩ := exists_of_passes _ hgraph
    simp only [Bool.and_eq_true, decide_eq_true_eq] at hcheck
    obtain ⟨htree, hzero⟩ := hcheck
    have hinfers := (zeroProbability_unless_all_observed Engine.standard).2
      (reachable_of_unlikelyCopy hn) hg (Engine.isConstruction_of_constructs htree) hnode
    exact ⟨n, hn, hinfers.of_unobserved hzero ⟨"A", hnode, hunobserved⟩⟩

/-- A variable that is never in its first state, and is observed in it. -/
def unlikelyState : Except Fault (FactorGraph ℚ≥0 (FormalLog ℚ≥0)) := do
  let single ← FactorGraph.ofFactors [.plain ⟨⟨[⟨"A", 2⟩], by decide⟩, #[0, 1], rfl⟩]
  single.conditional (OrderedMap.ofList [("A", (0 : Int))])

/-- The same as a network. -/
def unlikelyNode : Except Fault (BeliefNetwork ℚ≥0) := do
  let single ← BeliefNetwork.empty.addNode "A" [2] [0, 1] [] none
  single.observe "A" (.whole 0)

/-- The joint weight is zero, but nothing is reported: the graph has marginals, and the posterior of
the node is zero at both states. -/
theorem answered_unlikelyState :
    (∃ g m, unlikelyState = .ok g ∧ FactorGraph.Reachable g ∧ g.hint = none ∧
      g.partitionFunction = 0 ∧ (Engine.standard.marginals g).answer = .ok m) ∧
    ∃ n g, unlikelyNode = .ok n ∧ n.Reachable ∧
      (n.toFactorGraph true : Except Fault (FactorGraph ℚ≥0 (FormalLog ℚ≥0))) = .ok g ∧
      g.partitionFunction = 0 ∧
      (n.distribution (FormalLog ℚ≥0) Engine.standard true "A").answer = .ok [0, 0] := by
  constructor
  · obtain ⟨g, hg, hcheck⟩ := exists_of_passes (x := unlikelyState)
      (fun g => g.hint.isNone && decide (g.partitionFunction = 0)
        && (Engine.standard.marginals g).answer.toBool) (by decide +kernel)
    simp only [Bool.and_eq_true, Option.isNone_iff_eq_none, decide_eq_true_eq] at hcheck
    obtain ⟨⟨hhint, hzero⟩, hanswer⟩ := hcheck
    obtain ⟨m, hm⟩ := exists_of_toBool hanswer
    obtain ⟨single, hsingle, hobserve⟩ := bind_eq_ok_iff.1 hg
    exact ⟨g, m, hg, .conditional (.ofFactors hsingle) hobserve, hhint, hzero, hm⟩
  · obtain ⟨n, hn, hcheck⟩ := exists_of_passes (x := unlikelyNode)
      (fun n => passes (fun g : FactorGraph ℚ≥0 (FormalLog ℚ≥0) =>
          decide (g.partitionFunction = 0)) (n.toFactorGraph true)
        && passes (fun ws => decide (ws = [0, 0]))
          (n.distribution (FormalLog ℚ≥0) Engine.standard true "A").answer) (by decide +kernel)
    rw [Bool.and_eq_true] at hcheck
    obtain ⟨g, hg, hzero⟩ := exists_of_passes _ hcheck.1
    obtain ⟨ws, hws, hnull⟩ := exists_of_passes _ hcheck.2
    obtain ⟨single, hsingle, hobserve⟩ := bind_eq_ok_iff.1 hn
    refine ⟨n, g, hn, .observe (.addNode .empty hsingle) hobserve, hg, of_decide_eq_true hzero, ?_⟩
    rw [hws, of_decide_eq_true hnull]

end ExactInference
