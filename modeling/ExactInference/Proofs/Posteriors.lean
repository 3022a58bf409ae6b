import ExactInference.Proofs.GraphCalls
import ExactInference.Proofs.NetworkCalls
import ExactInference.Proofs.NetworkWeights

/-!
# Posteriors of a network

The distribution of a node under evidence is read off the marginals of a graph that is conditioned
on the evidence. Observing one node more conditions this graph once more, so an engine that has
answered for the first graph has all that it needs for the second one, although its cliques are
others. Therefore the entries of a distribution are quotients of probabilities of evidence.
-/

namespace ExactInference

variable {W L : Type} [WeightScale W] [WeightScale L] [LogConversion W L]

namespace BeliefNetwork

open JointState

variable {n : BeliefNetwork W} {g bare : FactorGraph W L} {e : Engine} {query : String}

/-- What an engine needs for the graph of the tables is there for the graph with the evidence. -/
theorem Reachable.equipped_graph (hn : n.Reachable) (hbare : n.toFactorGraph false = .ok bare)
    (hequipped : e.Equipped bare) (h : n.toFactorGraph true = .ok g) : e.Equipped g := by
  obtain ⟨bare', hbare', ⟨-, rfl⟩ | hconditional⟩ := of_toFactorGraph_true h
  · cases hbare'.symm.trans hbare
    exact hequipped
  · cases hbare'.symm.trans hbare
    exact hequipped.conditional (hn.of_bare hbare).1 hconditional

/-- Observing one more node conditions the graph on it. -/
theorem Reachable.conditional_observe (hn : n.Reachable) (h : n.toFactorGraph true = .ok g)
    (hquery : query ∈ n.nodes.keys) (hnew : query ∉ n.observed.keys) {s : ℕ}
    (hs : s < n.cardOf query) :
    ∃ g' : FactorGraph W L, g.conditional (OrderedMap.ofList [(query, (s : Int))]) = .ok g' ∧
      toFactorGraph { n with observed := n.observed.insert query (s : Int) } true = .ok g' := by
  have hgraph := hn.sound.hasGraph h
  have hd := hn.sound.nodup_axes
  have hunobserved : query ∉ g.conditioned.keys := by rwa [hgraph.mem_conditioned]
  have hfree : query ∈ g.freeNames :=
    FactorGraph.mem_freeNames.2 ⟨(hgraph.mem_keys query).2 hquery, hunobserved⟩
  -- All observed nodes are at their states, and the new one as well.
  obtain ⟨hstate, hagrees⟩ := hn.set_observedState h hquery hnew hs
  have hys : n.observedState.set query s query = s := set_self _ _ _
  generalize n.observedState.set query s = y at hstate hagrees hys
  subst hys
  have hin := ((mem_completions hd).1 hstate).2
  have hing : InRange g.freeAxes y := fun a ha => hin a ((hn.mem_freeAxes h).1 ha).1
  have hown : y.Agrees (OrderedMap.ofList [(query, (y query : Int))]) := fun v hv => by
    rw [List.mem_singleton.1 hv]
    exact OrderedMap.get?_insert_self _ query _
  obtain ⟨factors, -, hg'⟩ := hgraph.reachable.sound.conditional_eq_ok hing hown.follows
    (List.nodup_singleton query) fun v hv => List.mem_singleton.1 hv ▸ hfree
  obtain ⟨bare, hbare, hcases⟩ := of_toFactorGraph_true h
  have hsame : (toFactorGraph { n with observed := n.observed.insert query (y query : Int) } false :
      Except Fault (FactorGraph W L)) = .ok bare := (toFactorGraph_observing n _).trans hbare
  refine ⟨_, hg', ?_⟩
  rw [← hg', toFactorGraph_of_observed hsame (OrderedMap.mem_keys_insert.2 (Or.inr rfl))]
  rcases hcases with ⟨hnone, rfl⟩ | hconditional
  · rw [hnone]
    rfl
  · obtain ⟨hsound, -, hnodes, hrange⟩ := hn.of_bare hbare
    exact (hsound.conditional_insert (hrange hin) hn.observed_nodup
      (fun v hv => (hnodes v).2 (hn.sound.observed_mem hv)) ((hnodes query).2 hquery) hnew hagrees
      hconditional).symm

variable {ws : List W}

/-- The distribution of a node comes from the marginals of the network's graph. -/
theorem of_distribution {withEvidence : Bool}
    (h : (n.distribution L e withEvidence query).answer = .ok ws) :
    query ∈ n.nodes.keys ∧ ∃ (g : FactorGraph W L) (m : MarginalSet W L),
      n.toFactorGraph withEvidence = .ok g ∧ (e.marginals g).answer = .ok m ∧
      (m.posterior [query] >>= fun f => f.valuesFor [query]) = .ok ws := by
  rw [distribution, Traced.answer_bind, Traced.answer_ofExcept] at h
  obtain ⟨⟨⟩, hnode, h⟩ := bind_eq_ok_iff.1 h
  rw [Traced.answer_bind, Traced.answer_ofExcept] at h
  obtain ⟨g, hg, h⟩ := bind_eq_ok_iff.1 h
  rw [posteriorIn, Traced.answer_bind] at h
  obtain ⟨m, hm, h⟩ := bind_eq_ok_iff.1 h
  exact ⟨of_checkNode hnode, g, m, hg, hm, h⟩

/-- The same without evidence, whatever is observed. -/
theorem answer_distribution_false :
    (n.distribution L e false query).answer
      = (n.clearEvidence.distribution L e true query).answer := by
  rw [distribution, distribution, toFactorGraph_clearEvidence]
  rfl

variable [Semifield W]

variable (L) in
/-- A distribution of a node that is exact under the evidence of a network. -/
structure ExactPosterior (e : Engine) (n : BeliefNetwork W) (query : String) (ws : List W) :
    Prop where
  /-- Every state gets the weight of the joint states that agree with the evidence and have the node
  in this state, divided by the weight of all joint states that agree with the evidence. -/
  shares : ws = (List.range (n.cardOf query)).map fun s =>
    (n.massWhere fun x => Agrees n.observed x ∧ x query = s) / n.massWhere (Agrees n.observed)
  /-- If the node is observed, then its observed state gets everything. -/
  point_mass : ∀ {i : Int}, n.observed.get? query = some i →
    ws = (List.range (n.cardOf query)).map fun s : ℕ => if i = s then 1 else 0
  /-- If it is not observed, then a state gets the probability of the evidence together with this
  state, divided by the probability of the evidence. -/
  ratios : query ∉ n.observed.keys → ∀ s < n.cardOf query, ∃ n' p p',
    n.observe query (.whole s) = .ok n' ∧ (n.evidenceProbability L e).answer = .ok p ∧
      (n'.evidenceProbability L e).answer = .ok p' ∧ ws[s]? = some (p' / p)

variable [LinearOrder W] [IsStrictOrderedRing W] [CanonicallyOrderedAdd W] [ExactScale W]
  [ExactLog W L]

/-- Marginals that an engine gives for the graph of a network are exact, and more observations leave
the engine equipped. -/
theorem Reachable.exactFor_graph (hn : n.Reachable) (h : n.toFactorGraph true = .ok g)
    {m : MarginalSet W L} (hm : (e.marginals g).answer = .ok m) :
    MarginalSet.ExactFor g m ∧ e.Equipped g ∧ ¬ (g.partitionFunction = 0 ∧ g.freeNames ≠ []) := by
  have hgraph := hn.sound.hasGraph h
  have hequipped : e.Equipped g := by
    rcases Engine.equipped_or_refused (e := e) hgraph.reachable.sound hgraph.hint_eq with
      hok | ⟨fault, -, hfault, -⟩
    · exact hok
    · cases hm.symm.trans hfault
  have hreports := hequipped.reportsImpossible hgraph.reachable hgraph.hint_eq
  have hpossible : ¬ (g.partitionFunction = 0 ∧ g.freeNames ≠ []) := fun hzero => by
    cases hm.symm.trans (hreports.fault_iff.2 hzero)
  obtain ⟨m', hm', hexact⟩ := hreports.exists_exact hpossible
  cases hm.symm.trans hm'
  exact ⟨hexact, hequipped, hpossible⟩

/-- A distribution of a node gives to every state its share of the evidence's weight. -/
theorem Reachable.shares_of_distribution (hn : n.Reachable)
    (h : (n.distribution L e true query).answer = .ok ws) :
    ws = (List.range (n.cardOf query)).map fun s =>
      (n.massWhere fun x => Agrees n.observed x ∧ x query = s)
        / n.massWhere (Agrees n.observed) := by
  obtain ⟨hquery, g, m, hg, hm, hvalues⟩ := of_distribution h
  have hgraph := hn.sound.hasGraph hg
  obtain ⟨hexact, -, -⟩ := hn.exactFor_graph hg hm
  have hcards := Engine.cards_of_marginals hm
  have hcard : g.stateCountOf query = n.cardOf query := hgraph.stateCountOf_eq query hquery
  obtain ⟨f, hf, -⟩ := bind_eq_ok_iff.1 hvalues
  have hposterior := hexact.posterior hgraph.reachable hcards ((hgraph.mem_keys query).2 hquery)
    fun hobserved => hexact.lt_of_posterior hgraph.reachable hcards 
      ((hgraph.mem_keys query).2 hquery) hobserved hf
  rw [hcard, hvalues] at hposterior
  rw [Except.ok.inj hposterior]
  refine List.map_congr_left fun s hs => ?_
  rw [hn.stateWeight_eq hg hquery (List.mem_range.1 hs), hn.partitionFunction_eq hg]

/-- Of an unobserved node there is only a distribution if the evidence is possible. -/
theorem Reachable.mass_ne_zero (hn : n.Reachable)
    (h : (n.distribution L e true query).answer = .ok ws) (hunobserved : query ∉ n.observed.keys) :
    n.massWhere (Agrees n.observed) ≠ 0 := by
  obtain ⟨hquery, g, m, hg, hm, -⟩ := of_distribution h
  have hgraph := hn.sound.hasGraph hg
  obtain ⟨-, -, hpossible⟩ := hn.exactFor_graph hg hm
  rw [← hn.partitionFunction_eq hg]
  refine fun hzero => hpossible ⟨hzero, List.ne_nil_of_mem (a := query) ?_⟩
  rw [FactorGraph.mem_freeNames, hgraph.mem_keys, hgraph.mem_conditioned]
  exact ⟨hquery, hunobserved⟩

/-- Whenever there is a distribution of a node under possible evidence, it is exact. -/
theorem Reachable.exactPosterior (hn : n.Reachable)
    (h : (n.distribution L e true query).answer = .ok ws)
    (hpossible : n.massWhere (Agrees n.observed) ≠ 0) : n.ExactPosterior L e query ws := by
  have hshares := hn.shares_of_distribution h
  refine ⟨hshares, fun {i} hi => ?_, fun hunobserved s hs => ?_⟩
  · rw [hshares]
    refine List.map_congr_left fun s _ => ?_
    rw [massWhere_of_observed hi]
    split
    next => exact div_self hpossible
    next => exact zero_div _
  · obtain ⟨hquery, g, m, hg, hm, -⟩ := of_distribution h
    obtain ⟨-, hequipped, -⟩ := hn.exactFor_graph hg hm
    obtain ⟨g', hconditional, hg'⟩ := hn.conditional_observe hg hquery hunobserved hs
    have hobserve := observe_eq_ok hquery hs
    have hequipped' := hequipped.conditional (hn.sound.hasGraph hg).reachable.sound hconditional
    refine ⟨_, _, _, hobserve, hn.answer_evidenceProbability hg hequipped,
      (Reachable.observe hn hobserve).answer_evidenceProbability hg' hequipped', ?_⟩
    rw [hshares, massWhere_insert hunobserved, List.getElem?_map, List.getElem?_range hs]
    rfl

end BeliefNetwork

open BeliefNetwork JointState

variable [Semifield W] [LinearOrder W] [IsStrictOrderedRing W] [CanonicallyOrderedAdd W]
  [ExactScale W] [ExactLog W L]

/-- Whenever a network gives the distribution of a node under evidence that is possible, every
state gets the weight of the joint states of all nodes that agree with the evidence and have this
state, divided by the weight of all that agree with the evidence. This is a point mass for an
observed node, and a quotient of two probabilities of evidence for any other one. Without evidence
the distribution is that of the network of which nothing is observed. -/
theorem posteriors_exact {n : BeliefNetwork W} (hn : n.Reachable) (e : Engine) (query : String) :
    (∀ ws : List W, (n.distribution L e true query).answer = .ok ws →
      0 < n.massWhere (Agrees n.observed) → n.ExactPosterior L e query ws) ∧
    ∀ ws : List W, (n.distribution L e false query).answer = .ok ws →
      n.clearEvidence.ExactPosterior L e query ws := by
  refine ⟨fun ws h hpos => hn.exactPosterior h hpos.ne', fun ws h => ?_⟩
  rw [answer_distribution_false] at h
  exact hn.clearEvidence.exactPosterior h (hn.clearEvidence.mass_ne_zero h List.not_mem_nil)

/-- Rain and a sprinkler, which is used less when it rains, both make the grass wet and then the
path slippery; the path is seen to be slippery. -/
def slipperyPath : Except Fault (BeliefNetwork ℚ≥0) := do
  let rain ← BeliefNetwork.empty.addNode "Rain" [2] [4/5, 1/5] [] (some ["no", "yes"])
  let sprinkler ← rain.addNode "Sprinkler" [2, 2] [1/2, 1/2, 9/10, 1/10] ["Rain"] none
  let wet ← sprinkler.addNode "Wet" [2, 2, 2] [1, 0, 1/5, 4/5, 1/4, 3/4, 1/20, 19/20]
    ["Rain", "Sprinkler"] none
  let path ← wet.addNode "Path" [2, 2] [1, 0, 3/10, 7/10] ["Wet"] (some ["dry", "slippery"])
  path.observe "Path" (.text "slippery")

theorem reachable_of_slipperyPath {n : BeliefNetwork ℚ≥0} (h : slipperyPath = .ok n) :
    n.Reachable := by
  obtain ⟨rain, hrain, h⟩ := bind_eq_ok_iff.1 h
  obtain ⟨sprinkler, hsprinkler, h⟩ := bind_eq_ok_iff.1 h
  obtain ⟨wet, hwet, h⟩ := bind_eq_ok_iff.1 h
  obtain ⟨path, hpath, h⟩ := bind_eq_ok_iff.1 h
  exact .observe (.addNode (.addNode (.addNode (.addNode .empty hrain) hsprinkler) hwet) hpath) h

/-- The distribution of rain is exact with the evidence and without it. -/
theorem posteriors_exact_slipperyPath :
    ∃ n ws vs, slipperyPath = .ok n ∧
      (n.distribution (FormalLog ℚ≥0) Engine.standard true "Rain").answer = .ok ws ∧
      (n.distribution (FormalLog ℚ≥0) Engine.standard false "Rain").answer = .ok vs ∧
      n.ExactPosterior (FormalLog ℚ≥0) Engine.standard "Rain" ws ∧
      n.clearEvidence.ExactPosterior (FormalLog ℚ≥0) Engine.standard "Rain" vs := by
  obtain ⟨n, hn, hcheck⟩ := exists_of_passes (x := slipperyPath)
    (fun n => (n.distribution (FormalLog ℚ≥0) Engine.standard true "Rain").answer.toBool
      && (n.distribution (FormalLog ℚ≥0) Engine.standard false "Rain").answer.toBool
      && decide (0 < n.massWhere (Agrees n.observed))) (by decide +kernel)
  simp only [Bool.and_eq_true, decide_eq_true_eq] at hcheck
  obtain ⟨⟨hwith, hwithout⟩, hpossible⟩ := hcheck
  obtain ⟨ws, hws⟩ := exists_of_toBool hwith
  obtain ⟨vs, hvs⟩ := exists_of_toBool hwithout
  have hexact := posteriors_exact (L := FormalLog ℚ≥0) (reachable_of_slipperyPath hn)
    Engine.standard "Rain"
  exact ⟨n, ws, vs, hn, hws, hvs, hexact.1 ws hws hpossible, hexact.2 vs hvs⟩

end ExactInference
