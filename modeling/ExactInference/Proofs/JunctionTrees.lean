import ExactInference.Proofs.EliminationOrder
import ExactInference.Proofs.ExactMarginals

/-!
# The tree of a graph is a junction tree

Whenever a graph has a tree, with a schedule of its own or the one that was found, the cliques are
the minimal factors in order, the edges form a forest, the schedule visits every clique once, the
cliques that hold one variable form a subtree, and the separators hold what the ends of an edge
share, which is never nothing.
-/

namespace ExactInference

/-- Where the cliques with one variable stay connected, they are connected among themselves. -/
theorem IsJoinForest.induce_preconnected {size : ℕ} {G : SimpleGraph ℕ} {scope : ℕ → Finset String}
    (h : IsJoinForest size G scope) (hsize : ∀ {v i}, v ∈ scope i → i < size) (v : String) :
    (G.induce {i | v ∈ scope i}).Preconnected := by
  rintro ⟨i, hi⟩ ⟨j, hj⟩
  have hreach := h.connected v i j (hsize hi) (hsize hj) hi hj
  obtain ⟨hj', hij⟩ := reachable_induct
    (P := fun j => ∃ hj, (G.induce {i | v ∈ scope i}).Reachable ⟨i, hi⟩ ⟨j, hj⟩) hreach
    ⟨hi, SimpleGraph.Reachable.refl _⟩ fun u w hu hadj => by
      obtain ⟨hu, hiu⟩ := hu
      have huw : (G.induce {i | v ∈ scope i}).Adj ⟨u, hu⟩ ⟨w, hadj.2.2⟩ := hadj.1
      exact ⟨hadj.2.2, hiu.trans huw.reachable⟩
  exact hij

namespace CliqueTree

variable {W L : Type} {t : CliqueTree W L} {i : ℕ} {c : Clique W L}

/-- A junction tree of some factors. Everything is said of the stored separators; the graph is read
off from them. -/
structure IsJunctionTree (factors : List (Factor W L)) (t : CliqueTree W L) : Prop where
  /-- The cliques hold the factors in order. -/
  factors_eq : t.cliques.map Clique.factor = factors
  /-- A separator leads to another clique, from which one leads back. -/
  ends : ∀ {i : ℕ} {c : Clique W L} {n : Int}, t.cliques[i]? = some c → n ∈ c.separators.keys →
    ∃ (k : ℕ) (d : Clique W L), n = k ∧ k ≠ i ∧ t.cliques[k]? = some d ∧
      (i : Int) ∈ d.separators.keys
  /-- The edges are where separators are. -/
  adj_iff : ∀ {i j}, t.graph.Adj i j ↔
    ∃ c, t.cliques[i]? = some c ∧ (j : Int) ∈ c.separators.keys
  /-- The edges make no cycle. -/
  acyclic : t.graph.IsAcyclic
  /-- The schedule is a permutation of the cliques. -/
  order_perm : t.order.Perm ((List.range t.size).map Int.ofNat)
  /-- The cliques with one variable form a subtree. -/
  subtree : ∀ {v i}, v ∈ t.scopeOf i → (t.graph.induce {j | v ∈ t.scopeOf j}).IsTree
  /-- A separator holds the variables of both ends, of which there is one at least. -/
  separator : ∀ {i : ℕ} {c : Clique W L} {n : Int} {s : Separator}, t.cliques[i]? = some c →
    c.separators.get? n = some s →
    s.start = i ∧ s.stop = n ∧ s.shared ≠ [] ∧ ∃ (k : ℕ) (d : Clique W L), n = k ∧
      t.cliques[k]? = some d ∧ ∀ v, v ∈ s.shared ↔ v ∈ c.factor.names ∧ v ∈ d.factor.names

theorem lt_size_of_mem_scopeOf {v : String} (h : v ∈ t.scopeOf i) : i < t.size := by
  cases hc : t.cliques[i]? with
  | none => simp [scopeOf, hc] at h
  | some c => exact lt_size_of_getElem? hc

section Graph

variable [WeightScale W] [WeightScale L] [LogConversion W L]

/-- Adjacent cliques of a graph's tree share a variable. -/
theorem MadeBy.exists_shared {g : FactorGraph W L} {useHint : Bool} {factors : List (Factor W L)}
    {done : Elimination} {order : List ℕ} (h : MadeBy g useHint factors done order t) {j : ℕ}
    (hadj : t.graph.Adj i j) : ∃ v, v ∈ t.scopeOf i ∧ v ∈ t.scopeOf j := by
  have hmerges := Elimination.Merges.run (nodup_names factors) h.eliminated
  rw [h.graph_eq] at hadj
  rw [h.scopeOf_eq]
  rcases hadj.2 with hij | hji
  · exact hmerges.shares hij
  · obtain ⟨v, hj, hi⟩ := hmerges.shares hji
    exact ⟨v, hi, hj⟩

end Graph

variable [WeightScale W] [WeightScale L] [LogConversion W L]

/-- Whenever a graph has a tree, it is a junction tree of the minimal factors. -/
theorem isJunctionTree_of_ofGraph {g : FactorGraph W L} (hg : FactorGraph.Reachable g)
    {useHint : Bool} (h : (ofGraph useHint g).answer = .ok t) :
    ∃ factors, g.minimalFactors = .ok factors ∧ IsJunctionTree factors t := by
  obtain ⟨factors, done, order, hmade⟩ := exists_madeBy h
  have hbuilt := (built_of_ofGraph hg.sound h).wellBuilt
  refine ⟨factors, hmade.minimal, ?_⟩
  constructor
  case factors_eq => exact hmade.joined.factors_eq
  case ends =>
    intro i c n hc hn
    obtain ⟨s, hs⟩ := OrderedMap.exists_get?_of_mem_keys hn
    obtain ⟨k, d, hk, hki, hd, hback, -⟩ := hbuilt.separators hc hs
    exact ⟨k, d, hk, hki, hd, hback⟩
  case adj_iff => exact hbuilt.adj_iff
  case acyclic => exact hbuilt.forest.acyclic
  case order_perm =>
    rw [hmade.order_eq]
    exact hmade.order_perm.map Int.ofNat
  case subtree =>
    intro v i hv
    have hpre := hbuilt.forest.induce_preconnected lt_size_of_mem_scopeOf v
    have : Nonempty {j | v ∈ t.scopeOf j} := ⟨⟨i, hv⟩⟩
    exact ⟨⟨hpre⟩, hbuilt.forest.acyclic.induce _⟩
  case separator =>
    intro i c n s hc hs
    obtain ⟨k, d, rfl, -, hd, -, hstart, hstop, hshared⟩ := hbuilt.separators hc hs
    refine ⟨hstart, hstop, fun hnil => ?_, k, d, rfl, hd, hshared⟩
    have hadj : t.graph.Adj i k := hbuilt.adj_iff.2 ⟨c, hc, OrderedMap.mem_keys_of_get? hs⟩
    obtain ⟨v, hi, hk⟩ := hmade.exists_shared hadj
    rw [scopeOf_eq hc, Factor.mem_vars] at hi
    rw [scopeOf_eq hd, Factor.mem_vars] at hk
    have hv := (hshared v).2 ⟨hi, hk⟩
    rw [hnil] at hv
    exact absurd hv List.not_mem_nil

/-- The tree of three components, one of them a variable that no factor mentions. -/
theorem isJunctionTree_islands :
    ∃ g t factors, Engine.islands = .ok g ∧ (ofGraph true g).answer = .ok t ∧
      g.minimalFactors = .ok factors ∧ IsJunctionTree factors t := by
  have hok : (Engine.islands >>= fun g => (ofGraph true g).answer).toBool = true := by
    decide +kernel
  obtain ⟨t, hrun⟩ := exists_of_toBool hok
  obtain ⟨g, hg, ht⟩ := bind_eq_ok_iff.1 hrun
  obtain ⟨factors, hfactors, hjunction⟩ :=
    isJunctionTree_of_ofGraph (Engine.reachable_of_islands hg) ht
  exact ⟨g, t, factors, hg, ht, hfactors, hjunction⟩

end CliqueTree

end ExactInference
