import ExactInference.Proofs.JunctionTrees

/-!
# The traceback order decodes

The traceback order lists every clique once, one component after the other by their lowest cliques,
each from its lowest given root or else from its lowest clique. Every other clique follows exactly
one of its neighbors, and the separator to that neighbor holds whatever the clique shares with any
earlier one, in its own component or in another. This only takes that components are searched along
edges, so it holds of every search that visits what it can reach.
-/

namespace ExactInference

/-- A vertex with no earlier one of its component begins the search of that component. -/
theorem ComponentsOf.exists_head? {G : SimpleGraph ℕ} {size i : ℕ} {cs : List (List ℕ)}
    {entry : List ℕ → ℕ} {search : ℕ → List ℕ} {before after : List ℕ}
    (h : ComponentsOf G size cs) (hentry : ∀ c ∈ cs, entry c ∈ c)
    (hsearch : ∀ u < size, SearchOrder G u (search u))
    (he : (cs.flatMap fun c => search (entry c)) = before ++ i :: after)
    (hfirst : ∀ k ∈ before, ¬ G.Reachable k i) :
    ∃ c ∈ cs, (search (entry c)).head? = some i := by
  obtain ⟨first, c, rest, front, back, hcs, hblock, rfl⟩ := exists_of_flatMap_eq he
  have hc : c ∈ cs := by
    rw [hcs]
    exact List.mem_append_right _ List.mem_cons_self
  have horder := h.searchOrder hentry hsearch hc
  refine ⟨c, hc, ?_⟩
  rw [hblock] at horder ⊢
  cases front with
  | nil => rfl
  | cons k front =>
    have hk : k = entry c := Option.some.inj horder.head?_eq
    have hki : G.Reachable k i := by
      rw [hk, ← horder.mem_iff]
      exact List.mem_append_right _ List.mem_cons_self
    exact absurd hki (hfirst k (List.mem_append_right _ List.mem_cons_self))

namespace CliqueTree

variable {W L : Type} {t : CliqueTree W L} {roots : List Int} {i p u : ℕ}
  {b before after : List ℕ}

/-- The clique of a component that a traceback starts from: the lowest given root, or the lowest
clique if no root is given. -/
def IsEntry (roots : List Int) (b : List ℕ) (u : ℕ) : Prop :=
  u ∈ b ∧ (((u : Int) ∈ roots ∧ ∀ r ∈ b, (r : Int) ∈ roots → u ≤ r) ∨
    (∀ r ∈ b, (r : Int) ∉ roots) ∧ ∀ j ∈ b, u ≤ j)

/-- A block of an order that holds one component and begins with its entry. -/
def IsBlock (t : CliqueTree W L) (roots : List Int) (b : List ℕ) : Prop :=
  ∃ u, b.head? = some u ∧ IsEntry roots b u ∧ ∀ j, j ∈ b ↔ t.graph.Reachable u j

/-- A clique has exactly one neighbor among earlier cliques, and shares with all of them only what
is in the separator to that neighbor. -/
def Follows (t : CliqueTree W L) (before : List ℕ) (i : ℕ) : Prop :=
  ∃ p s, (∀ q, q ∈ before ∧ t.graph.Adj i q ↔ q = p) ∧ t.separator i p = .ok s ∧
    ∀ k ∈ before, ∀ v, v ∈ t.scopeOf i → v ∈ t.scopeOf k → v ∈ s.shared

/-- An order in which the cliques of a tree can be decoded one after the other. -/
structure IsDecodingOrder (t : CliqueTree W L) (roots : List Int) (order : List ℕ) : Prop where
  /-- Every clique is listed once. -/
  perm : order.Perm (List.range t.size)
  /-- The components follow each other by their lowest cliques. A clique that begins a component
  shares nothing with the cliques before it, and every other one follows one neighbor. -/
  exists_blocks : ∃ blocks : List (List ℕ), order = blocks.flatten ∧
    (∀ b ∈ blocks, IsBlock t roots b) ∧
    blocks.Pairwise (fun b c => ∀ j ∈ c, ∃ i ∈ b, i < j) ∧
    ∀ before i after, order = before ++ i :: after →
      ((∃ b ∈ blocks, b.head? = some i) ∧ ∀ k ∈ before, Disjoint (t.scopeOf i) (t.scopeOf k)) ∨
        Follows t before i

/-- The entry of a component is its lowest given root, or else its lowest clique. -/
theorem isEntry_entryOf (roots : List Int) {c : List ℕ} (hc : c ≠ []) :
    IsEntry roots c (entryOf roots c) := by
  unfold entryOf rootIn?
  cases hr : (c.filter fun (i : ℕ) => roots.contains (i : Int)).min? with
  | some r =>
    obtain ⟨hmem, hmin⟩ := List.min?_eq_some_iff.1 hr
    obtain ⟨hin, hroot⟩ := List.mem_filter.1 hmem
    refine ⟨hin, Or.inl ⟨by simpa using hroot, fun s hs hsroot => ?_⟩⟩
    exact hmin s (List.mem_filter.2 ⟨hs, by simpa using hsroot⟩)
  | none =>
    have hnone : ∀ r ∈ c, (r : Int) ∉ roots := by
      intro r hrc hroot
      have hin : r ∈ c.filter fun (i : ℕ) => roots.contains (i : Int) :=
        List.mem_filter.2 ⟨hrc, by simpa using hroot⟩
      rw [List.min?_eq_none_iff.1 hr] at hin
      exact absurd hin List.not_mem_nil
    cases hm : c.min? with
    | some m =>
      obtain ⟨hin, hmin⟩ := List.min?_eq_some_iff.1 hm
      exact ⟨hin, Or.inr ⟨hnone, hmin⟩⟩
    | none => exact absurd (List.min?_eq_none_iff.1 hm) hc

/-- A clique with an earlier one of its component follows one neighbor. -/
theorem WellBuilt.follows {axes : List Axis} (h : t.WellBuilt axes) (hp : p ∈ before)
    (hadj : t.graph.Adj p i) (hside : ∀ k ∈ before, t.graph.Reachable k i → OnSide t.graph p i k)
    (hlt : ∀ k ∈ before, k < t.size) : Follows t before i := by
  have hforest := h.forest
  have hi := hforest.lt_size hadj.symm
  obtain ⟨s, hs, -, -, hshared⟩ := h.toWired.separator_eq_ok hadj.symm
  refine ⟨p, s, fun q => ⟨?_, ?_⟩, hs, fun k hk v hvi hvk => ?_⟩
  · rintro ⟨hq, hiq⟩
    by_contra hne
    -- A second earlier neighbor would lead to the clique past the edge.
    have hpast : OnSide t.graph p i i := (hside q hq hiq.symm.reachable).step hiq.symm fun he => by
      rcases Sym2.eq_iff.1 he with ⟨hqp, -⟩ | ⟨-, hip⟩
      · exact hne hqp
      · exact hadj.ne hip.symm
    exact OnSide.not_other hforest.acyclic hadj hpast
  · rintro rfl
    exact ⟨hp, hadj.symm⟩
  · have hreach := hforest.reachable_of_shared (hlt k hk) hi hvk hvi
    have hboth := hforest.shared_of_crossing (hlt k hk) hi (hside k hk hreach)
      (OnSide.not_other hforest.acyclic hadj) hvk hvi
    exact (hshared v).2 (Finset.mem_inter.2 hboth.symm)

/-- Searching the components one after the other, each from its entry, gives a decoding order. -/
theorem WellBuilt.isDecodingOrder {axes : List Axis} (h : t.WellBuilt axes) (roots : List Int)
    {cs : List (List ℕ)} {search : ℕ → List ℕ} (hcs : ComponentsOf t.graph t.size cs)
    (hsearch : ∀ u < t.size, SearchOrder t.graph u (search u)) :
    IsDecodingOrder t roots (cs.flatMap fun c => search (entryOf roots c)) := by
  have hentry : ∀ c ∈ cs, IsEntry roots c (entryOf roots c) := fun c hc =>
    isEntry_entryOf roots (hcs.ne_nil c hc)
  have hin : ∀ c ∈ cs, entryOf roots c ∈ c := fun c hc => (hentry c hc).1
  have hmem := fun {i c} (hc : c ∈ cs) => hcs.mem_search_iff (i := i) hin hsearch hc
  have horder := fun {c} (hc : c ∈ cs) => hcs.searchOrder hin hsearch hc
  have hperm := hcs.flatMap_perm hin hsearch
  refine ⟨hperm, cs.map fun c => search (entryOf roots c), List.flatMap_def, ?_, ?_, ?_⟩
  · intro b hb
    obtain ⟨c, hc, rfl⟩ := List.mem_map.1 hb
    refine ⟨_, (horder hc).head?_eq, ?_, (horder hc).mem_iff⟩
    simpa only [IsEntry, hmem hc] using hentry c hc
  · refine List.pairwise_map.2 (hcs.ascending.imp_of_mem fun {c d} hc hd hcd j hj => ?_)
    obtain ⟨i, hi, hij⟩ := hcd j ((hmem hd).1 hj)
    exact ⟨i, (hmem hc).2 hi, hij⟩
  · intro before i after he
    have hlt : ∀ k ∈ before ++ [i], k < t.size := by
      intro k hk
      rw [← List.mem_range, ← hperm.mem_iff, he]
      exact List.Sublist.subset (by simp) hk
    obtain ⟨-, hfirst | ⟨p, hp, hadj, hside⟩⟩ := hcs.traceback hin hsearch before i after he
    · obtain ⟨c, hc, hhead⟩ := hcs.exists_head? hin hsearch he hfirst
      refine Or.inl ⟨⟨_, List.mem_map_of_mem hc, hhead⟩, fun k hk => ?_⟩
      refine Finset.disjoint_left.2 fun v hvi hvk => hfirst k hk ?_
      exact h.forest.reachable_of_shared (hlt k (List.mem_append_left _ hk)) (hlt i (by simp))
        hvk hvi
    · exact Or.inr (h.follows hp hadj hside fun k hk => hlt k (List.mem_append_left _ hk))

variable [WeightScale W] [WeightScale L] [LogConversion W L]

/-- Whichever roots are given, the traceback order of the tree of a graph decodes it, and so does
every other search of its components. -/
theorem isDecodingOrder_of_ofGraph {g : FactorGraph W L} (hg : FactorGraph.Reachable g)
    {useHint : Bool} (ht : (ofGraph useHint g).answer = .ok t) (roots : List Int) :
    IsDecodingOrder t roots (t.tracebackOrder roots) ∧
      ∀ (cs : List (List ℕ)) (search : ℕ → List ℕ), ComponentsOf t.graph t.size cs →
        (∀ u < t.size, SearchOrder t.graph u (search u)) →
        IsDecodingOrder t roots (cs.flatMap fun c => search (entryOf roots c)) := by
  have hbuilt := (built_of_ofGraph hg.sound ht).wellBuilt
  constructor
  · exact hbuilt.isDecodingOrder roots hbuilt.componentsOf fun _ hu => hbuilt.searchOrder hu
  · exact fun cs search hcs hsearch => hbuilt.isDecodingOrder roots hcs hsearch

/-- The tree of three components, traced back from a clique that is not the lowest one. -/
theorem isDecodingOrder_islands :
    ∃ g t, Engine.islands = .ok g ∧ (ofGraph true g).answer = .ok t ∧
      t.tracebackOrder [1] = [1, 0, 2, 3] ∧ IsDecodingOrder t [1] (t.tracebackOrder [1]) := by
  have horder : (Engine.islands >>= fun g => (ofGraph true g).answer).toOption.map
      (fun t => t.tracebackOrder [1]) = some [1, 0, 2, 3] := by
    decide +kernel
  cases hrun : Engine.islands >>= fun g => (ofGraph true g).answer with
  | error fault =>
    rw [hrun] at horder
    cases horder
  | ok t =>
    rw [hrun] at horder
    obtain ⟨g, hg, ht⟩ := bind_eq_ok_iff.1 hrun
    obtain ⟨hdecodes, -⟩ := isDecodingOrder_of_ofGraph (Engine.reachable_of_islands hg) ht [1]
    exact ⟨g, t, hg, ht, Option.some.inj horder, hdecodes⟩

end CliqueTree

end ExactInference
