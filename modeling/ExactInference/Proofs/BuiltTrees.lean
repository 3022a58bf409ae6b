import ExactInference.Proofs.EliminationForest
import ExactInference.Proofs.MinimalFactors
import ExactInference.Proofs.Protocol

/-!
# The clique tree of a graph

Joining cliques along the edges of an elimination gives every clique one separator to each of its
neighbors. So the tree of a graph is well built over the free variables, its cliques hold the
minimal factors in order, and no message has been sent. A schedule is a permutation of the cliques,
and no other part of the tree depends on it.
-/

namespace ExactInference

namespace CliqueTree

variable {W L : Type} {t t' : CliqueTree W L} {a b i j : ℕ} {c d : Clique W L}

/-- The variables of one clique that another one has as well. -/
def sharedNames (c d : Clique W L) : List String := c.factor.names.filter d.factor.names.contains

/-- A clique with one more separator. -/
def withSeparator (c : Clique W L) (s : Separator) : Clique W L :=
  { c with separators := c.separators.insert s.stop s }

/-- Two cliques are joined in both directions. -/
theorem join_eq_ok (ha : t.cliques[a]? = some c) (hb : t.cliques[b]? = some d) :
    t.join ((a : Int), (b : Int))
      = .ok ((t.update a (withSeparator · ⟨a, b, sharedNames c d⟩)).update b
          (withSeparator · ⟨b, a, sharedNames c d⟩)) := by
  have hb' : b < (t.update a (withSeparator · ⟨a, b, sharedNames c d⟩)).size := by
    rw [size_update]
    exact lt_size_of_getElem? hb
  rw [join, cliqueAt_eq_ok ha, cliqueAt_eq_ok hb]
  change (t.modifyAt a (withSeparator · ⟨a, b, sharedNames c d⟩) >>= fun t =>
    t.modifyAt b (withSeparator · ⟨b, a, sharedNames c d⟩)) = _
  rw [modifyAt_eq_ok (lt_size_of_getElem? ha)]
  exact modifyAt_eq_ok hb' _

/-- Two cliques with an edge between them, in either direction. -/
def Joins (edges : List (ℕ × ℕ)) (a b : ℕ) : Prop := (a, b) ∈ edges ∨ (b, a) ∈ edges

/-- Cliques of some factors that have separators along some links, before any message. -/
structure Joined (factors : List (Factor W L)) (linked : ℕ → ℕ → Prop) (t : CliqueTree W L) :
    Prop extends Fresh t where
  /-- There is one clique for each factor. -/
  factors_eq : t.cliques.map Clique.factor = factors
  /-- There is one separator to a neighbor. -/
  keys_nodup : ∀ {i : ℕ} {c : Clique W L}, t.cliques[i]? = some c → c.separators.keys.Nodup
  /-- Separators lead along the links. -/
  mem_keys : ∀ {i : ℕ} {c : Clique W L} {n : Int}, t.cliques[i]? = some c →
    (n ∈ c.separators.keys ↔ ∃ k : ℕ, n = k ∧ linked i k)
  /-- A separator holds what both ends share. -/
  separator : ∀ {i : ℕ} {c : Clique W L} {n : Int} {s : Separator}, t.cliques[i]? = some c →
    c.separators.get? n = some s →
    s.start = i ∧ s.stop = n ∧ ∃ (k : ℕ) (f : Factor W L), n = k ∧ factors[k]? = some f ∧
      ∀ v, v ∈ s.shared ↔ v ∈ c.factor.names ∧ v ∈ f.names

namespace Joined

variable {factors : List (Factor W L)} {linked : ℕ → ℕ → Prop} {edges : List (ℕ × ℕ)}

theorem start (factors : List (Factor W L)) (order : List Int) :
    Joined factors (Joins []) ⟨factors.map Clique.ofFactor, order, .built⟩ where
  factors_eq := by
    rw [List.map_map]
    exact List.map_id _
  fresh hc := by
    obtain ⟨f, -, rfl⟩ := List.getElem?_map .. ▸ hc |> Option.map_eq_some_iff.1
    exact ⟨rfl, rfl, rfl⟩
  phase_eq := rfl
  keys_nodup hc := by
    obtain ⟨f, -, rfl⟩ := List.getElem?_map .. ▸ hc |> Option.map_eq_some_iff.1
    exact List.nodup_nil
  mem_keys hc := by
    obtain ⟨f, -, rfl⟩ := List.getElem?_map .. ▸ hc |> Option.map_eq_some_iff.1
    simp [Clique.ofFactor, OrderedMap.empty, OrderedMap.keys, Joins]
  separator hc hs := by
    obtain ⟨f, -, rfl⟩ := List.getElem?_map .. ▸ hc |> Option.map_eq_some_iff.1
    cases hs

theorem size_eq (h : Joined factors linked t) : t.size = factors.length := by
  rw [← h.factors_eq, List.length_map, size]

theorem factor_eq (h : Joined factors linked t) (hc : t.cliques[i]? = some c) :
    factors[i]? = some c.factor := by
  rw [← h.factors_eq, List.getElem?_map, hc]
  rfl

/-- A separator more adds one link. -/
theorem link (h : Joined factors linked t) (hc : t.cliques[a]? = some c) {f : Factor W L}
    (hf : factors[b]? = some f) {names : List String}
    (hnames : ∀ v, v ∈ names ↔ v ∈ c.factor.names ∧ v ∈ f.names) :
    Joined factors (fun u w => linked u w ∨ u = a ∧ w = b)
      (t.update a (withSeparator · ⟨a, b, names⟩)) := by
  -- A clique of the new tree is an old one, with a separator more if it is the first end.
  have hcases : ∀ {i d}, (t.update a (withSeparator · ⟨a, b, names⟩)).cliques[i]? = some d →
      (i ≠ a ∧ t.cliques[i]? = some d) ∨ (i = a ∧ d = withSeparator c ⟨a, b, names⟩) := by
    intro i d hd
    rw [getElem?_update] at hd
    by_cases hia : a = i
    · subst hia
      rw [if_pos rfl, hc] at hd
      exact Or.inr ⟨rfl, (Option.some.inj hd).symm⟩
    · rw [if_neg hia] at hd
      exact Or.inl ⟨fun he => hia he.symm, hd⟩
  constructor
  case factors_eq =>
    rw [← h.factors_eq]
    refine List.ext_getElem? fun i => ?_
    simp only [List.getElem?_map, getElem?_update]
    by_cases hia : a = i
    · simp only [hia, if_true, Option.map_map]
      rfl
    · simp only [hia, if_false]
  case toFresh =>
    refine ⟨fun {i d} hd => ?_, h.phase_eq⟩
    rcases hcases hd with ⟨-, hd⟩ | ⟨-, rfl⟩
    · exact h.fresh hd
    · have hold := h.fresh hc
      exact hold
  case keys_nodup =>
    intro i d hd
    rcases hcases hd with ⟨-, hd⟩ | ⟨-, rfl⟩
    · exact h.keys_nodup hd
    · exact OrderedMap.nodup_keys_insert (h.keys_nodup hc) _ _
  case mem_keys =>
    intro i d n hd
    rcases hcases hd with ⟨hia, hd⟩ | ⟨rfl, rfl⟩
    · rw [h.mem_keys hd]
      simp [hia]
    · rw [withSeparator, OrderedMap.mem_keys_insert, h.mem_keys hc]
      constructor
      · rintro (⟨k, hk, hik⟩ | hn)
        · exact ⟨k, hk, Or.inl hik⟩
        · exact ⟨b, hn, Or.inr ⟨rfl, rfl⟩⟩
      · rintro ⟨k, hk, hik | ⟨-, rfl⟩⟩
        · exact Or.inl ⟨k, hk, hik⟩
        · exact Or.inr hk
  case separator =>
    intro i d n s hd hs
    rcases hcases hd with ⟨-, hd⟩ | ⟨rfl, rfl⟩
    · exact h.separator hd hs
    · by_cases hn : n = (b : Int)
      · subst hn
        rw [withSeparator, OrderedMap.get?_insert_self] at hs
        cases hs
        exact ⟨rfl, rfl, b, f, rfl, hf, hnames⟩
      · rw [withSeparator, OrderedMap.get?_insert_of_ne _ hn] at hs
        have hold := h.separator hc hs
        exact hold

/-- Joining two cliques adds one edge. A clique may be joined to itself. -/
theorem join (h : Joined factors (Joins edges) t) (ha : a < t.size) (hb : b < t.size) :
    ∃ t', t.join ((a : Int), (b : Int)) = .ok t' ∧ t'.order = t.order ∧
      Joined factors (Joins (edges ++ [(a, b)])) t' := by
  obtain ⟨c, hc⟩ := exists_clique ha
  obtain ⟨d, hd⟩ := exists_clique hb
  have hshared : ∀ v, v ∈ sharedNames c d ↔ v ∈ c.factor.names ∧ v ∈ d.factor.names := by
    intro v
    simp [sharedNames]
  have hfirst := h.link hc (h.factor_eq hd) hshared
  obtain ⟨d', hd'⟩ := exists_clique (hfirst.size_eq.trans h.size_eq.symm ▸ hb)
  have hfactor : d'.factor = d.factor :=
    Option.some.inj ((hfirst.factor_eq hd').symm.trans (h.factor_eq hd))
  have hboth := hfirst.link hd' (h.factor_eq hc) fun v => by
    rw [hshared, Factor.names, Factor.names, Factor.names, hfactor, and_comm]
  have hlinks : (fun u w => (Joins edges u w ∨ u = a ∧ w = b) ∨ u = b ∧ w = a)
      = Joins (edges ++ [(a, b)]) := by
    funext u w
    simp only [Joins, List.mem_append, List.mem_singleton, Prod.mk.injEq]
    exact propext (by tauto)
  exact ⟨_, join_eq_ok hc hd, rfl, hlinks ▸ hboth⟩

/-- Edges between cliques can all be joined. -/
theorem foldlM_join (h : Joined factors (Joins edges) t) {more : List (ℕ × ℕ)}
    (hmore : ∀ e ∈ more, e.1 < t.size ∧ e.2 < t.size) :
    ∃ t', (more.map fun e => ((e.1 : Int), (e.2 : Int))).foldlM CliqueTree.join t = .ok t' ∧
      t'.order = t.order ∧ Joined factors (Joins (edges ++ more)) t' := by
  induction more generalizing t edges with
  | nil => exact ⟨t, rfl, rfl, by rwa [List.append_nil]⟩
  | cons e more ih =>
    obtain ⟨h₁, h₂⟩ := hmore e List.mem_cons_self
    obtain ⟨u, hu, horder, hjoined⟩ := h.join h₁ h₂
    obtain ⟨t', ht', horder', hjoined'⟩ := ih hjoined fun e he => by
      rw [hjoined.size_eq, ← h.size_eq]
      exact hmore e (List.mem_cons_of_mem _ he)
    refine ⟨t', ?_, horder'.trans horder, by rwa [List.append_assoc] at hjoined'⟩
    rw [List.map_cons, List.foldlM_cons, hu]
    exact ht'

/-- The neighbors of a clique are those that it was joined with. -/
theorem borders_iff (h : Joined factors (Joins edges) t)
    (hlt : ∀ e ∈ edges, e.1 < t.size ∧ e.2 < t.size) : t.Borders i j ↔ Joins edges i j := by
  constructor
  · rintro ⟨c, hc, hj⟩
    obtain ⟨k, hk, hik⟩ := (h.mem_keys hc).1 hj
    exact (show j = k by exact_mod_cast hk) ▸ hik
  · intro hij
    have hi : i < t.size := hij.elim (fun he => (hlt _ he).1) fun he => (hlt _ he).2
    obtain ⟨c, hc⟩ := exists_clique hi
    exact ⟨c, hc, (h.mem_keys hc).2 ⟨j, rfl, hij⟩⟩

/-- Joined cliques are meshed. -/
theorem meshed (h : Joined factors (Joins edges) t) {axes : List Axis}
    (hwithin : ∀ f ∈ factors, f.scope.Within axes)
    (hlt : ∀ e ∈ edges, e.1 < t.size ∧ e.2 < t.size) : t.Meshed axes where
  within hc := hwithin _ (List.mem_of_getElem? (h.factor_eq hc))
  keys_nodup := h.keys_nodup
  separators {i c n s} hc hs := by
    obtain ⟨hstart, hstop, k, f, rfl, hf, hshared⟩ := h.separator hc hs
    have hik : Joins edges i k := (h.borders_iff hlt).1 ⟨c, hc, OrderedMap.mem_keys_of_get? hs⟩
    obtain ⟨d, hd, hback⟩ := (h.borders_iff hlt).2 hik.symm
    have hfd : f = d.factor := Option.some.inj (hf.symm.trans (h.factor_eq hd))
    exact ⟨k, d, rfl, hd, hback, hstart, hstop, hfd ▸ hshared⟩

/-- Cliques that are joined to others only are wired. -/
theorem wired (h : Joined factors (Joins edges) t) {axes : List Axis}
    (hwithin : ∀ f ∈ factors, f.scope.Within axes)
    (hlt : ∀ e ∈ edges, e.1 < t.size ∧ e.2 < t.size ∧ e.1 ≠ e.2) : t.Wired axes := by
  have hends : ∀ e ∈ edges, e.1 < t.size ∧ e.2 < t.size := fun e he =>
    ⟨(hlt e he).1, (hlt e he).2.1⟩
  refine .of_meshed (h.meshed hwithin hends) fun i hi => ?_
  rcases (h.borders_iff hends).1 hi with he | he
  · exact (hlt _ he).2.2 rfl
  · exact (hlt _ he).2.2 rfl

/-- The edges of the graph are those between different cliques. -/
theorem graph_eq (h : Joined factors (Joins edges) t)
    (hlt : ∀ e ∈ edges, e.1 < t.size ∧ e.2 < t.size) :
    t.graph = SimpleGraph.fromRel fun a b => (a, b) ∈ edges := by
  have hedge : ∀ {u w}, (u, w) ∈ t.edges ↔ u < w ∧ Joins edges u w := by
    intro u w
    rw [mem_edges, ← h.borders_iff hlt]
    constructor
    · rintro ⟨c, hc, n, hn, hlt, hw⟩
      have hnw : n = (w : Int) := by omega
      exact ⟨by omega, c, hc, hnw ▸ hn⟩
    · rintro ⟨huw, c, hc, hn⟩
      exact ⟨c, hc, w, hn, by exact_mod_cast huw, Int.toNat_natCast w⟩
  ext i j
  simp only [CliqueTree.graph, SimpleGraph.fromRel_adj, hedge, Joins, ne_eq]
  constructor
  · rintro ⟨hne, ⟨-, he⟩ | ⟨-, he⟩⟩
    · exact ⟨hne, he⟩
    · exact ⟨hne, he.symm⟩
  · rintro ⟨hne, he⟩
    rcases Nat.lt_or_gt_of_ne hne with hlt | hlt
    · exact ⟨hne, Or.inl ⟨hlt, he⟩⟩
    · exact ⟨hne, Or.inr ⟨hlt, he.symm⟩⟩

/-- The cliques are adjacent along the edges. -/
theorem graph_adj (h : Joined factors (Joins edges) t)
    (hlt : ∀ e ∈ edges, e.1 < t.size ∧ e.2 < t.size ∧ e.1 ≠ e.2) :
    t.graph.Adj i j ↔ (i, j) ∈ edges ∨ (j, i) ∈ edges := by
  rw [h.graph_eq fun e he => ⟨(hlt e he).1, (hlt e he).2.1⟩, SimpleGraph.fromRel_adj]
  refine and_iff_right_of_imp ?_
  rintro (he | he)
  · exact (hlt _ he).2.2
  · exact (hlt _ he).2.2.symm

/-- Factors can be joined along any edges between them. -/
theorem exists_ofEdges_of_lt (order : List Int)
    (hends : ∀ e ∈ edges, e.1 < factors.length ∧ e.2 < factors.length) :
    ∃ t, ofEdges factors (edges.map fun e => ((e.1 : Int), (e.2 : Int))) order = .ok t ∧
      t.order = order ∧ Joined factors (Joins edges) t := by
  have hstart := start factors order
  obtain ⟨t, ht, horder, hjoined⟩ := hstart.foldlM_join (by
    rw [hstart.size_eq]
    exact hends)
  exact ⟨t, ht, horder, hjoined⟩

/-- Factors can be joined along any edges between different ones. -/
theorem exists_ofEdges (order : List Int)
    (hends : ∀ e ∈ edges, e.1 < factors.length ∧ e.2 < factors.length ∧ e.1 ≠ e.2) :
    ∃ t, ofEdges factors (edges.map fun e => ((e.1 : Int), (e.2 : Int))) order = .ok t ∧
      t.order = order ∧ Joined factors (Joins edges) t :=
  exists_ofEdges_of_lt order fun e he => ⟨(hends e he).1, (hends e he).2.1⟩

end Joined

section Graph

variable [WeightScale W] [WeightScale L]

/-- The elimination of a graph's minimal factors, if all of them can be taken out. -/
def Eliminated (g : FactorGraph W L) (factors : List (Factor W L)) (done : Elimination) : Prop :=
  (Elimination.start (factors.map Factor.names) (factors.map Factor.size)).run
    (rankIn g.freeNames) = .ok done

/-- Without a hint the schedule is the one that was found. -/
theorem scheduleFor_of_no_hint {hint : Option (List Int)} (h : useHint = true → hint = none)
    (found : List ℕ) : scheduleFor useHint hint found = .ok found := by
  cases useHint with
  | false => rfl
  | true =>
    rw [h rfl]
    rfl

variable [LogConversion W L]

/-- A graph has a tree if its minimal factors can be eliminated, the schedule fits, and the cliques
are joined. -/
theorem ofGraph_eq_ok_iff {useHint : Bool} {g : FactorGraph W L} :
    (ofGraph useHint g).answer = .ok t ↔ ∃ factors done order, g.minimalFactors = .ok factors ∧
      factors ≠ [] ∧ Eliminated g factors done ∧
      scheduleFor useHint g.hint (done.order ++ done.remaining) = .ok order ∧
      ofEdges factors (done.edges.map fun e => ((e.1 : Int), (e.2 : Int)))
        (order.map Int.ofNat) = .ok t := by
  rw [ofGraph, Traced.answer_bind, Traced.answer_ofExcept, bind_eq_ok_iff]
  constructor
  · rintro ⟨factors, hfactors, h⟩
    split at h
    · cases h
    next hne =>
      simp only at h
      split at h
      · rw [Traced.answer_bind] at h
        obtain ⟨-, -, h⟩ := bind_eq_ok_iff.1 h
        cases h
      next done hdone =>
        rw [Traced.answer_bind] at h
        obtain ⟨-, -, h⟩ := bind_eq_ok_iff.1 h
        rw [Traced.answer_bind] at h
        obtain ⟨order, horder, h⟩ := bind_eq_ok_iff.1 h
        rw [Traced.answer_bind] at h
        obtain ⟨-, -, h⟩ := bind_eq_ok_iff.1 h
        exact ⟨factors, done, order, hfactors, fun he => hne (by rw [he]; rfl), hdone, horder, h⟩
  · rintro ⟨factors, done, order, hfactors, hne, hdone, horder, h⟩
    refine ⟨factors, hfactors, ?_⟩
    rw [if_neg fun he => hne (List.isEmpty_iff.1 he)]
    rw [Eliminated] at hdone
    simp only [hdone, Traced.answer_bind, Traced.answer_reportAll, Traced.answer_ofExcept,
      Traced.answer_report]
    refine bind_eq_ok_iff.2 ⟨(), rfl, bind_eq_ok_iff.2 ⟨order, horder, ?_⟩⟩
    exact bind_eq_ok_iff.2 ⟨(), rfl, h⟩

/-- A hint gives a permutation of the cliques. -/
theorem perm_of_orderOfHint {hint : List Int} {n : ℕ} {order : List ℕ}
    (h : orderOfHint hint n = .ok order) : order.Perm (List.range n) := by
  unfold orderOfHint at h
  split at h
  · cases h
    exact arrange_perm _ _
  · cases h

/-- A schedule is a permutation of the cliques. -/
theorem perm_of_scheduleFor {useHint : Bool} {hint : Option (List Int)} {found order : List ℕ}
    {n : ℕ} (hfound : found.Perm (List.range n)) (h : scheduleFor useHint hint found = .ok order) :
    order.Perm (List.range n) := by
  unfold scheduleFor at h
  split at h
  · have hlen : found.length = n := by rw [hfound.length_eq, List.length_range]
    exact hlen ▸ perm_of_orderOfHint h
  · cases h
    exact hfound

omit [WeightScale W] [WeightScale L] [LogConversion W L] in
/-- The variables of factors are listed once. -/
theorem nodup_names (factors : List (Factor W L)) : ∀ s ∈ factors.map Factor.names, s.Nodup := by
  intro s hs
  obtain ⟨f, -, rfl⟩ := List.mem_map.1 hs
  exact f.scope.distinct

omit [LogConversion W L] in
/-- The edges of a finished elimination lead between different factors. -/
theorem Eliminated.lt_length {g : FactorGraph W L} {factors : List (Factor W L)}
    {done : Elimination} (h : Eliminated g factors done) :
    ∀ e ∈ done.edges, e.1 < factors.length ∧ e.2 < factors.length ∧ e.1 ≠ e.2 := by
  intro e he
  rw [← List.length_map (f := Factor.names)]
  exact (Elimination.Books.run (nodup_names factors) h).1.lt_length (i := e.1) (j := e.2) he

/-- How the tree of a graph came about. -/
structure MadeBy (g : FactorGraph W L) (useHint : Bool) (factors : List (Factor W L))
    (done : Elimination) (order : List ℕ) (t : CliqueTree W L) : Prop where
  /-- There are minimal factors. -/
  minimal : g.minimalFactors = .ok factors
  /-- There is at least one. -/
  ne_nil : factors ≠ []
  /-- They were eliminated. -/
  eliminated : Eliminated g factors done
  /-- The schedule. -/
  schedule : scheduleFor useHint g.hint (done.order ++ done.remaining) = .ok order
  /-- The tree follows the schedule. -/
  order_eq : t.order = order.map Int.ofNat
  /-- The cliques are joined along the edges of the elimination. -/
  joined : Joined factors (Joins done.edges) t

/-- The tree of a graph comes about by an elimination. -/
theorem exists_madeBy {useHint : Bool} {g : FactorGraph W L}
    (h : (ofGraph useHint g).answer = .ok t) :
    ∃ factors done order, MadeBy g useHint factors done order t := by
  obtain ⟨factors, done, order, hfactors, hne, hdone, horder, ht⟩ := ofGraph_eq_ok_iff.1 h
  obtain ⟨u, hu, hueq, hjoined⟩ := Joined.exists_ofEdges (order.map Int.ofNat)
    hdone.lt_length
  cases hu.symm.trans ht
  exact ⟨factors, done, order, hfactors, hne, hdone, horder, hueq, hjoined⟩

namespace MadeBy

variable {g : FactorGraph W L} {useHint : Bool} {factors : List (Factor W L)} {done : Elimination}
  {order : List ℕ} (h : MadeBy g useHint factors done order t)
include h

theorem size_eq : t.size = factors.length := h.joined.size_eq

theorem lt_size : ∀ e ∈ done.edges, e.1 < t.size ∧ e.2 < t.size ∧ e.1 ≠ e.2 := by
  rw [h.size_eq]
  exact h.eliminated.lt_length

/-- The tree has the edges of the elimination. -/
theorem graph_eq : t.graph = done.graph := by
  ext i j
  rw [h.joined.graph_adj h.lt_size, Elimination.graph, SimpleGraph.fromRel_adj]
  refine ⟨fun he => ⟨?_, he⟩, fun he => he.2⟩
  exact he.elim (fun he => (h.lt_size _ he).2.2) fun he => (h.lt_size _ he).2.2.symm

/-- The cliques have the variables of the factors. -/
theorem scopeOf_eq : t.scopeOf = scopeSets (factors.map Factor.names) := by
  funext i
  ext v
  rw [mem_scopeSets]
  cases hc : t.cliques[i]? with
  | none =>
    have hnone : factors[i]? = none := by
      rw [← h.joined.factors_eq, List.getElem?_map, hc]
      rfl
    simp [scopeOf, hc, List.getD, hnone]
  | some c =>
    rw [CliqueTree.scopeOf_eq hc, Factor.mem_vars]
    simp [List.getD, h.joined.factor_eq hc]

/-- The tree is a join forest. -/
theorem isJoinForest : IsJoinForest t.size t.graph t.scopeOf := by
  obtain ⟨hbooks, hlast⟩ := Elimination.Books.run (nodup_names factors) h.eliminated
  rw [h.graph_eq, h.scopeOf_eq, h.size_eq, ← List.length_map (f := Factor.names)]
  exact hbooks.isJoinForest hlast

/-- The schedule visits every clique once. -/
theorem order_perm : order.Perm (List.range t.size) := by
  obtain ⟨hbooks, -⟩ := Elimination.Books.run (nodup_names factors) h.eliminated
  rw [h.size_eq, ← List.length_map (f := Factor.names)]
  exact perm_of_scheduleFor hbooks.perm h.schedule

end MadeBy

/-- The tree of a graph, before any message. -/
structure Built (g : FactorGraph W L) (t : CliqueTree W L) : Prop extends Fresh t where
  /-- The cliques hold the minimal factors in order. -/
  factors_eq : g.minimalFactors = .ok (t.cliques.map Clique.factor)
  /-- There is a clique. -/
  size_pos : 0 < t.size
  /-- The tree is well built over the free variables. -/
  wellBuilt : t.WellBuilt g.freeAxes
  /-- The schedule visits every clique once. -/
  order_perm : ∃ order : List ℕ, t.order = order.map Int.ofNat ∧ order.Perm (List.range t.size)

/-- The tree of a sound graph is built from its minimal factors. -/
theorem built_of_ofGraph {useHint : Bool} {g : FactorGraph W L} (hg : g.Sound)
    (h : (ofGraph useHint g).answer = .ok t) : Built g t := by
  obtain ⟨factors, done, order, hmade⟩ := exists_madeBy h
  obtain ⟨fs, hfs, hwithin, -⟩ := hg.minimalFactors_within
  cases hfs.symm.trans hmade.minimal
  refine ⟨hmade.joined.toFresh, by rw [hmade.joined.factors_eq, hmade.minimal], ?_,
    ⟨hmade.joined.wired hwithin hmade.lt_size, hmade.isJoinForest⟩, order, hmade.order_eq,
    hmade.order_perm⟩
  rw [hmade.size_eq]
  exact List.length_pos_iff.2 hmade.ne_nil

end Graph

variable [Semifield W] [LinearOrder W] [WeightScale W] [WeightScale L] [LogConversion W L]

/-- Before any message the invariant of message passing holds. -/
theorem Built.progress {g : FactorGraph W L} (h : Built g t) (mode : Mode) :
    Progress mode g.freeAxes t fun _ _ => False where
  toTracked := h.toFresh.tracked h.wellBuilt.toWired
  toExactWeights := by
    refine ⟨fun {i c x} hc _ => ?_, fun hab => absurd hab (h.not_sent _ _), fun hl => hl.elim⟩
    rw [(h.fresh hc).1, (h.fresh hc).2.1]
    simp
  forest := h.wellBuilt.forest

end CliqueTree

end ExactInference
