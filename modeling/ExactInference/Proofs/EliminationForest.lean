import ExactInference.CliqueTree.Elimination
import ExactInference.Proofs.JoinForest
import ExactInference.Proofs.Sequencing

/-!
# Eliminating cliques makes a join forest

The books of an elimination list the remaining holders of every variable. A clique leaves when all
that it shares with the remaining cliques is held by one of them. No two remaining cliques are ever
connected by the edges made so far, so an edge between two of them closes no cycle. A variable of a
clique that has left is still connected to a remaining holder along cliques that hold it, until its
last holder leaves. When one clique remains, the edges form a join forest.
-/

namespace ExactInference

/-- The variables of the cliques as sets. -/
def scopeSets (scopes : List (List String)) (i : ℕ) : Finset String := (scopes.getD i []).toFinset

theorem mem_scopeSets {scopes : List (List String)} {i : ℕ} {v : String} :
    v ∈ scopeSets scopes i ↔ v ∈ scopes.getD i [] := List.mem_toFinset

theorem eq_of_mem_of_length_le_one {α : Type} {xs : List α} {x y : α} (h : xs.length ≤ 1)
    (hx : x ∈ xs) (hy : y ∈ xs) : x = y := by
  cases xs with
  | nil => simp at hx
  | cons z zs =>
    have hzs : zs = [] := List.length_eq_zero_iff.1 (by simpa using h)
    subst hzs
    rw [List.mem_singleton.1 hx, List.mem_singleton.1 hy]

namespace Elimination

variable {scopes : List (List String)} {sizes : List ℕ} {e e' : Elimination} {i j : ℕ} {v : String}

/-- The edges made so far as a graph. -/
def graph (e : Elimination) : SimpleGraph ℕ := SimpleGraph.fromRel fun i j => (i, j) ∈ e.edges

/-- At first the holders of a variable are all cliques with the variable, in order. -/
theorem holdersOf_start (hnodup : ∀ s ∈ scopes, s.Nodup) (v : String) :
    (start scopes sizes).holdersOf v
      = (List.range scopes.length).filter fun i => decide (v ∈ scopes.getD i []) := by
  have hown : ∀ (vs : List String) (m : OrderedMap String (List ℕ)) (i : ℕ), vs.Nodup →
      ((vs.foldl (fun m v => m.insert v ((m.get? v).getD [] ++ [i])) m).get? v).getD []
        = (m.get? v).getD [] ++ if v ∈ vs then [i] else [] := by
    intro vs
    induction vs with
    | nil => simp
    | cons w vs ih =>
      intro m i hvs
      obtain ⟨hw, hvs⟩ := List.nodup_cons.1 hvs
      rw [List.foldl_cons, ih _ i hvs]
      by_cases hvw : v = w
      · subst hvw
        simp [hw]
      · rw [OrderedMap.get?_insert_of_ne m hvw]
        simp [hvw]
  have hall : ∀ (es : List (List String × ℕ)) (m : OrderedMap String (List ℕ)),
      (∀ s ∈ es, s.1.Nodup) →
      ((es.foldl (fun m s => s.1.foldl
          (fun m v => m.insert v ((m.get? v).getD [] ++ [s.2])) m) m).get? v).getD []
        = (m.get? v).getD [] ++ (es.filter fun s => decide (v ∈ s.1)).map Prod.snd := by
    intro es
    induction es with
    | nil => simp
    | cons s es ih =>
      intro m hes
      rw [List.foldl_cons, ih _ fun s hs => hes s (List.mem_cons_of_mem _ hs),
        hown s.1 m s.2 (hes s List.mem_cons_self), List.filter_cons, List.append_assoc]
      by_cases hv : v ∈ s.1 <;> simp [hv]
  have hrange : List.range scopes.length = scopes.zipIdx.map Prod.snd := by
    rw [List.zipIdx_map_snd, List.range_eq_range']
  have hzip : scopes.zipIdx.filter (fun s => decide (v ∈ s.1))
      = scopes.zipIdx.filter ((fun i => decide (v ∈ scopes.getD i [])) ∘ Prod.snd) := by
    refine List.filter_congr fun s hs => ?_
    have hget := List.mem_zipIdx_iff_getElem?.1 hs
    simp [List.getD, hget]
  rw [hrange, List.filter_map, ← hzip]
  refine (hall _ _ fun s hs => hnodup _ ?_).trans (List.nil_append _)
  exact List.mem_of_getElem? (List.mem_zipIdx_iff_getElem?.1 hs)

theorem holdersOf_release (e : Elimination) (i : ℕ) (w v : String) :
    (release i e w).holdersOf v
      = if v = w then (e.holdersOf v).filter (· ≠ i) else e.holdersOf v := by
  by_cases h : v = w
  · subst h
    simp [release, holdersOf]
  · rw [if_neg h]
    simp only [release, holdersOf, OrderedMap.get?_insert_of_ne _ h]

/-- Striking a clique from the holders of some variables changes nothing else. -/
theorem foldl_release (vs : List String) (e : Elimination) (i : ℕ) :
    (vs.foldl (release i) e).scopes = e.scopes ∧
      (vs.foldl (release i) e).remaining = e.remaining ∧
      (vs.foldl (release i) e).edges = e.edges ∧ (vs.foldl (release i) e).order = e.order ∧
      ∀ v, (vs.foldl (release i) e).holdersOf v
        = if v ∈ vs then (e.holdersOf v).filter (· ≠ i) else e.holdersOf v := by
  induction vs generalizing e with
  | nil => simp
  | cons w vs ih =>
    obtain ⟨hscopes, hremaining, hedges, horder, hholders⟩ := ih (release i e w)
    refine ⟨hscopes, hremaining, hedges, horder, fun v => ?_⟩
    rw [List.foldl_cons, hholders, holdersOf_release]
    by_cases hvw : v = w <;> by_cases hv : v ∈ vs <;> simp [hvw, hv]

/-- What a clique taken out leaves behind. -/
theorem takeOut_spec (e : Elimination) (i : ℕ) :
    (e.takeOut i).scopes = e.scopes ∧ (e.takeOut i).remaining = e.remaining.filter (· ≠ i) ∧
      (e.takeOut i).edges = e.edges ∧ (e.takeOut i).order = e.order ++ [i] ∧
      ∀ v, (e.takeOut i).holdersOf v
        = if v ∈ e.scopeOf i then (e.holdersOf v).filter (· ≠ i) else e.holdersOf v := by
  obtain ⟨hscopes, hremaining, hedges, horder, hholders⟩ := foldl_release (e.scopeOf i) e i
  exact ⟨hscopes, congrArg (List.filter _) hremaining, hedges, congrArg (· ++ [i]) horder, hholders⟩

theorem mem_of_best? {js : List ℕ} (h : e.best? js = some j) : j ∈ js := by
  have hfold : ∀ (is : List ℕ) (b : ℕ),
      is.foldl (fun b j => if e.preferred b j then b else j) b ∈ b :: is := by
    intro is
    induction is with
    | nil => simp
    | cons k is ih =>
      intro b
      have hchoice : (if e.preferred b k then b else k) = b ∨
          (if e.preferred b k then b else k) = k := by
        by_cases hp : e.preferred b k = true
        · exact Or.inl (if_pos hp)
        · exact Or.inr (if_neg hp)
      have hk := ih (if e.preferred b k then b else k)
      rw [List.foldl_cons]
      rcases hchoice with hc | hc <;> rw [hc] at hk ⊢ <;> simp only [List.mem_cons] at hk ⊢ <;>
        tauto
  cases js with
  | nil => cases h
  | cons k js => exact Option.some.inj h ▸ hfold js k

/-- A clique leaves in one of two ways: it shares nothing and closes its component, or an edge joins
it to another clique that holds all that it shares. -/
theorem eliminate?_cases (h : e.eliminate? i = some e') :
    (e.retained i = [] ∧ ∃ next, e' = { e with closings := e.closings ++ [(i, next)] }.takeOut i) ∨
      ∃ target, target ≠ i ∧ (∃ v, v ∈ e.retained i ∧ target ∈ e.holdersOf v) ∧
        (∀ v ∈ e.retained i, target ∈ e.holdersOf v) ∧
        e' = { e with edges := e.edges ++ [(i, target)] }.takeOut i := by
  unfold eliminate? at h
  cases hr : e.retained i with
  | nil =>
    rw [hr] at h
    obtain ⟨next, -, h⟩ := Option.bind_eq_some_iff.1 h
    exact Or.inl ⟨rfl, next, (Option.some.inj h).symm⟩
  | cons v vs =>
    rw [hr] at h
    obtain ⟨target, htarget, h⟩ := Option.bind_eq_some_iff.1 h
    have hmem := mem_of_best? htarget
    simp only [candidates, List.mem_filter, Bool.and_eq_true, decide_eq_true_eq, List.all_eq_true,
      List.contains_eq_mem] at hmem
    obtain ⟨hv, hne, hvs⟩ := hmem
    refine Or.inr ⟨target, hne, ⟨v, List.mem_cons_self, hv⟩, fun w hw => ?_,
      (Option.some.inj h).symm⟩
    rcases List.mem_cons.1 hw with rfl | hw
    · exact hv
    · exact hvs w hw

/-- Whichever way a clique leaves, it is taken out after an edge or a closing is noted. -/
theorem exists_takeOut (h : e.eliminate? i = some e') :
    ∃ edges closings, e' = { e with edges, closings }.takeOut i := by
  rcases eliminate?_cases h with ⟨-, next, he⟩ | ⟨target, -, -, -, he⟩
  · exact ⟨_, _, he⟩
  · exact ⟨_, _, he⟩

/-- What remains after a clique is taken out. -/
theorem remaining_of_eliminate? (h : e.eliminate? i = some e') :
    e'.remaining = e.remaining.filter (· ≠ i) := by
  obtain ⟨edges, closings, rfl⟩ := exists_takeOut h
  exact (takeOut_spec _ i).2.1

/-- The order in which cliques are taken out. -/
theorem order_of_eliminate? (h : e.eliminate? i = some e') : e'.order = e.order ++ [i] := by
  obtain ⟨edges, closings, rfl⟩ := exists_takeOut h
  exact (takeOut_spec _ i).2.2.2.1

/-- What the books say while cliques are taken out. -/
structure Books (scopes : List (List String)) (e : Elimination) : Prop where
  /-- The variables of the cliques do not change. -/
  scopes_eq : e.scopes = scopes
  /-- The holders of a variable are the remaining cliques with the variable. -/
  holders_eq : ∀ v, e.holdersOf v = e.remaining.filter fun i => decide (v ∈ scopes.getD i [])
  /-- Every clique has left or remains. -/
  perm : (e.order ++ e.remaining).Perm (List.range scopes.length)
  /-- Edges join two different cliques. -/
  lt_length : ∀ {i j}, (i, j) ∈ e.edges → i < scopes.length ∧ j < scopes.length ∧ i ≠ j
  /-- The edges close no cycle. -/
  acyclic : e.graph.IsAcyclic
  /-- No two remaining cliques are connected. -/
  apart : ∀ {i j}, i ∈ e.remaining → j ∈ e.remaining → e.graph.Reachable i j → i = j
  /-- A variable of a clique is connected to a remaining holder, or to all cliques with it. -/
  connected : ∀ v i, i < scopes.length → v ∈ scopeSets scopes i →
    (∃ k ∈ e.remaining, v ∈ scopeSets scopes k ∧
      (holding e.graph (scopeSets scopes) v).Reachable i k) ∨
    ∀ j < scopes.length, v ∈ scopeSets scopes j →
      (holding e.graph (scopeSets scopes) v).Reachable i j

namespace Books

theorem start (hnodup : ∀ s ∈ scopes, s.Nodup) (sizes : List ℕ) :
    Books scopes (start scopes sizes) where
  scopes_eq := rfl
  holders_eq := holdersOf_start hnodup
  perm := List.Perm.refl _
  lt_length h := by simp [Elimination.start] at h
  acyclic := by
    have hbot : (Elimination.start scopes sizes).graph = ⊥ := by
      ext i j
      simp [graph, Elimination.start]
    rw [hbot]
    exact SimpleGraph.isAcyclic_bot
  apart _ _ hreach := by
    refine reachable_induct (P := fun j => _ = j) hreach rfl fun u w _ hadj => ?_
    simp [graph, Elimination.start] at hadj
  connected v i hi hv :=
    Or.inl ⟨i, List.mem_range.2 hi, hv, SimpleGraph.Reachable.refl _⟩

theorem remaining_nodup (h : Books scopes e) : e.remaining.Nodup :=
  (List.nodup_append.1 (h.perm.nodup_iff.2 List.nodup_range)).2.1

theorem filter_remaining (h : Books scopes e) (i : ℕ) :
    e.remaining.filter (· ≠ i) = e.remaining.erase i := by
  rw [h.remaining_nodup.erase_eq_filter]
  exact List.filter_congr fun k _ => by by_cases hk : k = i <;> simp [hk]

theorem lt_of_remaining (h : Books scopes e) (hi : i ∈ e.remaining) : i < scopes.length :=
  List.mem_range.1 (h.perm.mem_iff.1 (List.mem_append_right _ hi))

theorem mem_holdersOf (h : Books scopes e) :
    i ∈ e.holdersOf v ↔ i ∈ e.remaining ∧ v ∈ scopeSets scopes i := by
  rw [h.holders_eq, List.mem_filter, decide_eq_true_eq, mem_scopeSets]

theorem scopeOf_eq (h : Books scopes e) (i : ℕ) : e.scopeOf i = scopes.getD i [] := by
  rw [Elimination.scopeOf, h.scopes_eq]

/-- A variable that a leaving clique does not share has no other remaining holder. -/
theorem eq_of_not_retained (h : Books scopes e) (hi : i ∈ e.remaining)
    (hv : v ∈ scopeSets scopes i) (hout : v ∉ e.retained i) {k : ℕ} (hk : k ∈ e.remaining)
    (hvk : v ∈ scopeSets scopes k) : k = i := by
  have hlen : (e.holdersOf v).length ≤ 1 := by
    by_contra hlen
    refine hout (List.mem_filter.2 ⟨?_, by simpa using hlen⟩)
    rw [h.scopeOf_eq]
    exact mem_scopeSets.1 hv
  exact eq_of_mem_of_length_le_one hlen (h.mem_holdersOf.2 ⟨hk, hvk⟩) (h.mem_holdersOf.2 ⟨hi, hv⟩)

/-- A clique that is joined to a remaining holder of every variable that it shares leaves the
variables connected. -/
theorem connected_leave (h : Books scopes e) {G : SimpleGraph ℕ} (hle : e.graph ≤ G)
    (hshared : ∀ v ∈ e.retained i, ∃ k ∈ e.remaining, k ≠ i ∧ v ∈ scopeSets scopes k ∧ G.Adj i k)
    {u : ℕ} (hu : u < scopes.length) (hvu : v ∈ scopeSets scopes u) :
    (∃ k ∈ e.remaining, k ≠ i ∧ v ∈ scopeSets scopes k ∧
      (holding G (scopeSets scopes) v).Reachable u k) ∨
    ∀ j < scopes.length, v ∈ scopeSets scopes j →
      (holding G (scopeSets scopes) v).Reachable u j := by
  have hmono : holding e.graph (scopeSets scopes) v ≤ holding G (scopeSets scopes) v :=
    fun _ _ hadj => ⟨hle hadj.1, hadj.2⟩
  rcases h.connected v u hu hvu with ⟨k, hk, hvk, hreach⟩ | hall
  · by_cases hki : k = i
    · subst hki
      by_cases hret : v ∈ e.retained k
      · obtain ⟨l, hl, hlk, hvl, hadj⟩ := hshared v hret
        have hedge : (holding G (scopeSets scopes) v).Adj k l := ⟨hadj, hvk, hvl⟩
        exact Or.inl ⟨l, hl, hlk, hvl, (hreach.mono hmono).trans hedge.reachable⟩
      · -- The last holder leaves, and all others are connected to it.
        refine Or.inr fun j hj hvj => ?_
        rcases h.connected v j hj hvj with ⟨l, hl, hvl, hreach'⟩ | hall
        · rw [h.eq_of_not_retained hk hvk hret hl hvl] at hreach'
          exact (hreach.mono hmono).trans (hreach'.mono hmono).symm
        · exact ((hall u hu hvu).mono hmono).symm
    · exact Or.inl ⟨k, hk, hki, hvk, hreach.mono hmono⟩
  · exact Or.inr fun j hj hvj => (hall j hj hvj).mono hmono

/-- A clique may leave if the new edges close no cycle, connect no two cliques that remain, and join
it to a remaining holder of every variable that it shares. -/
theorem leave (h : Books scopes e) (hi : i ∈ e.remaining) (hscopes : e'.scopes = e.scopes)
    (hremaining : e'.remaining = e.remaining) (horder : e'.order = e.order)
    (hholders : ∀ v, e'.holdersOf v = e.holdersOf v)
    (hlt : ∀ {i j}, (i, j) ∈ e'.edges → i < scopes.length ∧ j < scopes.length ∧ i ≠ j)
    (hacyclic : e'.graph.IsAcyclic) (hle : e.graph ≤ e'.graph)
    (hapart : ∀ {u w}, u ∈ e.remaining → w ∈ e.remaining → u ≠ i → w ≠ i →
      e'.graph.Reachable u w → u = w)
    (hshared : ∀ v ∈ e.retained i, ∃ k ∈ e.remaining, k ≠ i ∧ v ∈ scopeSets scopes k ∧
      e'.graph.Adj i k) : Books scopes (e'.takeOut i) := by
  obtain ⟨hs, hr, hedges, ho, hh⟩ := takeOut_spec e' i
  have hgraph : (e'.takeOut i).graph = e'.graph := by
    rw [graph, hedges, graph]
  have hkeep : ∀ {k}, k ∈ (e'.takeOut i).remaining ↔ k ∈ e.remaining ∧ k ≠ i := by
    intro k
    rw [hr, hremaining, List.mem_filter, decide_eq_true_eq]
  constructor
  case scopes_eq => rw [hs, hscopes, h.scopes_eq]
  case holders_eq =>
    intro v
    have hfilter : (e'.takeOut i).holdersOf v = (e.holdersOf v).filter (· ≠ i) := by
      rw [hh, hholders]
      by_cases hv : v ∈ e'.scopeOf i
      · rw [if_pos hv]
      · rw [if_neg hv]
        refine (List.filter_eq_self.2 fun k hk => ?_).symm
        rw [decide_eq_true_eq]
        rintro rfl
        rw [Elimination.scopeOf, hscopes, h.scopes_eq] at hv
        exact hv (mem_scopeSets.1 (h.mem_holdersOf.1 hk).2)
    rw [hfilter, h.holders_eq, hr, hremaining, List.filter_filter, List.filter_filter]
    exact List.filter_congr fun k _ => Bool.and_comm ..
  case perm =>
    have hout : e.remaining.Perm (i :: e.remaining.filter (· ≠ i)) := by
      rw [h.filter_remaining]
      exact List.perm_cons_erase hi
    rw [ho, hr, horder, hremaining, List.append_assoc, List.singleton_append]
    exact (hout.symm.append_left e.order).trans h.perm
  case lt_length =>
    intro u w huw
    rw [hedges] at huw
    exact hlt huw
  case acyclic => rwa [hgraph]
  case apart =>
    intro u w hu hw hreach
    rw [hgraph] at hreach
    obtain ⟨hu, hui⟩ := hkeep.1 hu
    obtain ⟨hw, hwi⟩ := hkeep.1 hw
    exact hapart hu hw hui hwi hreach
  case connected =>
    intro v u hu hvu
    rw [hgraph]
    refine (h.connected_leave hle hshared hu hvu).imp_left ?_
    rintro ⟨k, hk, hki, hvk, hreach⟩
    exact ⟨k, hkeep.2 ⟨hk, hki⟩, hvk, hreach⟩

/-- Connections along a new edge go through its ends. -/
theorem reachable_sup_edge {V : Type} {G : SimpleGraph V} {a b u w : V}
    (h : (G ⊔ SimpleGraph.edge a b).Reachable u w) :
    G.Reachable u w ∨ (G.Reachable u a ∧ G.Reachable b w) ∨
      (G.Reachable u b ∧ G.Reachable a w) := by
  refine reachable_induct (P := fun w => G.Reachable u w ∨ (G.Reachable u a ∧ G.Reachable b w) ∨
    (G.Reachable u b ∧ G.Reachable a w)) h (Or.inl (SimpleGraph.Reachable.refl u)) ?_
  intro x y hx hadj
  rcases hadj with hadj | hadj
  · have hxy := hadj.reachable
    rcases hx with hx | ⟨h₁, h₂⟩ | ⟨h₁, h₂⟩
    · exact Or.inl (hx.trans hxy)
    · exact Or.inr (Or.inl ⟨h₁, h₂.trans hxy⟩)
    · exact Or.inr (Or.inr ⟨h₁, h₂.trans hxy⟩)
  · rw [SimpleGraph.edge_adj] at hadj
    have hrefl := fun z : V => SimpleGraph.Reachable.refl (G := G) z
    rcases hadj.1 with ⟨rfl, rfl⟩ | ⟨rfl, rfl⟩
    · rcases hx with hx | ⟨h₁, -⟩ | ⟨h₁, -⟩
      · exact Or.inr (Or.inl ⟨hx, hrefl y⟩)
      · exact Or.inr (Or.inl ⟨h₁, hrefl y⟩)
      · exact Or.inl h₁
    · rcases hx with hx | ⟨h₁, -⟩ | ⟨h₁, -⟩
      · exact Or.inr (Or.inr ⟨hx, hrefl y⟩)
      · exact Or.inl h₁
      · exact Or.inr (Or.inr ⟨h₁, hrefl y⟩)

/-- Taking a clique out keeps the invariant. -/
theorem eliminate? (h : Books scopes e) (hi : i ∈ e.remaining)
    (he : e.eliminate? i = some e') : Books scopes e' := by
  rcases eliminate?_cases he with ⟨hret, next, rfl⟩ | ⟨target, hne, ⟨v, hv, htarget⟩, hall, rfl⟩
  · refine h.leave hi rfl rfl rfl (fun _ => rfl) h.lt_length h.acyclic le_rfl
      (fun hu hw _ _ hreach => h.apart hu hw hreach) fun v hv => ?_
    rw [hret] at hv
    simp at hv
  · have htr := (h.mem_holdersOf.1 htarget).1
    have hgraph : ({ e with edges := e.edges ++ [(i, target)] } : Elimination).graph
        = e.graph ⊔ SimpleGraph.edge i target := by
      ext u w
      simp only [graph, SimpleGraph.fromRel_adj, List.mem_append, List.mem_singleton,
        Prod.mk.injEq, SimpleGraph.sup_adj, SimpleGraph.edge_adj]
      tauto
    have hfar : ¬ e.graph.Reachable i target := fun hreach => hne (h.apart hi htr hreach).symm
    refine h.leave hi rfl rfl rfl (fun _ => rfl) ?_ ?_ ?_ ?_ fun w hw => ?_
    · intro u w huw
      simp only [List.mem_append, List.mem_singleton, Prod.mk.injEq] at huw
      rcases huw with huw | ⟨rfl, rfl⟩
      · exact h.lt_length huw
      · exact ⟨h.lt_of_remaining hi, h.lt_of_remaining htr, hne.symm⟩
    · rw [hgraph]
      exact h.acyclic.sup_edge_of_not_reachable hfar
    · rw [hgraph]
      exact le_sup_left
    · intro u w hu hw hui hwi hreach
      rw [hgraph] at hreach
      rcases reachable_sup_edge hreach with hr | ⟨hr, -⟩ | ⟨-, hr⟩
      · exact h.apart hu hw hr
      · exact absurd (h.apart hu hi hr) hui
      · exact absurd (h.apart hi hw hr).symm hwi
    · refine ⟨target, htr, hne, (h.mem_holdersOf.1 (hall w hw)).2, ?_⟩
      rw [hgraph]
      exact Or.inr ((SimpleGraph.edge_adj _ _ _ _).2 ⟨Or.inl ⟨rfl, rfl⟩, hne.symm⟩)

/-- One step of the elimination takes one clique out. -/
theorem step? (h : Books scopes e) {rank : String → ℕ} (he : e.step? rank = some e') :
    Books scopes e' ∧ e'.remaining.length + 1 = e.remaining.length := by
  obtain ⟨v, -, hv⟩ := List.exists_of_findSome?_eq_some he
  split at hv
  · next i hone =>
    have hi : i ∈ e.remaining := (h.mem_holdersOf (v := v).1 (by rw [hone]; simp)).1
    have h' := h.eliminate? hi hv
    refine ⟨h', ?_⟩
    rw [remaining_of_eliminate? hv, h.filter_remaining]
    have hpos := List.length_pos_of_mem hi
    rw [List.length_erase_of_mem hi]
    omega
  · cases hv

/-- Taking out a number of cliques leaves so many fewer. -/
theorem exhaust (h : Books scopes e) {rank : String → ℕ} {n : ℕ}
    (he : e.exhaust rank n = .ok e') :
    Books scopes e' ∧ e'.remaining.length + n = e.remaining.length := by
  induction n generalizing e with
  | zero =>
    cases he
    exact ⟨h, rfl⟩
  | succ n ih =>
    rw [Elimination.exhaust] at he
    split at he
    · next next hnext =>
      obtain ⟨h', hlen⟩ := h.step? hnext
      obtain ⟨h'', hlen'⟩ := ih h' he
      exact ⟨h'', by omega⟩
    · cases he

/-- A finished elimination has one remaining clique. -/
theorem run (hnodup : ∀ s ∈ scopes, s.Nodup) {rank : String → ℕ}
    (he : (Elimination.start scopes sizes).run rank = .ok e') :
    Books scopes e' ∧ e'.remaining.length ≤ 1 := by
  obtain ⟨h, hlen⟩ := (Books.start hnodup sizes).exhaust he
  refine ⟨h, ?_⟩
  have hcount : (Elimination.start scopes sizes).remaining.length = scopes.length := by
    simp [Elimination.start]
  have hscopes : (Elimination.start scopes sizes).scopes = scopes := rfl
  rw [hcount, hscopes] at hlen
  omega

/-- The edges of a finished elimination form a join forest. -/
theorem isJoinForest (h : Books scopes e) (hlast : e.remaining.length ≤ 1) :
    IsJoinForest scopes.length e.graph (scopeSets scopes) where
  lt_size hadj := by
    rcases hadj.2 with hedge | hedge
    · exact (h.lt_length hedge).1
    · exact (h.lt_length hedge).2.1
  acyclic := h.acyclic
  connected v i j hi hj hvi hvj := by
    rcases h.connected v i hi hvi with ⟨k, hk, -, hik⟩ | hall
    · rcases h.connected v j hj hvj with ⟨l, hl, -, hjl⟩ | hall
      · rw [eq_of_mem_of_length_le_one hlast hl hk] at hjl
        exact hik.trans hjl.symm
      · exact (hall i hi hvi).symm
    · exact hall j hj hvj

end Books

end Elimination

end ExactInference
