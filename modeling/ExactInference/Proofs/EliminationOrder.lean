import ExactInference.Proofs.EliminationForest

/-!
# The order in which cliques leave

An elimination takes out one clique after the other, so what every such step keeps holds in the end.
An edge leads from the clique that leaves to one that remains, and both share a variable. Since a
clique leaves once, it has at most one edge to a clique that stands after it in the order of
elimination.
-/

namespace ExactInference

/-- What stands before something else in a list still does so in a longer one. -/
theorem idxOf_append_lt {xs : List ℕ} {i j : ℕ} (h : xs.idxOf i < xs.idxOf j) (ys : List ℕ) :
    (xs ++ ys).idxOf i < (xs ++ ys).idxOf j := by
  have hi : i ∈ xs := List.idxOf_lt_length_iff.1 (h.trans_le List.idxOf_le_length)
  rw [List.idxOf_append, List.idxOf_append, if_pos hi]
  split
  · exact h
  · exact (List.idxOf_lt_length_iff.2 hi).trans_le (Nat.le_add_left _ _)

/-- Every vertex has at most one neighbor that stands after it in the order. -/
def LeafToRoot (G : SimpleGraph ℕ) (order : List ℕ) : Prop :=
  ∀ i j k, G.Adj i j → G.Adj i k → order.idxOf i < order.idxOf j → order.idxOf i < order.idxOf k →
    j = k

namespace Elimination

variable {scopes : List (List String)} {sizes : List ℕ} {e e' : Elimination} {i j : ℕ}
  {rank : String → ℕ}

/-- A step takes out a remaining clique that alone holds one of its variables. -/
theorem Books.exists_of_step? (h : Books scopes e) (he : e.step? rank = some e') :
    ∃ i ∈ e.remaining, e.eliminate? i = some e' := by
  obtain ⟨v, -, hv⟩ := List.exists_of_findSome?_eq_some he
  split at hv
  · next i hone =>
    have hi : i ∈ e.holdersOf v := by simp [hone]
    exact ⟨i, (h.mem_holdersOf.1 hi).1, hv⟩
  · cases hv

/-- What holds at the start and is kept whenever a clique is taken out holds in the end. -/
theorem Books.exhaust_induct {P : Elimination → Prop} (h : Books scopes e) (base : P e)
    (step : ∀ {e e' i}, Books scopes e → P e → i ∈ e.remaining → e.eliminate? i = some e' → P e')
    {n : ℕ} (he : e.exhaust rank n = .ok e') : P e' := by
  induction n generalizing e with
  | zero =>
    cases he
    exact base
  | succ n ih =>
    rw [Elimination.exhaust] at he
    split at he
    · next next hnext =>
      obtain ⟨i, hi, hout⟩ := h.exists_of_step? hnext
      exact ih (h.eliminate? hi hout) (step h base hi hout) he
    · cases he

/-- What the edges of an elimination stand for. -/
structure Merges (scopes : List (List String)) (e : Elimination) : Prop where
  /-- The ends of an edge share a variable. -/
  shares : ∀ {i j}, (i, j) ∈ e.edges → ∃ v, v ∈ scopeSets scopes i ∧ v ∈ scopeSets scopes j
  /-- The first end of an edge leaves before the second one. -/
  before : ∀ {i j}, (i, j) ∈ e.edges → e.order.idxOf i < e.order.idxOf j
  /-- A clique leaves along one edge. -/
  unique : ∀ {i j k}, (i, j) ∈ e.edges → (i, k) ∈ e.edges → j = k

namespace Merges

theorem start (scopes : List (List String)) (sizes : List ℕ) :
    Merges scopes (start scopes sizes) where
  shares h := by simp [Elimination.start] at h
  before h := by simp [Elimination.start] at h
  unique h := by simp [Elimination.start] at h

/-- A clique that leaves without an edge keeps what the edges stand for. -/
theorem close (h : Merges scopes e) (hedges : e'.edges = e.edges)
    (horder : e'.order = e.order ++ [i]) : Merges scopes e' where
  shares hin := h.shares (hedges ▸ hin)
  before hin := by
    rw [horder]
    exact idxOf_append_lt (h.before (hedges ▸ hin)) [i]
  unique hj hk := h.unique (hedges ▸ hj) (hedges ▸ hk)

/-- So does a clique that leaves along an edge to one that remains. -/
theorem join (h : Merges scopes e) (hedges : e'.edges = e.edges ++ [(i, j)])
    (horder : e'.order = e.order ++ [i]) (hi : i ∉ e.order) (hj : j ∉ e.order) (hne : j ≠ i)
    (hshared : ∃ v, v ∈ scopeSets scopes i ∧ v ∈ scopeSets scopes j) : Merges scopes e' := by
  have hcases : ∀ {u w}, (u, w) ∈ e'.edges → (u, w) ∈ e.edges ∨ u = i ∧ w = j := by
    simp [hedges]
  -- All old edges lead from cliques that have left.
  have hold : ∀ {u w}, (u, w) ∈ e.edges → u ≠ i := fun huw hu => by
    have hlt := (h.before huw).trans_le List.idxOf_le_length
    exact hi (hu ▸ List.idxOf_lt_length_iff.1 hlt)
  constructor
  case shares =>
    intro u w huw
    rcases hcases huw with huw | ⟨rfl, rfl⟩
    · exact h.shares huw
    · exact hshared
  case before =>
    intro u w huw
    rw [horder]
    rcases hcases huw with huw | ⟨rfl, rfl⟩
    · exact idxOf_append_lt (h.before huw) [i]
    · rw [List.idxOf_append_of_notMem hi, List.idxOf_append_of_notMem hj,
        List.idxOf_cons_self, List.idxOf_cons_ne _ hne.symm]
      simp
  case unique =>
    intro u w k hw hk
    rcases hcases hw with how | ⟨hu, rfl⟩ <;> rcases hcases hk with hok | ⟨hu', rfl⟩
    · exact h.unique how hok
    · exact absurd hu' (hold how)
    · exact absurd hu (hold hok)
    · rfl

/-- Taking a clique out keeps what the edges stand for. -/
theorem eliminate? (h : Merges scopes e) (hb : Books scopes e) (hi : i ∈ e.remaining)
    (he : e.eliminate? i = some e') : Merges scopes e' := by
  have hleft : ∀ {k}, k ∈ e.remaining → k ∉ e.order := fun hk ho =>
    (List.nodup_append.1 (hb.perm.nodup_iff.2 List.nodup_range)).2.2 _ ho _ hk rfl
  rcases eliminate?_cases he with ⟨-, next, rfl⟩ | ⟨target, hne, ⟨v, hv, htarget⟩, -, rfl⟩
  · obtain ⟨-, -, hedges, horder, -⟩ :=
      takeOut_spec { e with closings := e.closings ++ [(i, next)] } i
    exact h.close hedges horder
  · obtain ⟨-, -, hedges, horder, -⟩ :=
      takeOut_spec { e with edges := e.edges ++ [(i, target)] } i
    have hvi : v ∈ e.scopeOf i := (List.mem_filter.1 hv).1
    rw [hb.scopeOf_eq] at hvi
    obtain ⟨hremains, hvt⟩ := hb.mem_holdersOf.1 htarget
    exact h.join hedges horder (hleft hi) (hleft hremains) hne ⟨v, mem_scopeSets.2 hvi, hvt⟩

/-- The edges of a finished elimination. -/
theorem run (hnodup : ∀ s ∈ scopes, s.Nodup)
    (he : (Elimination.start scopes sizes).run rank = .ok e') : Merges scopes e' :=
  (Books.start hnodup sizes).exhaust_induct (start scopes sizes)
    (fun hb h hi he => h.eliminate? hb hi he) he

/-- In the order of elimination, followed by what remains, a clique has at most one later
neighbor. -/
theorem leafToRoot (h : Merges scopes e) : LeafToRoot e.graph (e.order ++ e.remaining) := by
  have hlater : ∀ {i j}, e.graph.Adj i j → (e.order ++ e.remaining).idxOf i
      < (e.order ++ e.remaining).idxOf j → (i, j) ∈ e.edges := by
    intro i j hadj hlt
    rcases hadj.2 with hij | hji
    · exact hij
    · exact absurd hlt (idxOf_append_lt (h.before hji) e.remaining).asymm
  intro i j k hij hik hj hk
  exact h.unique (hlater hij hj) (hlater hik hk)

end Merges

end Elimination

end ExactInference
