import ExactInference.Proofs.Ears
import ExactInference.Proofs.EliminationOrder

/-!
# An elimination succeeds where there is a join forest

The books find a variable with one holder by the number of its holders, so these numbers have to be
right at every step. A clique can be taken out exactly if it is an ear of the remaining ones. So an
elimination of cliques that can be reduced keeps them so, and always finds another clique to take
out, until one is left.
-/

namespace ExactInference

namespace Elimination

variable {scopes : List (List String)} {sizes : List ℕ} {e e' : Elimination} {i : ℕ}
  {rank : String → ℕ}

/-- Every variable is listed under the number of its remaining holders. -/
def Counted (e : Elimination) : Prop :=
  ∀ v k, 0 < k → (v ∈ e.withCount k ↔ (e.holdersOf v).length = k)

theorem mem_enter {counts : OrderedMap ℕ (List String)} {n k : ℕ} {v w : String} :
    w ∈ ((enter counts n v).get? k).getD [] ↔ w ∈ (counts.get? k).getD [] ∨ k = n ∧ w = v := by
  by_cases hk : k = n
  · subst hk
    simp only [enter, OrderedMap.get?_insert_self, Option.getD_some, true_and]
    split
    · next hv =>
      rw [List.contains_eq_mem, decide_eq_true_eq] at hv
      exact ⟨Or.inl, fun h => h.elim id fun hw => hw ▸ hv⟩
    · simp
  · simp [enter, OrderedMap.get?_insert_of_ne counts hk, hk]

/-- Entering a list of variables with their holders. -/
theorem mem_foldl_enter {es : List (String × List ℕ)} {counts : OrderedMap ℕ (List String)} {k : ℕ}
    {w : String} :
    w ∈ ((es.foldl (fun m e => enter m e.2.length e.1) counts).get? k).getD [] ↔
      w ∈ (counts.get? k).getD [] ∨ ∃ js, (w, js) ∈ es ∧ js.length = k := by
  induction es generalizing counts with
  | nil => simp
  | cons e es ih =>
    rw [List.foldl_cons, ih, mem_enter, or_assoc]
    refine or_congr_right ⟨?_, ?_⟩
    · rintro (⟨rfl, rfl⟩ | ⟨js, hjs, hlen⟩)
      · exact ⟨e.2, List.mem_cons_self, rfl⟩
      · exact ⟨js, List.mem_cons_of_mem e hjs, hlen⟩
    · rintro ⟨js, hjs, hlen⟩
      rcases List.mem_cons.1 hjs with rfl | hjs
      · exact Or.inl ⟨hlen.symm, rfl⟩
      · exact Or.inr ⟨js, hjs, hlen⟩

/-- At first every variable is listed once with its holders. -/
theorem nodup_keys_start (scopes : List (List String)) (sizes : List ℕ) :
    (start scopes sizes).holders.keys.Nodup := by
  have hown : ∀ (vs : List String) (i : ℕ) (m : OrderedMap String (List ℕ)), m.keys.Nodup →
      (vs.foldl (fun m v => m.insert v ((m.get? v).getD [] ++ [i])) m).keys.Nodup := by
    intro vs i
    induction vs with
    | nil => exact fun m hm => hm
    | cons v vs ih => exact fun m hm => ih _ (OrderedMap.nodup_keys_insert hm _ _)
  have hall : ∀ (es : List (List String × ℕ)) (m : OrderedMap String (List ℕ)), m.keys.Nodup →
      (es.foldl (fun m s => s.1.foldl
        (fun m v => m.insert v ((m.get? v).getD [] ++ [s.2])) m) m).keys.Nodup := by
    intro es
    induction es with
    | nil => exact fun m hm => hm
    | cons s es ih => exact fun m hm => ih _ (hown s.1 s.2 m hm)
  exact hall scopes.zipIdx OrderedMap.empty List.nodup_nil

/-- At first all variables are entered under the numbers of their holders. -/
theorem counted_start (scopes : List (List String)) (sizes : List ℕ) :
    Counted (start scopes sizes) := by
  have hkeys := nodup_keys_start scopes sizes
  intro v k hk
  have hentries : v ∈ (start scopes sizes).withCount k ↔
      ∃ js, (v, js) ∈ (start scopes sizes).holders.entries ∧ js.length = k :=
    mem_foldl_enter.trans (or_iff_right (by simp [OrderedMap.get?_empty]))
  rw [hentries, holdersOf]
  constructor
  · rintro ⟨js, hjs, rfl⟩
    rw [(OrderedMap.mem_entries_iff hkeys).1 hjs, Option.getD_some]
  · cases hget : (start scopes sizes).holders.get? v with
    | none => exact fun hlen => absurd hlen hk.ne
    | some js => exact fun hlen => ⟨js, (OrderedMap.mem_entries_iff hkeys).2 hget, hlen⟩

/-- Striking a variable from the list of one number leaves all other lists alone. -/
theorem getD_struck (e : Elimination) (w : String) (m k : ℕ) :
    ((e.byCount.insert m ((e.withCount m).filter (· ≠ w))).get? k).getD []
      = if k = m then (e.withCount k).filter (· ≠ w) else e.withCount k := by
  by_cases hk : k = m
  · subst hk
    rw [OrderedMap.get?_insert_self, Option.getD_some, if_pos rfl]
  · rw [OrderedMap.get?_insert_of_ne _ hk, if_neg hk, withCount]

/-- A holder that is struck from a variable is counted off. -/
theorem Counted.release (h : Counted e) {w : String} (hnodup : (e.holdersOf w).Nodup)
    (hi : i ∈ e.holdersOf w) : Counted (release i e w) := by
  have hpos : 0 < (e.holdersOf w).length := List.length_pos_of_mem hi
  have hlength : ((e.holdersOf w).filter (· ≠ i)).length + 1 = (e.holdersOf w).length := by
    have herase : (e.holdersOf w).filter (· ≠ i) = (e.holdersOf w).erase i := by
      rw [hnodup.erase_eq_filter]
      exact List.filter_congr fun k _ => by by_cases hk : k = i <;> simp [hk]
    rw [herase, List.length_erase_of_mem hi]
    omega
  -- The variable is struck from the list of its old number and entered under the new one.
  have hcount : ∀ v k, v ∈ (Elimination.release i e w).withCount k ↔
      (v ∈ e.withCount k ∧ ¬ (k = (e.holdersOf w).length ∧ v = w)) ∨
        (1 < (e.holdersOf w).length ∧ k = (e.holdersOf w).length - 1 ∧ v = w) := by
    intro v k
    have hstruck : v ∈ ((e.byCount.insert (e.holdersOf w).length
        ((e.withCount (e.holdersOf w).length).filter (· ≠ w))).get? k).getD [] ↔
          v ∈ e.withCount k ∧ ¬ (k = (e.holdersOf w).length ∧ v = w) := by
      rw [getD_struck]
      split
      · next hk => simp [hk]
      · next hk => simp [hk]
    rw [withCount, Elimination.release]
    by_cases hmany : 1 < (e.holdersOf w).length
    · simp only [gt_iff_lt, hmany, if_true, mem_enter, hstruck, true_and]
    · simp only [gt_iff_lt, hmany, if_false, hstruck, false_and, or_false]
  intro v k hk
  rw [hcount, holdersOf_release]
  by_cases hv : v = w
  · subst hv
    rw [if_pos rfl, h v k hk]
    simp only [and_true]
    omega
  · simp only [hv, and_false, not_false_eq_true, and_true, or_false, if_false]
    exact h v k hk

/-- A clique is struck from all its variables, one by one. -/
theorem Counted.foldl_release {vs : List String} (hvs : vs.Nodup) (h : Counted e)
    (hnodup : ∀ v, (e.holdersOf v).Nodup) (hi : ∀ v ∈ vs, i ∈ e.holdersOf v) :
    Counted (vs.foldl (Elimination.release i) e) := by
  induction vs generalizing e with
  | nil => exact h
  | cons w vs ih =>
    obtain ⟨hw, hvs⟩ := List.nodup_cons.1 hvs
    refine ih hvs (h.release (hnodup w) (hi w List.mem_cons_self)) (fun v => ?_) fun v hv => ?_
    · rw [holdersOf_release]
      split
      · exact (hnodup v).filter _
      · exact hnodup v
    · have hne : v ≠ w := fun he => hw (he ▸ hv)
      rw [holdersOf_release, if_neg hne]
      exact hi v (List.mem_cons_of_mem w hv)

theorem Books.nodup_holdersOf (h : Books scopes e) (v : String) : (e.holdersOf v).Nodup := by
  rw [h.holders_eq]
  exact h.remaining_nodup.filter _

/-- Taking a clique out keeps the numbers right. -/
theorem Counted.eliminate? (h : Counted e) (hb : Books scopes e) (hscopes : ∀ s ∈ scopes, s.Nodup)
    (hi : i ∈ e.remaining) (he : e.eliminate? i = some e') : Counted e' := by
  have hnodup := hb.nodup_holdersOf
  have hscope : e.scopeOf i ∈ scopes := by
    rw [hb.scopeOf_eq, List.getD_eq_getElem?_getD, List.getElem?_eq_getElem (hb.lt_of_remaining hi)]
    exact List.getElem_mem _
  have hholds : ∀ v ∈ e.scopeOf i, i ∈ e.holdersOf v := fun v hv => by
    rw [hb.scopeOf_eq] at hv
    exact hb.mem_holdersOf.2 ⟨hi, mem_scopeSets.2 hv⟩
  obtain ⟨edges, closings, rfl⟩ := exists_takeOut he
  exact Counted.foldl_release (e := { e with edges, closings }) (hscopes _ hscope) h hnodup hholds

/-- A clique shares a variable if another remaining clique holds it. -/
theorem Books.mem_retained (h : Books scopes e) (hi : i ∈ e.remaining) {v : String} :
    v ∈ e.retained i ↔
      v ∈ scopeSets scopes i ∧ ∃ k ∈ e.remaining, k ≠ i ∧ v ∈ scopeSets scopes k := by
  constructor
  · intro hv
    obtain ⟨hvi, hmany⟩ := List.mem_filter.1 hv
    rw [h.scopeOf_eq] at hvi
    rw [decide_eq_true_eq, ← List.toFinset_card_of_nodup (h.nodup_holdersOf v)] at hmany
    obtain ⟨k, hk, hki⟩ := Finset.exists_mem_ne hmany i
    obtain ⟨hkR, hvk⟩ := h.mem_holdersOf.1 (List.mem_toFinset.1 hk)
    exact ⟨mem_scopeSets.2 hvi, k, hkR, hki, hvk⟩
  · rintro ⟨hvi, k, hk, hki, hvk⟩
    by_contra hout
    exact hki (h.eq_of_not_retained hi hvi hout hk hvk)

/-- Among candidates there is a best one. -/
theorem exists_best? {js : List ℕ} {j : ℕ} (h : j ∈ js) : ∃ k, e.best? js = some k := by
  cases js with
  | nil => exact absurd h List.not_mem_nil
  | cons k ks => exact ⟨_, rfl⟩

/-- An ear of the remaining cliques can be taken out. -/
theorem Books.exists_eliminate? (h : Books scopes e)
    (hear : IsEar (scopeSets scopes) e.remaining.toFinset i) : ∃ e', e.eliminate? i = some e' := by
  obtain ⟨hi, j, hj, hji, hsub⟩ := hear
  rw [List.mem_toFinset] at hi hj
  have hwitness : ∀ v ∈ e.retained i, j ∈ e.holdersOf v := fun v hv => by
    obtain ⟨hvi, k, hk, hki, hvk⟩ := (h.mem_retained hi).1 hv
    exact h.mem_holdersOf.2 ⟨hj, hsub k (List.mem_toFinset.2 hk) hki
      (Finset.mem_inter.2 ⟨hvi, hvk⟩)⟩
  unfold Elimination.eliminate?
  cases hr : e.retained i with
  | nil =>
    have hother : j ∈ e.remaining.filter (· ≠ i) := by simp [hj, hji]
    obtain ⟨next, hnext⟩ := Option.isSome_iff_exists.1
      (List.isSome_min?_of_mem hother)
    exact ⟨_, Option.bind_eq_some_iff.2 ⟨next, hnext, rfl⟩⟩
  | cons v vs =>
    rw [hr] at hwitness
    have hcandidate : j ∈ e.candidates i (v :: vs) := by
      simp only [candidates, List.mem_filter, Bool.and_eq_true, decide_eq_true_eq,
        List.all_eq_true, List.contains_eq_mem]
      exact ⟨hwitness v List.mem_cons_self, hji, fun w hw => hwitness w (List.mem_cons_of_mem v hw)⟩
    obtain ⟨target, htarget⟩ := exists_best? (e := e) hcandidate
    exact ⟨_, Option.bind_eq_some_iff.2 ⟨target, htarget, rfl⟩⟩

/-- Only ears are taken out, as long as other cliques remain. -/
theorem Books.isEar_of_eliminate? (h : Books scopes e) (hi : i ∈ e.remaining)
    (hmore : 1 < e.remaining.length) (he : e.eliminate? i = some e') :
    IsEar (scopeSets scopes) e.remaining.toFinset i := by
  have hshared : ∀ k ∈ e.remaining.toFinset, k ≠ i → ∀ v ∈ scopeSets scopes i ∩ scopeSets scopes k,
      v ∈ e.retained i := fun k hk hki v hv =>
    (h.mem_retained hi).2 ⟨Finset.mem_of_mem_inter_left hv, k, List.mem_toFinset.1 hk, hki,
      Finset.mem_of_mem_inter_right hv⟩
  rcases eliminate?_cases he with ⟨hnone, -⟩ | ⟨target, hne, ⟨v, -, hv⟩, hall, -⟩
  · rw [← List.toFinset_card_of_nodup h.remaining_nodup] at hmore
    obtain ⟨j, hj, hji⟩ := Finset.exists_mem_ne hmore i
    refine ⟨List.mem_toFinset.2 hi, j, hj, hji, fun k hk hki v hv => ?_⟩
    have hout := hshared k hk hki v hv
    rw [hnone] at hout
    exact absurd hout List.not_mem_nil
  · exact ⟨List.mem_toFinset.2 hi, target, List.mem_toFinset.2 (h.mem_holdersOf.1 hv).1, hne,
      fun k hk hki w hw => (h.mem_holdersOf.1 (hall w (hshared k hk hki w hw))).2⟩

/-- Remaining cliques from which one can always be taken out. -/
structure Solvable (scopes : List (List String)) (e : Elimination) : Prop where
  /-- The books are right. -/
  books : Books scopes e
  /-- So are the numbers of holders. -/
  counted : Counted e
  /-- The remaining cliques can be reduced. -/
  reducible : Reducible (scopeSets scopes) e.remaining.toFinset
  /-- None of them lies inside another one. -/
  incomparable : Incomparable (scopeSets scopes) e.remaining.toFinset

namespace Solvable

/-- As long as several cliques remain there is one to take out. -/
theorem exists_step? (h : Solvable scopes e) (rank : String → ℕ) (hmore : 1 < e.remaining.length) :
    ∃ e', e.step? rank = some e' := by
  have hcard : 1 < e.remaining.toFinset.card := by
    rwa [List.toFinset_card_of_nodup h.books.remaining_nodup]
  obtain ⟨i, hear, hne⟩ := h.reducible.exists_ear h.incomparable hcard
  obtain ⟨v, hv, hown⟩ := hear.exists_own h.incomparable hne
  have hholders : e.holdersOf v = [i] := by
    refine List.perm_singleton.1 ((List.perm_ext_iff_of_nodup (h.books.nodup_holdersOf v)
      (List.nodup_singleton i)).2 fun k => ?_)
    rw [h.books.mem_holdersOf, List.mem_singleton]
    constructor
    · exact fun hk => hown k (List.mem_toFinset.2 hk.1) hk.2
    · exact fun hk => hk ▸ ⟨List.mem_toFinset.1 hear.1, hv⟩
  have hsingle : v ∈ e.singles rank := by
    rw [singles, mem_arrange, h.counted v 1 one_pos, hholders]
    rfl
  obtain ⟨e', he'⟩ := h.books.exists_eliminate? hear
  refine Option.isSome_iff_exists.1 (List.findSome?_isSome_iff.2 ⟨v, hsingle, ?_⟩)
  rw [hholders]
  simp [he']

/-- Taking a clique out leaves cliques from which one can always be taken out. -/
theorem eliminate? (h : Solvable scopes e) (hscopes : ∀ s ∈ scopes, s.Nodup)
    (hi : i ∈ e.remaining) (hmore : 1 < e.remaining.length) (he : e.eliminate? i = some e') :
    Solvable scopes e' := by
  have hear := h.books.isEar_of_eliminate? hi hmore he
  have hremaining : e'.remaining.toFinset = e.remaining.toFinset.erase i := by
    rw [remaining_of_eliminate? he, h.books.filter_remaining]
    ext k
    rw [List.mem_toFinset, h.books.remaining_nodup.mem_erase_iff, Finset.mem_erase,
      List.mem_toFinset]
  refine ⟨h.books.eliminate? hi he, h.counted.eliminate? h.books hscopes hi he, ?_, ?_⟩
  · rw [hremaining]
    exact h.reducible.erase hear
  · rw [hremaining]
    exact fun u hu w hw => h.incomparable u (Finset.mem_of_mem_erase hu) w
      (Finset.mem_of_mem_erase hw)

/-- All cliques but one can be taken out. -/
theorem exists_exhaust (h : Solvable scopes e) (hscopes : ∀ s ∈ scopes, s.Nodup) {n : ℕ}
    (hn : e.remaining.length = n + 1) : ∃ e', e.exhaust rank n = .ok e' := by
  induction n generalizing e with
  | zero => exact ⟨e, rfl⟩
  | succ n ih =>
    have hmore : 1 < e.remaining.length := by omega
    obtain ⟨next, hnext⟩ := h.exists_step? rank hmore
    obtain ⟨i, hi, hout⟩ := h.books.exists_of_step? hnext
    obtain ⟨-, hlength⟩ := h.books.step? hnext
    rw [Elimination.exhaust, hnext]
    exact ih (h.eliminate? hscopes hi hmore hout) (by omega)

end Solvable

/-- Cliques that can be reduced, none of which lies inside another one, can all be taken out. -/
theorem exists_run (rank : String → ℕ) (hscopes : ∀ s ∈ scopes, s.Nodup) (hne : scopes ≠ [])
    (sizes : List ℕ) (hred : Reducible (scopeSets scopes) (Finset.range scopes.length))
    (hinc : Incomparable (scopeSets scopes) (Finset.range scopes.length)) :
    ∃ done, (start scopes sizes).run rank = .ok done := by
  have hremaining : (start scopes sizes).remaining.toFinset = Finset.range scopes.length :=
    List.toFinset_range scopes.length
  have hpos := List.length_pos_iff.2 hne
  have hlength : (start scopes sizes).remaining.length = scopes.length - 1 + 1 := by
    rw [start, List.length_range]
    omega
  refine Solvable.exists_exhaust ⟨.start hscopes sizes, counted_start scopes sizes, ?_, ?_⟩ hscopes
    hlength
  · rwa [hremaining]
  · rwa [hremaining]

end Elimination

end ExactInference
