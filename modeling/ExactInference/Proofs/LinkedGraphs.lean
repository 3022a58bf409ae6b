import ExactInference.Proofs.NetworkCalls
import ExactInference.Proofs.Unions

/-!
# Graphs of numbered variables

The graphs of all families are made by the same calls: variables with numbered names, a prior on
the first of them, and a factor for every link. Such a graph is known by its names and by the scopes
of its factors. No call is refused, since a stem with different numbers gives different names.
-/

namespace ExactInference

/-- The name on a stem with a number. -/
def numbered (stem : String) (i : ℕ) : String := stem ++ toString i

/-- The stem of one of several chains. -/
def chainStem (k : ℕ) : String := "C" ++ toString k ++ "_"

theorem toString_nat_inj {i j : ℕ} (h : (toString i).toList = (toString j).toList) : i = j := by
  rw [Nat.toString_eq_repr, Nat.toString_eq_repr, Nat.toList_repr, Nat.toList_repr] at h
  rw [← Nat.ofDigitChars_ten_toDigits (n := i), h, Nat.ofDigitChars_ten_toDigits]

theorem numbered_injective (stem : String) : Function.Injective (numbered stem) := fun _ _ h =>
  toString_nat_inj (congrArg String.toList ((String.append_right_inj stem).1 h))

/-- The digits of a number end where another character comes. -/
theorem takeWhile_isDigit_toString (i : ℕ) {c : Char} (hc : c.isDigit = false) (rest : List Char) :
    ((toString i).toList ++ c :: rest).takeWhile Char.isDigit = (toString i).toList := by
  have hdigits : ∀ d ∈ (toString i).toList, d.isDigit = true := fun d hd => by
    rw [Nat.toString_eq_repr, Nat.toList_repr] at hd
    exact Nat.isDigit_of_mem_toDigits (by decide) le_rfl hd
  rw [List.takeWhile_append_of_pos hdigits, List.takeWhile_cons_of_neg (by rw [hc]; decide),
    List.append_nil]

/-- A name tells to which chain it belongs. -/
theorem eq_of_numbered_chainStem {k l i j : ℕ}
    (h : numbered (chainStem k) i = numbered (chainStem l) j) : k = l := by
  have hread : ∀ k i, (numbered (chainStem k) i).toList
      = 'C' :: ((toString k).toList ++ '_' :: (toString i).toList) := fun k i => by
    rw [numbered, chainStem, String.toList_append, String.toList_append, String.toList_append,
      List.append_assoc, List.append_assoc]
    rfl
  have hlists := congrArg String.toList h
  rw [hread, hread, List.cons_inj_right] at hlists
  have hdigits := congrArg (List.takeWhile Char.isDigit) hlists
  rw [takeWhile_isDigit_toString k rfl, takeWhile_isDigit_toString l rfl] at hdigits
  exact toString_nat_inj hdigits

theorem Yields.exists_ok {ε α : Type} {answer : α → Prop} {x : Except ε α}
    (h : Yields (fun _ => False) answer x) : ∃ a, x = .ok a ∧ answer a := by
  cases x with
  | ok a => exact ⟨a, rfl, h⟩
  | error e => exact absurd h not_false

variable {W L : Type}

/-- Enough numbers for some variables make a table. -/
theorem yields_ofData {names : List String} (hnodup : names.Nodup) (hfew : names.length ≤ maxAxes)
    {n : ℕ} {data : List W} (hdata : data.length = n ^ names.length) :
    Yields (fun _ => False) (fun t : Table W => t.scope.axes = names.map fun v => ⟨v, n⟩)
      (Table.ofData .plain names (names.map fun _ => (n : Int)) (names.map fun _ => n) data) := by
  obtain ⟨scope, hscope, haxes⟩ := Scope.ofNames?_eq_ok hnodup fun _ => n
  have hshape : (names.map fun _ => n).map Int.ofNat = names.map fun _ => (n : Int) := by
    rw [List.map_map]
    rfl
  have hsize : data.toArray.size = scope.size := by
    rw [List.size_toArray, hdata, Scope.size, haxes, stateCount_eq_prod, List.map_map]
    exact (List.prod_replicate names.length n).symm.trans (congrArg List.prod List.map_const'.symm)
  rw [Table.ofData, if_neg (by rw [List.length_map]; exact not_lt.2 hfew),
    if_neg (not_not.2 (List.length_map _).symm), if_neg (not_not.2 hnodup),
    if_neg (not_not.2 hshape), hscope]
  exact .of_eq_ok (dif_pos hsize) haxes

namespace TableSource

theorem yields_prior (source : TableSource W) (table : ℕ) (v : String) (n : ℕ) :
    Yields (fun _ => False) (fun f : Factor W L => f.scope.axes = [v].map fun v => ⟨v, n⟩)
      (source.prior table v n) :=
  (yields_ofData (List.nodup_singleton v) (by change 1 ≤ maxAxes; decide)
    (by simp)).bind fun t ht => .of_eq_ok rfl ht

theorem yields_pairwise (source : TableSource W) (table : ℕ) {v w : String} (hvw : v ≠ w) (n : ℕ) :
    Yields (fun _ => False) (fun f : Factor W L => f.scope.axes = [v, w].map fun v => ⟨v, n⟩)
      (source.pairwise table v w n) :=
  (yields_ofData (by simpa using hvw) (by change 2 ≤ maxAxes; decide)
    (by simp [pow_two])).bind fun t ht => .of_eq_ok rfl ht

end TableSource

namespace FactorGraph

variable [WeightScale W] [WeightScale L] {g : FactorGraph W L} {n : ℕ} {names vs : List String}
  {scopes : List (List String)}

/-- A graph over variables with `n` states each, without observations and hints, and with factors
over given scopes. -/
structure IsLaidOut (g : FactorGraph W L) (n : ℕ) (names : List String)
    (scopes : List (List String)) : Prop where
  /-- The graph was made by the calls that a caller has. -/
  reachable : Reachable g
  /-- There is no hint. -/
  hint_eq : g.hint = none
  /-- All variables have the same number of states. -/
  freeAxes_eq : g.freeAxes = names.map fun v => ⟨v, n⟩
  /-- The factors are listed with their names. -/
  names_eq : g.factors.map Factor.names = scopes

theorem IsLaidOut.freeNames_eq (h : IsLaidOut g n names scopes) : g.freeNames = names := by
  rw [← map_name_freeAxes, h.freeAxes_eq, List.map_map]
  exact List.map_id _

/-- One more factor comes last. -/
theorem IsLaidOut.yields_addFactor (h : IsLaidOut g n names scopes) (hvs : vs ⊆ names)
    {f : Factor W L} (hf : f.scope.axes = vs.map fun v => ⟨v, n⟩) :
    Yields (fun _ => False) (fun g' => IsLaidOut g' n names (scopes ++ [vs])) (g.addFactor f) := by
  have hwithin : f.scope.Within g.freeAxes := fun a ha => by
    rw [hf] at ha
    obtain ⟨v, hv, rfl⟩ := List.mem_map.1 ha
    exact h.freeAxes_eq ▸ List.mem_map_of_mem (hvs hv)
  have hadd := addFactor_eq_ok hwithin
  have hnames : f.names = vs := by
    rw [Factor.names, Scope.names, hf, List.map_map]
    exact List.map_id vs
  refine .of_eq_ok hadd ⟨h.reachable.addFactor hadd, h.hint_eq, h.freeAxes_eq, ?_⟩
  rw [List.map_append, h.names_eq, List.map_singleton, hnames]

/-- Different variables are declared. -/
theorem yields_ofVariables (hnodup : names.Nodup) (hn : 0 < n) :
    Yields (fun _ => False) (fun g : FactorGraph W L => IsLaidOut g n names [])
      (ofVariables names n) := by
  have hkeys : ((names.map fun v => (v, numberedLabels n)).map Prod.fst).Nodup := by
    rw [List.map_map]
    exact (List.map_id names).symm ▸ hnodup
  have hlength : (numberedLabels n).length = n := by
    rw [numberedLabels, List.length_map, List.length_range]
  have hlabels : ∀ e ∈ names.map fun v => (v, numberedLabels n), e.2 ≠ [] := fun e he => by
    obtain ⟨v, -, rfl⟩ := List.mem_map.1 he
    exact List.ne_nil_of_length_pos (hn.trans_eq hlength.symm)
  have hdeclared : ofVariables names n
      = .ok (assembled (names.map fun v => (v, numberedLabels n)) [] : FactorGraph W L) := by
    rw [ofVariables]
    have h := declare_eq_ok (W := W) (L := L) [] [] hkeys hlabels
    rw [List.foldlM_map] at h
    exact h
  refine .of_eq_ok hdeclared ⟨reachable_assembled hkeys hlabels (by simp), rfl, ?_, rfl⟩
  rw [freeAxes_assembled hkeys, List.map_map]
  exact List.map_congr_left fun v _ => congrArg (Axis.mk v) hlength

/-- The scopes of a prior and of the factors for some links. -/
def linkScopes (x : ℕ → String) (links : List (ℕ × ℕ)) : List (List String) :=
  [x 0] :: links.map fun e => [x e.1, x e.2]

theorem linkScopes_concat (x : ℕ → String) (links : List (ℕ × ℕ)) (i j : ℕ) :
    linkScopes x (links ++ [(i, j)]) = linkScopes x links ++ [[x i, x j]] := by
  rw [linkScopes, linkScopes, List.map_append]
  rfl

variable {count : ℕ} {links : List (ℕ × ℕ)}

theorem nodup_numberedNames (stem : String) (count : ℕ) : (numberedNames stem count).Nodup :=
  List.nodup_range.map (numbered_injective stem)

theorem numbered_mem (stem : String) {i : ℕ} (hi : i < count) :
    numbered stem i ∈ numberedNames stem count :=
  List.mem_map.2 ⟨i, List.mem_range.2 hi, rfl⟩

/-- A factor for one more link is added. -/
theorem IsLaidOut.yields_link {stem : String}
    (h : IsLaidOut g n (numberedNames stem count) scopes) (source : TableSource W) (table : ℕ)
    {i j : ℕ} (hi : i < count) (hj : j < count) (hij : i ≠ j) :
    Yields (fun _ => False) (fun g' => IsLaidOut g' n (numberedNames stem count)
        (scopes ++ [[numbered stem i, numbered stem j]]))
      (source.pairwise table (numbered stem i) (numbered stem j) n >>= g.addFactor) := by
  refine (source.yields_pairwise table ((numbered_injective stem).ne hij) n).bind fun f hf =>
    h.yields_addFactor (fun v hv => ?_) hf
  rcases List.mem_pair.1 hv with rfl | rfl
  · exact numbered_mem stem hi
  · exact numbered_mem stem hj

/-- The graph of a prior and of links between different variables is always made. -/
theorem yields_linked (source : TableSource W) (stem : String) (hcount : 0 < count) (hn : 0 < n)
    (hlinks : ∀ e ∈ links, e.1 < count ∧ e.2 < count ∧ e.1 ≠ e.2) :
    Yields (fun _ => False)
      (fun g : FactorGraph W L => IsLaidOut g n (numberedNames stem count)
        (linkScopes (numbered stem) links))
      (linked source stem count n links) := by
  refine (yields_ofVariables (nodup_numberedNames stem count) hn).bind fun g hg => ?_
  rw [if_neg hcount.ne']
  refine (source.yields_prior 0 (numbered stem 0) n).bind fun f hf => ?_
  refine (hg.yields_addFactor (fun v hv => ?_) hf).bind fun g hg => ?_
  · exact List.mem_singleton.1 hv ▸ numbered_mem stem hcount
  · have hscopes : linkScopes (numbered stem) links
        = linkScopes (numbered stem) (links.zipIdx.map Prod.fst) := by rw [List.zipIdx_map_fst]
    rw [hscopes]
    refine Yields.foldlM_done (P := fun done (g : FactorGraph W L) => IsLaidOut g n
      (numberedNames stem count) (linkScopes (numbered stem) (done.map Prod.fst)))
      (fun done e rest hes g hg => ?_) hg
    have he : e ∈ links.zipIdx := hes ▸ List.mem_append_right done List.mem_cons_self
    obtain ⟨hi, hj, hij⟩ := hlinks e.1 (List.fst_mem_of_mem_zipIdx he)
    rw [List.map_append, List.map_singleton, linkScopes_concat]
    exact hg.yields_link source (e.2 + 1) hi hj hij

end FactorGraph

end ExactInference
