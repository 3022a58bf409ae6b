import Mathlib.Data.List.TakeWhile
import ExactInference.Proofs.FactorValues
import ExactInference.Proofs.Sequencing

/-!
# Point masses and products with new variables

A point mass is a table that is one at one joint state and zero at all others. Together with a
factor over other variables it makes a table over the variables of both. A table can be made if it
has not too many axes and its bytes can be counted, and everything else is refused for just this
reason.
-/

namespace ExactInference

theorem fitsWord_natCast_iff {n : ℕ} : fitsWord (n : Int) = true ↔ (n : Int) < signedLimit := by
  have hlow : -signedLimit ≤ (n : Int) := by
    have : (0 : Int) < signedLimit := by decide
    omega
  simp only [fitsWord, Bool.and_eq_true, decide_eq_true_eq, hlow, true_and]

/-- Numbers of states that a table can have are few and fit a word. -/
theorem of_checkCards {cards : List Int} (h : checkCards cards = .ok ()) :
    cards.length ≤ maxAxes ∧ ∀ c ∈ cards, fitsWord c = true := by
  obtain ⟨⟨⟩, haxes, h⟩ := bind_eq_ok_iff.1 h
  constructor
  · exact of_checkAxes haxes
  · split at h
    next hall => exact List.all_eq_true.1 hall
    next => cases h

/-- Natural numbers below the sizes stand for themselves. -/
theorem indicesOn_natCast {axis : ℕ} {states sizes : List ℕ}
    (h : List.Forall₂ (· < ·) states sizes) :
    indicesOn axis sizes (states.map Nat.cast) = .ok states := by
  induction h generalizing axis with
  | nil => rfl
  | @cons state size states sizes hlt _ ih =>
    have hfirst : indexOn axis size (state : Int) = .ok state := by
      rw [indexOn, placeOf?_natCast hlt]
    rw [List.map_cons, indicesOn, hfirst]
    change (indicesOn (axis + 1) sizes (states.map Nat.cast) >>= _) = _
    rw [ih]
    rfl

/-- A key of states is resolved if the table is not too large for it. -/
theorem resolveKey_natCast {states sizes : List ℕ} (h : List.Forall₂ (· < ·) states sizes)
    (hfit : checkCards (sizes.map Nat.cast) = .ok ()) :
    resolveKey sizes (states.map Nat.cast) = .ok states := by
  obtain ⟨hlength, hwords⟩ := of_checkCards hfit
  rw [List.length_map] at hlength
  have hindices : (states.map (Nat.cast : ℕ → Int)).forM checkIndex = .ok () := by
    refine forM_eq_ok_iff.2 fun i hi => ?_
    obtain ⟨s, hs, rfl⟩ := List.mem_map.1 hi
    obtain ⟨n, hn, hsn⟩ := exists_of_forall₂_left h hs
    have hlimit := fitsWord_natCast_iff.1 (hwords n (List.mem_map_of_mem hn))
    rw [checkIndex, if_pos (fitsWord_natCast_iff.2 (by omega))]
  have hkey : ¬ 2 * maxAxes < (states.map (Nat.cast : ℕ → Int)).length := by
    rw [List.length_map, h.length_eq]
    omega
  have hcount : ¬ (states.map (Nat.cast : ℕ → Int)).length > sizes.length := by
    rw [List.length_map, h.length_eq]
    omega
  simp only [resolveKey, if_neg hkey, hindices, if_neg hcount, bind, Except.bind]
  exact indicesOn_natCast h

/-- Different names make a scope with any numbers of states. -/
theorem Scope.ofNames?_eq_ok {names : List String} (hd : names.Nodup) (card : String → ℕ) :
    ∃ s, Scope.ofNames? names (names.map card) = .ok s ∧
      s.axes = names.map fun n => ⟨n, card n⟩ := by
  have haxes : ((names.zip (names.map card)).map fun e => Axis.mk e.1 e.2)
      = names.map fun n => ⟨n, card n⟩ := by
    rw [← List.map_prod_left_eq_zip, List.map_map]
    rfl
  have hnames :
      (((names.zip (names.map card)).map fun e => Axis.mk e.1 e.2).map Axis.name).Nodup := by
    rw [haxes, List.map_map]
    simpa [Function.comp_def] using hd
  refine ⟨⟨_, hnames⟩, ?_, haxes⟩
  rw [ofNames?, if_pos (List.length_map card).symm]
  exact dif_pos hnames

/-- Why a table cannot be made: it would have too many axes or too many entries. -/
def Fault.isTableLimit : Fault → Bool
  | .tooManyAxes _ _ | .dimensionTooLarge | .walkTooLarge | .tableTooLarge => true
  | _ => false

/-- Whether a table can have these numbers of states: there are not too many axes, and the bytes of
all entries can be counted. -/
def FitsTable (cards : List ℕ) : Prop :=
  cards.length ≤ maxAxes ∧ 8 * (cards.prod : Int) < signedLimit

namespace FitsTable

variable {cards more : List ℕ}

theorem perm (h : FitsTable cards) (hperm : more.Perm cards) : FitsTable more :=
  ⟨hperm.length_eq ▸ h.1, hperm.prod_eq ▸ h.2⟩

/-- The number of states on an axis fits a word. -/
theorem fitsWord_of_mem (h : FitsTable cards) (hpos : ∀ c ∈ cards, 0 < c) {c : ℕ} (hc : c ∈ cards) :
    fitsWord (c : Int) = true := by
  have hle : c ≤ cards.prod := Nat.le_of_dvd (List.prod_pos hpos) (List.dvd_prod hc)
  have hlimit := h.2
  exact fitsWord_natCast_iff.2 (by omega)

end FitsTable

/-- Whether an array can have these numbers of states. Its bytes are counted without the axes that
have no states, so an array without entries can be too large as well. -/
def FitsArray (cards : List ℕ) : Prop :=
  cards.length ≤ maxAxes ∧ 8 * ((cards.filter (· ≠ 0)).prod : Int) < signedLimit

instance : DecidablePred FitsArray := fun cards =>
  inferInstanceAs (Decidable (cards.length ≤ maxAxes ∧
    8 * ((cards.filter (· ≠ 0)).prod : Int) < signedLimit))

/-- The axes that have states have joint states. -/
theorem prod_filter_ne_zero_pos (cards : List ℕ) : 0 < (cards.filter (· ≠ 0)).prod :=
  List.prod_pos fun _ hc => Nat.pos_of_ne_zero (of_decide_eq_true (List.mem_filter.1 hc).2)

/-- If every axis has a state, an array is as large as its table. -/
theorem fitsArray_iff_fitsTable {cards : List ℕ} (hpos : ∀ c ∈ cards, 0 < c) :
    FitsArray cards ↔ FitsTable cards := by
  have hall : cards.filter (· ≠ 0) = cards :=
    List.filter_eq_self.2 fun c hc => decide_eq_true (hpos c hc).ne'
  rw [FitsArray, hall, FitsTable]

/-- Fewer axes fit into an array as well, in any order. -/
theorem FitsArray.of_subperm {cards more : List ℕ} (h : FitsArray more)
    (hsub : cards.Subperm more) : FitsArray cards := by
  obtain ⟨own, hperm, hown⟩ := hsub.filter (· ≠ 0)
  have hle : (cards.filter (· ≠ 0)).prod ≤ (more.filter (· ≠ 0)).prod := by
    rw [← hperm.prod_eq]
    exact Nat.le_of_dvd (prod_filter_ne_zero_pos more) hown.prod_dvd_prod
  have hlimit := h.2
  constructor
  · exact hsub.length_le.trans h.1
  · omega

/-- Fewer axes fit as well, as long as every axis has a state. -/
theorem FitsTable.of_sublist {cards more : List ℕ} (h : FitsTable more)
    (hsub : cards.Sublist more) (hpos : ∀ c ∈ more, 0 < c) : FitsTable cards := by
  have hfits : FitsArray cards := ((fitsArray_iff_fitsTable hpos).2 h).of_subperm hsub.subperm
  exact (fitsArray_iff_fitsTable fun c hc => hpos c (hsub.subset hc)).1 hfits

/-- The bytes of an array are counted axis by axis. -/
theorem checkBytes_natCast (cards : List ℕ) (bytes : ℕ) (hbytes : (bytes : Int) < signedLimit) :
    checkBytes bytes (cards.map Nat.cast)
      = if (bytes : Int) * (cards.filter (· ≠ 0)).prod < signedLimit then .ok ()
        else .error .tableTooLarge := by
  induction cards generalizing bytes with
  | nil => simp [checkBytes, hbytes]
  | cons c rest ih =>
    rw [List.map_cons, checkBytes]
    by_cases hc : c = 0
    · rw [if_pos (by omega), ih bytes hbytes, List.filter_cons_of_neg (by simp [hc])]
    · have hzero : ¬ (c : Int) = 0 := by omega
      have hlow : ¬ (c : Int) < 0 := by omega
      rw [if_neg hzero, if_neg hlow, List.filter_cons_of_pos (by simp [hc]), List.prod_cons]
      by_cases hmany : signedLimit ≤ (bytes : Int) * c
      · have hmore : ((bytes * c : ℕ) : Int) ≤ (bytes * c * (rest.filter (· ≠ 0)).prod : ℕ) :=
          Int.ofNat_le.2 (Nat.le_mul_of_pos_right _ (prod_filter_ne_zero_pos rest))
        have hlimit : ¬ (bytes : Int) * (c * (rest.filter (· ≠ 0)).prod : ℕ) < signedLimit := by
          push_cast at hmore ⊢
          rw [← mul_assoc]
          omega
        rw [if_pos hmany, if_neg hlimit]
      · have hnext := ih (bytes * c) (by push_cast; omega)
        push_cast at hnext ⊢
        rw [if_neg hmany, hnext, mul_assoc]

/-- Numbers of states are refused if no table can have them. -/
theorem yields_checkCards {cards : List ℕ} (hpos : ∀ c ∈ cards, 0 < c) :
    Yields (fun fault => fault.isTableLimit = true ∧ ¬ FitsTable cards) (fun _ => FitsTable cards)
      (checkCards (cards.map Nat.cast)) := by
  rw [checkCards, checkAxes, List.length_map]
  by_cases haxes : cards.length ≤ maxAxes
  · rw [if_pos haxes]
    change Yields _ _ (if _ then _ else _)
    by_cases hwords : (cards.map (Nat.cast : ℕ → Int)).all fitsWord = true
    · have hcount := checkBytes_natCast cards 8 (by decide)
      rw [if_pos hwords, ← fitsArray_iff_fitsTable hpos]
      by_cases hfit : ((8 : ℕ) : Int) * (cards.filter (· ≠ 0)).prod < signedLimit
      · rw [if_pos hfit] at hcount
        exact .of_eq_ok hcount ⟨haxes, hfit⟩
      · rw [if_neg hfit] at hcount
        exact .of_eq_error hcount ⟨rfl, fun h => hfit h.2⟩
    · rw [if_neg hwords]
      refine ⟨rfl, fun h => hwords (List.all_eq_true.2 fun c hc => ?_)⟩
      obtain ⟨k, hk, rfl⟩ := List.mem_map.1 hc
      exact h.fitsWord_of_mem hpos hk
  · rw [if_neg haxes]
    exact ⟨rfl, fun h => haxes h.1⟩

/-- The walk along the axes that come before one without states is not longer than the array. -/
theorem prod_takeWhile_le (cards : List ℕ) :
    (cards.takeWhile (· ≠ 0)).foldl Nat.mul 1 ≤ (cards.filter (· ≠ 0)).prod := by
  have hwalk : (cards.takeWhile (· ≠ 0)).filter (· ≠ 0) = cards.takeWhile (· ≠ 0) :=
    List.filter_eq_self.2 fun c hc => by simpa using List.mem_takeWhile_imp hc
  have hsub : (cards.takeWhile (· ≠ 0)).Sublist (cards.filter (· ≠ 0)) :=
    hwalk ▸ (List.takeWhile_prefix _).sublist.filter _
  calc (cards.takeWhile (· ≠ 0)).foldl Nat.mul 1
      = (cards.takeWhile (· ≠ 0)).prod := by rw [List.prod_eq_foldl]; rfl
    _ ≤ (cards.filter (· ≠ 0)).prod :=
        Nat.le_of_dvd (prod_filter_ne_zero_pos cards) hsub.prod_dvd_prod

/-- A product with new variables is refused if no array can have all axes. -/
theorem Table.yields_checkGrowth {s u : Scope} (hnew : (s.join u).axes.length ≠ s.axes.length) :
    Yields (fun fault => fault.isTableLimit = true ∧ ¬ FitsArray (s.join u).cards)
      (fun _ => FitsArray (s.join u).cards) (checkGrowth s u) := by
  have hlength : (s.join u).cards.length = (s.join u).axes.length := List.length_map _
  have hwalk := prod_takeWhile_le (s.join u).cards
  rw [checkGrowth]
  simp only [if_neg hnew]
  by_cases haxes : (s.join u).axes.length ≤ maxAxes
  · rw [if_neg (not_lt.2 haxes)]
    have hcount := checkBytes_natCast (s.join u).cards 8 (by decide)
    by_cases hfit : ((8 : ℕ) : Int) * ((s.join u).cards.filter (· ≠ 0)).prod < signedLimit
    · rw [if_pos hfit] at hcount
      rw [if_neg (by omega)]
      exact .of_eq_ok hcount ⟨hlength ▸ haxes, hfit⟩
    · have hnot : ¬ FitsArray (s.join u).cards := fun h => hfit h.2
      rw [if_neg hfit] at hcount
      split
      · exact ⟨rfl, hnot⟩
      · exact .of_eq_error hcount ⟨rfl, hnot⟩
  · rw [if_pos (not_le.1 haxes)]
    exact ⟨rfl, fun h => haxes (hlength ▸ h.1)⟩

variable {W L : Type}

/-- An assignment that covers some names gives their states. -/
theorem Table.keyFor_eq_ok {names : List String} {state : String → ℕ} {a : OrderedMap String Int}
    (ha : ∀ n ∈ names, a.get? n = some (state n : Int)) :
    Table.keyFor names a = .ok (names.map fun n => (state n : Int)) := by
  have hmissing : (names.filter fun n => !a.contains n) = [] := by
    refine List.filter_eq_nil_iff.2 fun n hn => ?_
    simp [OrderedMap.contains, ha n hn]
  have hvalues : names.filterMap a.get? = names.map fun n => (state n : Int) := by
    rw [List.filterMap_congr ha]
    exact congrFun List.filterMap_eq_map names
  rw [keyFor, hmissing, hvalues]
  exact (mapM_eq_ok (f := StateValue.toInt) (g := id) fun _ _ => rfl).trans (by rw [List.map_id])

variable [Semifield W] [LinearOrder W] [WeightScale W] [ExactScale W]

/-- The table of a point mass has the weight one at one joint state and zero at all others. -/
theorem Table.indicator_spec {names : List String} (hd : names.Nodup) (card state : String → ℕ)
    (hlt : ∀ n ∈ names, state n < card n)
    (hfit : checkCards (names.map fun n => (card n : Int)) = .ok ()) {a : OrderedMap String Int}
    (ha : ∀ n ∈ names, a.get? n = some (state n : Int)) :
    ∃ t : Table W, Table.indicator names (names.map fun n => (card n : Int)) a = .ok t ∧
      (t.scope.axes = names.map fun n => ⟨n, card n⟩) ∧
      ∀ x, InRange t.scope.axes x →
        t.weightAt x = if ∀ n ∈ names, x n = state n then 1 else 0 := by
  obtain ⟨s, hs, haxes⟩ := Scope.ofNames?_eq_ok hd card
  have hnames : s.names = names := by
    rw [Scope.names, haxes, List.map_map]
    exact List.map_id names
  have hcards : (names.map fun n => (card n : Int)).map Int.toNat = names.map card := by
    rw [List.map_map]
    exact List.map_congr_left fun n _ => Int.toNat_natCast _
  have hresolve : resolveKey (names.map card) (names.map fun n => (state n : Int))
      = .ok (names.map state) := by
    have hstates : List.Forall₂ (· < ·) (names.map state) (names.map card) :=
      List.forall₂_map_left_iff.2 (List.forall₂_map_right_iff.2 (List.forall₂_same.2 hlt))
    have hmapped := resolveKey_natCast hstates (by rwa [List.map_map])
    rwa [List.map_map] at hmapped
  refine ⟨ofFn s fun x => if s.names.map x = names.map state then WeightScale.one
    else WeightScale.zero, ?_, haxes, fun x hx => ?_⟩
  · simp only [indicator, hfit, keyFor_eq_ok ha, hcards, hresolve, hs, bind, Except.bind]
  · rw [weightAt_ofFn (s := s) hx fun y hy => by simp only [List.map_congr_left hy], hnames]
    simp only [List.map_inj_left, ExactScale.one_eq, ExactScale.zero_eq]

/-- A scope takes in all axes of another one that has no name of its own. -/
theorem Scope.axes_join_of_nodup {s t : Scope} (hd : ((s.axes ++ t.axes).map Axis.name).Nodup) :
    (s.join t).axes = s.axes ++ t.axes := by
  rw [List.map_append, List.nodup_append] at hd
  have hnew : (t.axes.filter fun b => !s.has b.name) = t.axes :=
    List.filter_eq_self.2 fun b hb => by
      have hother := fun hs => hd.2.2 b.name hs b.name (List.mem_map_of_mem hb) rfl
      simpa [has, names] using hother
  calc (s.join t).axes = s.axes ++ t.axes.filter fun b => !s.has b.name := rfl
    _ = s.axes ++ t.axes := by rw [hnew]

variable [WeightScale L] [LogConversion W L] [ExactLog W L]

/-- A product with new variables is given, unless no table can have all joint states. -/
theorem Factor.yields_product {f k : Factor W L}
    (hd : ((f.scope.axes ++ k.scope.axes).map Axis.name).Nodup)
    (hsome : k.scope.axes ≠ []) (hpos : ∀ a ∈ f.scope.axes ++ k.scope.axes, 0 < a.card) :
    Yields (fun fault => fault.isTableLimit = true ∧
        ¬ FitsTable ((f.scope.axes ++ k.scope.axes).map Axis.card))
      (fun h => FitsTable ((f.scope.axes ++ k.scope.axes).map Axis.card) ∧
        h.scope.axes = f.scope.axes ++ k.scope.axes ∧
        ∀ x, InRange h.scope.axes x → h.weightAt x = f.weightAt x * k.weightAt x)
      (f.product k) := by
  have hjoin : (f.scope.join k.scope).axes = f.scope.axes ++ k.scope.axes :=
    Scope.axes_join_of_nodup hd
  have hcards : (f.scope.join k.scope).cards = (f.scope.axes ++ k.scope.axes).map Axis.card :=
    congrArg (List.map Axis.card) hjoin
  have hconflict : f.scope.conflict? k.scope = none :=
    Scope.conflict?_eq_none hd (fun _ ha => List.mem_append_left _ ha)
      fun _ ha => List.mem_append_right _ ha
  have hfits : FitsArray ((f.scope.axes ++ k.scope.axes).map Axis.card) ↔
      FitsTable ((f.scope.axes ++ k.scope.axes).map Axis.card) :=
    fitsArray_iff_fitsTable (List.forall_mem_map.2 hpos)
  have hchecked := Table.yields_checkGrowth (s := f.scope) (u := k.scope) (by simp [hjoin, hsome])
  rw [hcards, hfits] at hchecked
  cases hgrow : Table.checkGrowth f.scope k.scope with
  | error fault =>
    exact .of_eq_error (product_eq_error hconflict hgrow) (hchecked.fault_of_eq_error hgrow)
  | ok _ =>
    obtain ⟨h, hh, hscope⟩ := exists_product_of_grows hconflict hgrow
    exact .of_eq_ok hh ⟨hchecked.answer_of_eq_ok hgrow, hscope ▸ hjoin, fun x hx =>
      weightAt_product hh hx⟩

end ExactInference
