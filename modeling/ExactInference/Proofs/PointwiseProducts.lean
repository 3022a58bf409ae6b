import Mathlib.Data.List.Dedup
import ExactInference.Proofs.PointMasses
import ExactInference.Proofs.RepeatedObservations

/-!
# Products of factors

A product multiplies the weights of two factors at every joint state of their variables together.
It is refused if the factors count the states of a variable differently, or if the second factor
brings new variables and no array can have all axes. For factors that are arrays both reasons only
look at the set of all axes. So several factors have a product exactly if their axes are compatible,
and this neither depends on how the factors are grouped nor on their order. Grouping does not change
the product, and the order only changes the order of its axes.
-/

namespace ExactInference

namespace Scope

variable {s t u : Scope}

/-- A join has the axes of the first scope and then those of the second whose names are new. -/
theorem axes_join (s t : Scope) :
    (s.join t).axes = s.axes ++ t.axes.filter fun b => b.name ∉ s.names := by
  simp [join, has]

theorem eq_of_axes_eq (h : s.axes = t.axes) : s = t := by
  cases s
  cases t
  simp only at h
  subst h
  rfl

/-- Scopes can be joined in any grouping. -/
theorem join_assoc (s t u : Scope) : (s.join t).join u = s.join (t.join u) := by
  have hnames : ∀ b : Axis, decide (b.name ∉ (s.join t).names)
      = (decide (b.name ∉ s.names) && decide (b.name ∉ t.names)) := by
    intro b
    simp [mem_names_join]
  refine eq_of_axes_eq ?_
  simp only [axes_join, List.filter_append, List.filter_filter, List.append_assoc, hnames]

/-- A join has the axes of both scopes, if these agree. -/
theorem mem_axes_join (h : ¬ s.Conflicts t) {a : Axis} :
    a ∈ (s.join t).axes ↔ a ∈ s.axes ∨ a ∈ t.axes := by
  rw [axes_join, List.mem_append, List.mem_filter, decide_eq_true_eq]
  constructor
  · intro ha
    rcases ha with ha | ha
    · exact Or.inl ha
    · exact Or.inr ha.1
  · intro ha
    rcases ha with ha | ha
    · exact Or.inl ha
    · by_cases hn : a.name ∈ s.names
      · obtain ⟨b, hb, hname⟩ := List.mem_map.1 hn
        have hcard : b.card = a.card := by
          by_contra hcard
          exact h ⟨b, hb, a, ha, hname, hcard⟩
        rw [← Axis.eq_of_name_eq_of_card_eq hname hcard]
        exact Or.inl hb
      · exact Or.inr ⟨ha, hn⟩

/-- A scope that does not grow takes in no new name. -/
theorem length_join_eq_iff :
    (s.join t).axes.length = s.axes.length ↔ ∀ n ∈ t.names, n ∈ s.names := by
  rw [axes_join, List.length_append, Nat.add_eq_left, List.length_eq_zero_iff,
    List.filter_eq_nil_iff]
  simp [names]

/-- Whether a second scope brings new variables and no array can have all axes. -/
def Outgrows (s t : Scope) : Prop := (∃ n ∈ t.names, n ∉ s.names) ∧ ¬ FitsArray (s.join t).cards

end Scope

/-- A table is only refused for its size if it outgrows every array. -/
theorem Table.yields_checkGrowth_outgrows (s t : Scope) :
    Yields (fun fault => fault.isTableLimit = true ∧ s.Outgrows t) (fun _ => ¬ s.Outgrows t)
      (checkGrowth s t) := by
  by_cases hnew : (s.join t).axes.length = s.axes.length
  · have hown := Scope.length_join_eq_iff.1 hnew
    refine .of_eq_ok (if_pos hnew) fun h => ?_
    obtain ⟨⟨n, hn, hout⟩, -⟩ := h
    exact hout (hown n hn)
  · have hsome : ∃ n ∈ t.names, n ∉ s.names := by
      rw [Scope.length_join_eq_iff] at hnew
      push Not at hnew
      exact hnew
    exact (yields_checkGrowth hnew).imp (fun _ he => ⟨he.1, hsome, he.2⟩) fun _ hfit h => h.2 hfit

/-- Whether one array can have all axes of a list, each of them once: no variable has two numbers of
states, and the axes fit. -/
structure Compatible (axes : List Axis) : Prop where
  /-- No name stands on two of the axes. -/
  nodup : (axes.dedup.map Axis.name).Nodup
  /-- An array can have the axes. -/
  fits : FitsArray (axes.dedup.map Axis.card)

namespace Compatible

variable {axes more : List Axis}

/-- Some of several compatible axes are compatible. -/
theorem mono (h : Compatible more) (hsub : ∀ a ∈ axes, a ∈ more) : Compatible axes := by
  obtain ⟨own, hperm, hown⟩ : axes.dedup.Subperm more.dedup :=
    List.subperm_of_subset (List.nodup_dedup axes) fun a ha =>
      List.mem_dedup.2 (hsub a (List.mem_dedup.1 ha))
  constructor
  · exact (hperm.map Axis.name).nodup_iff.1 ((hown.map Axis.name).nodup h.nodup)
  · exact h.fits.of_subperm ⟨own.map Axis.card, hperm.map Axis.card, hown.map Axis.card⟩

/-- Axes are compatible no matter in which order they stand and how often. -/
theorem congr (hsame : ∀ a, a ∈ axes ↔ a ∈ more) : Compatible axes ↔ Compatible more := by
  constructor
  · intro h
    exact h.mono fun a ha => (hsame a).2 ha
  · intro h
    exact h.mono fun a ha => (hsame a).1 ha

end Compatible

/-- The axes of two scopes are compatible if the scopes agree and an array can have their join. -/
theorem Scope.compatible_iff {s t : Scope} :
    Compatible (s.axes ++ t.axes) ↔ ¬ s.Conflicts t ∧ FitsArray (s.join t).cards := by
  have hperm : ¬ s.Conflicts t → (s.axes ++ t.axes).dedup.Perm (s.join t).axes := by
    intro h
    refine (List.perm_ext_iff_of_nodup (List.nodup_dedup _)
      (List.Nodup.of_map Axis.name (s.join t).distinct)).2 fun a => ?_
    rw [List.mem_dedup, List.mem_append, mem_axes_join h]
  constructor
  · intro h
    have hagree : ¬ s.Conflicts t := by
      intro hconflict
      obtain ⟨a, ha, b, hb, hname, hcard⟩ := hconflict
      have hsame := axis_eq_of_name_eq h.nodup (List.mem_dedup.2 (List.mem_append_left _ ha))
        (List.mem_dedup.2 (List.mem_append_right _ hb)) hname
      exact hcard (congrArg Axis.card hsame)
    constructor
    · exact hagree
    · exact h.fits.of_subperm ((hperm hagree).map Axis.card).symm.subperm
  · intro h
    constructor
    · exact ((hperm h.1).map Axis.name).nodup_iff.2 (s.join t).distinct
    · exact h.2.of_subperm ((hperm h.1).map Axis.card).subperm

namespace Factor

variable {W L : Type} {f g h r s : Factor W L}

/-- Whether an array can hold the weights of a factor. -/
def IsArray (f : Factor W L) : Prop := FitsArray f.cards

instance : DecidablePred (IsArray (W := W) (L := L)) := fun f =>
  inferInstanceAs (Decidable (FitsArray f.cards))

/-- A factor is an array if its own axes are compatible. -/
theorem isArray_iff_compatible : f.IsArray ↔ Compatible f.scope.axes := by
  have hself : f.scope.axes.dedup = f.scope.axes :=
    List.dedup_eq_self.2 (List.Nodup.of_map Axis.name f.scope.distinct)
  constructor
  · intro h
    constructor
    · rw [hself]
      exact f.scope.distinct
    · rw [hself]
      exact h
  · intro h
    have hfits := h.fits
    rw [hself] at hfits
    exact hfits

/-- The axes of several factors. -/
def axesOfAll (fs : List (Factor W L)) : List Axis := fs.flatMap fun f => f.scope.axes

theorem mem_axesOfAll {fs : List (Factor W L)} {a : Axis} :
    a ∈ axesOfAll fs ↔ ∃ f ∈ fs, a ∈ f.scope.axes := List.mem_flatMap

variable [WeightScale W] [WeightScale L] [LogConversion W L]

/-- A factor has one weight for every joint state. -/
theorem length_toList_weights (f : Factor W L) : f.weights.toList.length = f.cards.prod := by
  rw [toList_weights, List.length_map, Scope.jointStates, length_completions, stateCount_eq_prod]
  rfl

/-- A product is given, unless the factors count the states of a variable differently or outgrow
every array. -/
theorem yields_joined (f g : Factor W L) :
    Yields (fun e => f.scope.NamesConflict g.scope e ∨
        e.isTableLimit = true ∧ f.scope.Outgrows g.scope)
      (fun r => (¬ f.scope.Conflicts g.scope ∧ ¬ f.scope.Outgrows g.scope) ∧
        r.scope = f.scope.join g.scope) (f.product g) := by
  cases hconflict : f.scope.conflict? g.scope with
  | some e =>
    exact .of_eq_error (product_eq_conflict hconflict)
      (Or.inl (Scope.namesConflict_of_conflict? hconflict))
  | none =>
    have hchecked := Table.yields_checkGrowth_outgrows f.scope g.scope
    cases hgrow : Table.checkGrowth f.scope g.scope with
    | error e =>
      exact .of_eq_error (product_eq_error hconflict hgrow)
        (Or.inr (hchecked.fault_of_eq_error hgrow))
    | ok _ =>
      obtain ⟨r, hr, hscope⟩ := exists_product_of_grows hconflict hgrow
      exact .of_eq_ok hr ⟨⟨Scope.conflict?_eq_none_iff.1 hconflict,
        hchecked.answer_of_eq_ok hgrow⟩, hscope⟩

/-- Two factors have a product if they agree and do not outgrow every array. -/
theorem exists_product_iff :
    (∃ r, f.product g = .ok r) ↔ ¬ f.scope.Conflicts g.scope ∧ ¬ f.scope.Outgrows g.scope := by
  have hyields := yields_joined f g
  cases hr : f.product g with
  | ok r =>
    have hfree := (hyields.answer_of_eq_ok hr).1
    simp [hfree]
  | error e =>
    have hreason := hyields.fault_of_eq_error hr
    constructor
    · intro hsome
      obtain ⟨r, hr'⟩ := hsome
      cases hr'
    · intro hfree
      rcases hreason with hconflict | hgrown
      · exact (hfree.1 hconflict.conflicts).elim
      · exact (hfree.2 hgrown.2).elim

/-- A product has the joined scope. -/
theorem scope_product (hr : f.product g = .ok r) : r.scope = f.scope.join g.scope :=
  ((yields_joined f g).answer_of_eq_ok hr).2

/-- A product has the axes of both factors. -/
theorem mem_axes_product (hr : f.product g = .ok r) {a : Axis} :
    a ∈ r.scope.axes ↔ a ∈ f.scope.axes ∨ a ∈ g.scope.axes := by
  rw [scope_product hr, Scope.mem_axes_join (exists_product_iff.1 ⟨r, hr⟩).1]

/-- Two factors, the first of which is an array, have a product if their axes are compatible. -/
theorem exists_product_iff_compatible (hf : f.IsArray) :
    (∃ r, f.product g = .ok r) ↔ Compatible (f.scope.axes ++ g.scope.axes) := by
  rw [exists_product_iff, Scope.compatible_iff]
  constructor
  · intro h
    constructor
    · exact h.1
    · -- A product without new variables is not checked, but it has the axes of an array.
      by_cases hown : ∀ n ∈ g.names, n ∈ f.names
      · rw [Scope.join_eq_left hown]
        exact hf
      · push Not at hown
        by_contra hfit
        exact h.2 ⟨hown, hfit⟩
  · intro h
    exact ⟨h.1, fun hgrown => hgrown.2 h.2⟩

/-- A product with an array is an array. -/
theorem IsArray.product (hf : f.IsArray) (hr : f.product g = .ok r) : r.IsArray := by
  have hcompatible := (exists_product_iff_compatible hf).1 ⟨r, hr⟩
  rw [IsArray, cards, scope_product hr]
  exact (Scope.compatible_iff.1 hcompatible).2

/-- A product stands for both factors in a list. -/
theorem mem_axesOfAll_product (hr : f.product g = .ok r) (gs : List (Factor W L)) (a : Axis) :
    a ∈ axesOfAll (r :: gs) ↔ a ∈ axesOfAll (f :: g :: gs) := by
  simp only [axesOfAll, List.flatMap_cons, List.mem_append, mem_axes_product hr, or_assoc]

theorem productAll_cons (f g : Factor W L) (gs : List (Factor W L)) :
    f.productAll (g :: gs) = f.product g >>= fun k => k.productAll gs := List.foldlM_cons

/-- Factors have a product one after the other if all their axes are compatible. -/
theorem exists_productAll_iff (hf : f.IsArray) (gs : List (Factor W L)) :
    (∃ r, f.productAll gs = .ok r) ↔ Compatible (axesOfAll (f :: gs)) := by
  induction gs generalizing f with
  | nil =>
    have hown := isArray_iff_compatible.1 hf
    constructor
    · intro _
      exact hown.mono fun a ha => by simpa [axesOfAll] using ha
    · intro _
      exact ⟨f, rfl⟩
  | cons g gs ih =>
    -- The product of the first two is an array over the same axes, so it can take their place.
    rw [productAll_cons]
    constructor
    · intro h
      obtain ⟨r, hr⟩ := h
      obtain ⟨k, hk, hr⟩ := bind_eq_ok_iff.1 hr
      exact (Compatible.congr (mem_axesOfAll_product hk gs)).1 ((ih (hf.product hk)).1 ⟨r, hr⟩)
    · intro h
      have hpair : Compatible (f.scope.axes ++ g.scope.axes) :=
        h.mono fun a ha => by
          rw [axesOfAll, List.flatMap_cons, List.flatMap_cons, ← List.append_assoc]
          exact List.mem_append_left _ ha
      obtain ⟨k, hk⟩ := (exists_product_iff_compatible hf).2 hpair
      have hrest := (Compatible.congr (mem_axesOfAll_product hk gs)).2 h
      obtain ⟨r, hr⟩ := (ih (hf.product hk)).2 hrest
      exact ⟨r, bind_eq_ok_iff.2 ⟨k, hk, hr⟩⟩

/-- Their product has all axes. -/
theorem mem_axes_productAll {gs : List (Factor W L)} (hr : f.productAll gs = .ok r) {a : Axis} :
    a ∈ r.scope.axes ↔ a ∈ axesOfAll (f :: gs) := by
  induction gs generalizing f with
  | nil =>
    cases hr
    simp [axesOfAll]
  | cons g gs ih =>
    rw [productAll_cons] at hr
    obtain ⟨k, hk, hr⟩ := bind_eq_ok_iff.1 hr
    rw [ih hr, mem_axesOfAll_product hk]

theorem productAll_singleton (f g : Factor W L) : f.productAll [g] = f.product g := by
  rw [productAll_cons]
  cases f.product g <;> rfl

/-- Three factors have a product, the later two multiplied first, if all axes are compatible. -/
theorem exists_product_product_iff (hf : f.IsArray) (hg : g.IsArray) (h : Factor W L) :
    (∃ r, (g.product h >>= fun k => f.product k) = .ok r) ↔ Compatible (axesOfAll [f, g, h]) := by
  have hall : ∀ {m : Factor W L}, g.product h = .ok m → ∀ a,
      a ∈ f.scope.axes ++ m.scope.axes ↔ a ∈ axesOfAll [f, g, h] := by
    intro m hm a
    simp [axesOfAll, mem_axes_product hm]
  constructor
  · intro hsome
    obtain ⟨r, hr⟩ := hsome
    obtain ⟨m, hm, hr⟩ := bind_eq_ok_iff.1 hr
    exact (Compatible.congr (hall hm)).1 ((exists_product_iff_compatible hf).1 ⟨r, hr⟩)
  · intro hcompatible
    have hpair : Compatible (g.scope.axes ++ h.scope.axes) :=
      hcompatible.mono fun a ha => by
        rw [axesOfAll, List.flatMap_cons]
        refine List.mem_append_right _ ?_
        simpa using ha
    obtain ⟨m, hm⟩ := (exists_product_iff_compatible hg).2 hpair
    obtain ⟨r, hr⟩ := (exists_product_iff_compatible hf).2
      ((Compatible.congr (hall hm)).2 hcompatible)
    exact ⟨r, bind_eq_ok_iff.2 ⟨m, hm, hr⟩⟩

variable [Semifield W]

/-- A factor that multiplies the weights of two others, over the variables of both. -/
structure IsProduct (f g r : Factor W L) : Prop where
  /-- It is stored as the first factor is. -/
  form_eq : r.form = f.form
  /-- It has the axes of the first factor and then the new ones of the second, in their order. -/
  axes_eq : r.scope.axes = f.scope.axes ++ g.scope.axes.filter fun b => b.name ∉ f.names
  /-- No variable stands on two axes. -/
  names_nodup : r.names.Nodup
  /-- It has as many weights as its numbers of states ask for. -/
  length_weights : r.weights.toList.length = r.cards.prod
  /-- Its joint states are those that both factors have as well. -/
  inRange_iff : ∀ x, InRange r.scope.axes x ↔ InRange f.scope.axes x ∧ InRange g.scope.axes x
  /-- Its weight at a joint state is the product of both weights. -/
  weightAt_eq : ∀ x, InRange r.scope.axes x → r.weightAt x = f.weightAt x * g.weightAt x

variable [LinearOrder W] [ExactScale W] [ExactLog W L]

/-- A product is pointwise. -/
theorem isProduct_of_product (hr : f.product g = .ok r) : f.IsProduct g r where
  form_eq := form_of_product hr
  axes_eq := by
    rw [scope_product hr, Scope.axes_join]
    rfl
  names_nodup := r.scope.distinct
  length_weights := length_toList_weights r
  inRange_iff x := by
    constructor
    · intro hx
      constructor
      · exact fun a ha => hx a ((mem_axes_product hr).2 (Or.inl ha))
      · exact fun a ha => hx a ((mem_axes_product hr).2 (Or.inr ha))
    · intro hx a ha
      rcases (mem_axes_product hr).1 ha with ha | ha
      · exact hx.1 a ha
      · exact hx.2 a ha
  weightAt_eq x hx := weightAt_product hr hx

omit [ExactScale W] in
/-- A factor is given by its form, its scope and its weights. -/
theorem eq_of_weightAt (hform : f.form = g.form) (hscope : f.scope = g.scope)
    (h : ∀ x, InRange f.scope.axes x → f.weightAt x = g.weightAt x) : f = g := by
  cases f with
  | plain t =>
    cases g with
    | plain u => exact congrArg plain (Table.eq_of_weightAt hscope h)
    | log u => cases hform
  | log t =>
    cases g with
    | plain u => cases hform
    | log u =>
      have hsame : t.scope = u.scope := hscope
      refine congrArg log (Table.eq_of_weightAt hsame fun x hx => ?_)
      have hxu : InRange u.scope.axes x := hsame ▸ hx
      have hweights := h x hx
      rw [weightAt, weightAt, weights, weights, Table.weightAt_map _ _ hx,
        Table.weightAt_map _ _ hxu] at hweights
      exact ExactLog.exp_injective hweights

/-- The product of several factors multiplies all weights. -/
theorem weightAt_of_productAll {gs : List (Factor W L)} (hr : f.productAll gs = .ok r)
    {x : JointState} (hx : InRange r.scope.axes x) :
    r.weightAt x = ((f :: gs).map (weightAt · x)).prod := by
  induction gs generalizing f with
  | nil =>
    cases hr
    simp
  | cons g gs ih =>
    rw [productAll_cons] at hr
    obtain ⟨k, hk, hr⟩ := bind_eq_ok_iff.1 hr
    have hxk : InRange k.scope.axes x := fun a ha =>
      hx a ((mem_axes_productAll hr).2 (mem_axesOfAll.2 ⟨k, List.mem_cons_self, ha⟩))
    calc r.weightAt x
        = k.weightAt x * (gs.map (weightAt · x)).prod := by
          rw [ih hr, List.map_cons, List.prod_cons]
      _ = f.weightAt x * g.weightAt x * (gs.map (weightAt · x)).prod := by
          rw [weightAt_product hk hxk]
      _ = ((f :: g :: gs).map (weightAt · x)).prod := by
          rw [List.map_cons, List.map_cons, List.prod_cons, List.prod_cons, mul_assoc]

/-- Two groupings of three factors that both have a product have the same one. -/
theorem eq_of_groupings (hr : (f.product g >>= fun k => k.product h) = .ok r)
    (hs : (g.product h >>= fun k => f.product k) = .ok s) : r = s := by
  obtain ⟨k, hk, hr⟩ := bind_eq_ok_iff.1 hr
  obtain ⟨m, hm, hs⟩ := bind_eq_ok_iff.1 hs
  have hscope : r.scope = s.scope := by
    rw [scope_product hr, scope_product hk, scope_product hs, scope_product hm, Scope.join_assoc]
  refine eq_of_weightAt ?_ hscope fun x hx => ?_
  · rw [form_of_product hr, form_of_product hk, form_of_product hs]
  · have hxk := (((isProduct_of_product hr).inRange_iff x).1 hx).1
    have hxs : InRange s.scope.axes x := hscope ▸ hx
    have hxm := (((isProduct_of_product hs).inRange_iff x).1 hxs).2
    calc r.weightAt x
        = f.weightAt x * g.weightAt x * h.weightAt x := by
          rw [weightAt_product hr hx, weightAt_product hk hxk]
      _ = f.weightAt x * (g.weightAt x * h.weightAt x) := mul_assoc _ _ _
      _ = s.weightAt x := by rw [weightAt_product hs hxs, weightAt_product hm hxm]

/-- Grouping does not change a product. -/
theorem product_product_eq_ok_iff (hf : f.IsArray) (hg : g.IsArray) :
    (f.product g >>= fun k => k.product h) = .ok r ↔
      (g.product h >>= fun k => f.product k) = .ok r := by
  have hleft : (∃ r, (f.product g >>= fun k => k.product h) = .ok r) ↔
      Compatible (axesOfAll [f, g, h]) := by
    rw [← exists_productAll_iff hf, productAll_cons]
    simp only [productAll_singleton]
  have hright := exists_product_product_iff hf hg h
  constructor
  · intro hr
    obtain ⟨s, hs⟩ := hright.2 (hleft.1 ⟨r, hr⟩)
    rw [eq_of_groupings hr hs]
    exact hs
  · intro hs
    obtain ⟨k, hk⟩ := hleft.2 (hright.1 ⟨r, hs⟩)
    rw [← eq_of_groupings hk hs]
    exact hk

end Factor

namespace Table

variable {α : Type} {t u : Table α} {ns : List String} {ws : List α}

theorem nodup_axesInOrder (hns : ns.Nodup) : ((t.axesInOrder ns).map Axis.name).Nodup := by
  rw [axesInOrder, List.map_filterMap]
  refine List.Nodup.filterMap (fun n m b hn hm => ?_) hns
  obtain ⟨a, ha, rfl⟩ := Option.map_eq_some_iff.1 hn
  obtain ⟨c, hc, hname⟩ := Option.map_eq_some_iff.1 hm
  exact (Scope.find?_name_eq_some_iff.1 ha).2.symm.trans
    (hname.symm.trans (Scope.find?_name_eq_some_iff.1 hc).2)

/-- The axes in the order of some names do not depend on their own order. -/
theorem axesInOrder_congr (hperm : t.scope.axes.Perm u.scope.axes) (ns : List String) :
    t.axesInOrder ns = u.axesInOrder ns := by
  refine List.filterMap_congr fun n _ => Option.ext fun a => ?_
  rw [Scope.find?_name_eq_some_iff, Scope.find?_name_eq_some_iff, hperm.mem_iff]

variable [WeightScale α]

theorem valuesFor_eq_ok_iff : t.valuesFor ns = .ok ws ↔ ns.Perm t.names ∧
    (completions (t.axesInOrder ns) JointState.origin).map t.weightAt = ws := by
  rw [valuesFor_eq]
  by_cases hperm : ns.Perm t.names
  · rw [if_pos (List.isPerm_iff.2 hperm)]
    simp [hperm]
  · rw [if_neg fun h => hperm (List.isPerm_iff.1 h)]
    simp [hperm]

/-- Tables with the same axes and numbers list the numbers alike. -/
theorem valuesFor_congr (hperm : t.scope.axes.Perm u.scope.axes)
    (hsame : ∀ x, InRange t.scope.axes x → t.weightAt x = u.weightAt x)
    (h : t.valuesFor ns = .ok ws) : u.valuesFor ns = .ok ws := by
  obtain ⟨hns, rfl⟩ := valuesFor_eq_ok_iff.1 h
  refine valuesFor_eq_ok_iff.2 ⟨hns.trans (hperm.map Axis.name), ?_⟩
  rw [← axesInOrder_congr hperm]
  refine List.map_congr_left fun x hx => (hsame x fun a ha => ?_).symm
  -- The requested order names every axis, so its joint states are in range of all of them.
  have hnodup : ns.Nodup := hns.nodup_iff.2 t.scope.distinct
  have hin := ((mem_completions (nodup_axesInOrder hnodup)).1 hx).2
  exact hin a (mem_axesInOrder.2 ⟨ha, hns.mem_iff.2 (List.mem_map_of_mem ha)⟩)

end Table

namespace Factor

variable {W L : Type} [WeightScale W] [WeightScale L] [LogConversion W L] {f g : Factor W L}

/-- Whether two factors only differ in the order of their axes: they have the same axes, and in
every order that is requested they give the same weights. -/
structure EqualUpToOrder (r s : Factor W L) : Prop where
  /-- The axes are the same. -/
  axes_perm : r.scope.axes.Perm s.scope.axes
  /-- The weights are the same in every requested order. -/
  valuesFor_iff : ∀ ns ws, r.valuesFor ns = .ok ws ↔ s.valuesFor ns = .ok ws

/-- Factors with the same axes and weights only differ in the order of their axes. -/
theorem equalUpToOrder_of_weightAt {r s : Factor W L} (hperm : r.scope.axes.Perm s.scope.axes)
    (hsame : ∀ x, InRange r.scope.axes x → r.weightAt x = s.weightAt x) : r.EqualUpToOrder s := by
  have hweights : r.weights.scope.axes.Perm s.weights.scope.axes := by
    rw [FactorGraph.scope_weights, FactorGraph.scope_weights]
    exact hperm
  have hboth : ∀ x, InRange s.scope.axes x ↔ InRange r.scope.axes x := fun x =>
    forall_congr' fun a => by rw [hperm.mem_iff]
  constructor
  · exact hperm
  · intro ns ws
    constructor
    · exact Table.valuesFor_congr hweights fun x hx => hsame x (FactorGraph.scope_weights r ▸ hx)
    · exact Table.valuesFor_congr hweights.symm fun x hx =>
        (hsame x ((hboth x).1 (FactorGraph.scope_weights s ▸ hx))).symm

/-- Whether of two computations both fail, or both give factors that only differ in the order of
their axes. -/
def SameUpToOrder (x y : Except Fault (Factor W L)) : Prop :=
  ((∃ r, x = .ok r) ↔ ∃ s, y = .ok s) ∧ ∀ r s, x = .ok r → y = .ok s → r.EqualUpToOrder s

variable [Semifield W] [LinearOrder W] [ExactScale W] [ExactLog W L]

/-- The order of several factors only matters for the order of the axes. -/
theorem sameUpToOrder_productAll {fs gs : List (Factor W L)} (hf : f.IsArray) (hg : g.IsArray)
    (hperm : (f :: fs).Perm (g :: gs)) : SameUpToOrder (f.productAll fs) (g.productAll gs) := by
  have hall : ∀ a, a ∈ axesOfAll (f :: fs) ↔ a ∈ axesOfAll (g :: gs) := fun a =>
    (hperm.flatMap_right _).mem_iff
  constructor
  · rw [exists_productAll_iff hf, exists_productAll_iff hg, Compatible.congr hall]
  · intro r s hr hs
    have hmem : ∀ a, a ∈ r.scope.axes ↔ a ∈ s.scope.axes := fun a => by
      rw [mem_axes_productAll hr, mem_axes_productAll hs, hall]
    have haxes : r.scope.axes.Perm s.scope.axes :=
      (List.perm_ext_iff_of_nodup (List.Nodup.of_map Axis.name r.scope.distinct)
        (List.Nodup.of_map Axis.name s.scope.distinct)).2 hmem
    refine equalUpToOrder_of_weightAt haxes fun x hx => ?_
    have hxs : InRange s.scope.axes x := fun a ha => hx a ((hmem a).2 ha)
    calc r.weightAt x
        = ((f :: fs).map (weightAt · x)).prod := weightAt_of_productAll hr hx
      _ = ((g :: gs).map (weightAt · x)).prod := (hperm.map _).prod_eq
      _ = s.weightAt x := (weightAt_of_productAll hs hxs).symm

/-- A product of two factors is refused for exactly two reasons, a disagreement about the states of
a shared variable and new variables that fit into no array, and otherwise it multiplies their
weights. Arrays can be multiplied in any grouping with the same product, and in any order with
products that only differ in the order of their axes. -/
theorem product_pointwise (f g : Factor W L) :
    ((∃ e, f.product g = .error e) ↔
      f.scope.Conflicts g.scope ∨ f.scope.Outgrows g.scope) ∧
    (∀ e, f.product g = .error e → f.scope.NamesConflict g.scope e ∨
      e.isTableLimit = true ∧ f.scope.Outgrows g.scope) ∧
    (∀ r, f.product g = .ok r → f.IsProduct g r) ∧
    (f.IsArray → g.IsArray →
      (∀ r, f.product g = .ok r → r.IsArray) ∧
      (∀ h r, (f.product g >>= fun k => k.product h) = .ok r ↔
        (g.product h >>= fun k => f.product k) = .ok r) ∧
      SameUpToOrder (f.product g) (g.product f) ∧
      ∀ fs gs, (f :: fs).Perm (g :: gs) →
        SameUpToOrder (f.productAll fs) (g.productAll gs)) := by
  have hyields := yields_joined f g
  refine ⟨?_, fun e he => hyields.fault_of_eq_error he, fun r hr => isProduct_of_product hr,
    fun hf hg => ⟨fun r hr => hf.product hr, fun h r => product_product_eq_ok_iff hf hg, ?_,
      fun fs gs hperm => sameUpToOrder_productAll hf hg hperm⟩⟩
  · constructor
    · intro hrefused
      obtain ⟨e, he⟩ := hrefused
      rcases hyields.fault_of_eq_error he with hconflict | hgrown
      · exact Or.inl hconflict.conflicts
      · exact Or.inr hgrown.2
    · intro hreason
      cases hr : f.product g with
      | error e => exact ⟨e, rfl⟩
      | ok r =>
        obtain ⟨hagree, hfits⟩ := exists_product_iff.1 ⟨r, hr⟩
        exact (hreason.elim hagree hfits).elim
  · rw [← productAll_singleton f g, ← productAll_singleton g f]
    exact sameUpToOrder_productAll hf hg (List.Perm.swap g f [])

open CliqueTree in
/-- Two factors with a common variable are multiplied, in both orders. -/
theorem product_pointwise_pairs :
    ∃ f g r s : Factor ℚ≥0 (FormalLog ℚ≥0),
      f = pairFactor "A" "B" 1 0 2 3 ∧ g = pairFactor "B" "C" 0 5 7 11 ∧ f.IsArray ∧ g.IsArray ∧
      f.product g = .ok r ∧ f.IsProduct g r ∧ r.names = ["A", "B", "C"] ∧
      g.product f = .ok s ∧ s.names = ["B", "C", "A"] ∧ r.EqualUpToOrder s ∧
      r.valuesFor ["A", "B", "C"] = .ok [0, 5, 0, 0, 0, 10, 21, 33] := by
  let f : Factor ℚ≥0 (FormalLog ℚ≥0) := pairFactor "A" "B" 1 0 2 3
  let g : Factor ℚ≥0 (FormalLog ℚ≥0) := pairFactor "B" "C" 0 5 7 11
  have hf : f.IsArray := by decide +kernel
  have hg : g.IsArray := by decide +kernel
  obtain ⟨r, hr, hrnames⟩ := exists_of_passes (x := f.product g)
    (fun r => decide (r.names = ["A", "B", "C"])) (by decide +kernel)
  obtain ⟨s, hs, hcheck⟩ := exists_of_passes (x := g.product f)
    (fun s => decide (s.names = ["B", "C", "A"]) &&
      passes (fun ws => decide (ws = [0, 5, 0, 0, 0, 10, 21, 33])) (s.valuesFor ["A", "B", "C"]))
    (by decide +kernel)
  rw [Bool.and_eq_true, decide_eq_true_eq] at hcheck
  obtain ⟨ws, hws, hlisted⟩ := exists_of_passes _ hcheck.2
  obtain ⟨-, -, hproduct, hlaws⟩ := product_pointwise f g
  obtain ⟨-, -, hcommutes, -⟩ := hlaws hf hg
  have hequal : r.EqualUpToOrder s := hcommutes.2 r s hr hs
  refine ⟨f, g, r, s, rfl, rfl, hf, hg, hr, hproduct r hr, of_decide_eq_true hrnames, hs, hcheck.1,
    hequal, (hequal.valuesFor_iff _ _).2 ?_⟩
  rw [hws, of_decide_eq_true hlisted]

/-- A factor over sixty-four variables that have one state each. -/
def wide : Except Fault (Factor ℚ≥0 (FormalLog ℚ≥0)) :=
  plain <$> Table.uniform ((List.range 64).map fun i => "V" ++ toString i) (List.replicate 64 1)

/-- It has no product with a factor over one variable more, though they share none. -/
theorem refused_wide :
    ∃ f g : Factor ℚ≥0 (FormalLog ℚ≥0), wide = .ok f ∧ g = uniformOver "W" 1 ∧ f.IsArray ∧
      g.IsArray ∧ f.form = g.form ∧ ¬ f.scope.Conflicts g.scope ∧
      f.product g = .error (.tooManyAxes 64 65) := by
  let g : Factor ℚ≥0 (FormalLog ℚ≥0) := uniformOver "W" 1
  obtain ⟨f, hf, hcheck⟩ := exists_of_passes (x := wide)
    (fun f => decide (f.IsArray ∧ g.IsArray ∧ f.form = g.form ∧ ¬ f.scope.Conflicts g.scope) &&
      failsWith (.tooManyAxes 64 65) (f.product g)) (by decide +kernel)
  rw [Bool.and_eq_true, decide_eq_true_eq] at hcheck
  obtain ⟨⟨hfits, hgfits, hform, hagree⟩, hrefused⟩ := hcheck
  exact ⟨f, g, hf, rfl, hfits, hgfits, hform, hagree, eq_error_of_failsWith hrefused⟩

end Factor

end ExactInference
