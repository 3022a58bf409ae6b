import ExactInference.Proofs.DistributiveLaw
import ExactInference.Proofs.SplitObservations

/-!
# Restricting before or after other operations

An assignment restricts a factor if the states that it gives to variables of the factor are states
of theirs; other variables may be assigned anything. What is left has the weights of the factor at
the joint states with the assigned states put in. Putting states in commutes with everything that
is computed from weights at joint states, so factors can be restricted before or after they are
multiplied, and before or after other variables are eliminated. As for elimination, the only
difference is one of size: variables that are restricted later need room in the product.
-/

namespace ExactInference

open Passing

section Assigned

variable {σ : Type} [StateValue σ] {a : OrderedMap String σ} {axes more : List Axis}
  {x : JointState} {n : String}

/-- Whether the states that an assignment gives to variables on some axes are states of theirs. -/
def InStates (axes : List Axis) (a : OrderedMap String σ) : Prop :=
  ∀ v ∈ axes, ∀ value, a.get? v.name = some value →
    ∃ i : ℕ, StateValue.toInt value = .ok (i : Int) ∧ i < v.card

namespace InStates

theorem mono (h : InStates more a) (hsub : ∀ v ∈ axes, v ∈ more) : InStates axes a :=
  fun v hv => h v (hsub v hv)

/-- An assigned value is read as the state that is put in. -/
theorem get?_eq (h : InStates axes a) {v : Axis} (hv : v ∈ axes) (x : JointState) :
    ((a.get? v.name).map StateValue.toInt = some (.ok (x.assign a v.name : Int)) ∧
      x.assign a v.name < v.card) ∨ a.get? v.name = none := by
  cases hvalue : a.get? v.name with
  | none => exact Or.inr rfl
  | some value =>
    obtain ⟨i, hi, hlt⟩ := h v hv value hvalue
    have hput : x.assign a v.name = i := by
      rw [JointState.assign, hvalue, Option.map_some, hi]
      rfl
    rw [hput, Option.map_some, hi]
    exact Or.inl ⟨rfl, hlt⟩

/-- Putting states in stays in range. -/
theorem inRange_assign (h : InStates axes a)
    (hx : ∀ v ∈ axes, a.contains v.name = false → x v.name < v.card) :
    InRange axes (x.assign a) := by
  intro v hv
  rcases h.get?_eq hv x with hread | hnone
  · exact hread.2
  · have hout : a.contains v.name = false := by rw [OrderedMap.contains, hnone]; rfl
    have hkept : x.assign a v.name = x v.name := by
      rw [JointState.assign, hnone]
      rfl
    rw [hkept]
    exact hx v hv hout

/-- A joint state of the variables that are not assigned becomes one of all variables. -/
theorem inRange_assign_of_keep {s : Scope} (h : InStates s.axes a)
    (hx : InRange (s.keep fun n => !a.contains n).axes x) : InRange s.axes (x.assign a) := by
  refine h.inRange_assign fun v hv hout => hx v (List.mem_filter.2 ⟨hv, ?_⟩)
  simpa using hout

/-- Some variable without states is left if there is one. -/
theorem size_keep_eq_zero_iff {s : Scope} (h : InStates s.axes a) :
    (s.keep fun n => !a.contains n).size = 0 ↔ s.size = 0 := by
  have hzero : ∀ {t : Scope} {v : Axis}, v ∈ t.axes → v.card = 0 → t.size = 0 := by
    intro t v hv hcard
    rw [Scope.size, stateCount_eq_prod]
    exact List.prod_eq_zero (hcard ▸ List.mem_map_of_mem hv)
  constructor
  · intro hsize
    obtain ⟨v, hv, hcard⟩ := Scope.exists_card_eq_zero hsize
    exact hzero (List.mem_filter.1 hv).1 hcard
  · intro hsize
    obtain ⟨v, hv, hcard⟩ := Scope.exists_card_eq_zero hsize
    refine hzero (List.mem_filter.2 ⟨hv, ?_⟩) hcard
    -- An assigned variable has the state that it is assigned.
    rcases h.get?_eq hv JointState.origin with hread | hnone
    · omega
    · simp [OrderedMap.contains, hnone]

/-- The assigned states are observed. -/
theorem observedOn (h : InStates axes a) (x : JointState) :
    Table.observedOn a axes = .ok ((x.assign a).restrict
      ((axes.map Axis.name).filter fun n => a.contains n)) := by
  refine Table.observedOn_of_assigned (fun v hv hin => ?_) fun v hv => ?_
  · rcases h.get?_eq hv x with hread | hnone
    · exact hread.2
    · rw [OrderedMap.contains, hnone] at hin
      cases hin
  · exact (h.get?_eq hv x).imp And.left id

/-- What can be observed are states of the variables. -/
theorem of_observedOn {observed : List (String × ℕ)}
    (h : Table.observedOn a axes = .ok observed) : InStates axes a := by
  induction axes generalizing observed with
  | nil =>
    intro v hv
    cases hv
  | cons b rest ih =>
    rw [Table.observedOn] at h
    intro v hv value hvalue
    cases hb : a.get? b.name with
    | none =>
      rw [hb] at h
      rcases List.mem_cons.1 hv with rfl | hv
      · cases hb.symm.trans hvalue
      · exact ih h v hv value hvalue
    | some first =>
      rw [hb] at h
      obtain ⟨state, hstate, h⟩ := bind_eq_ok_iff.1 h
      split at h
      next hin =>
        obtain ⟨observed', hrest, -⟩ := bind_eq_ok_iff.1 h
        rcases List.mem_cons.1 hv with rfl | hv
        · cases hb.symm.trans hvalue
          obtain ⟨i, rfl⟩ := Int.eq_ofNat_of_zero_le hin.1
          exact ⟨i, hstate, Int.ofNat_lt.1 hin.2⟩
        · exact ih hrest v hv value hvalue
      next => cases h

end InStates

namespace JointState

/-- Putting assigned states in and changing the state of another variable commute. -/
theorem set_assign (x : JointState) (hn : a.contains n = false) (i : ℕ) :
    (x.set n i).assign a = (x.assign a).set n i := by
  have hnone : a.get? n = none := by simpa [OrderedMap.contains] using hn
  funext m
  by_cases hm : m = n
  · subst hm
    rw [set_self, assign, hnone]
    exact set_self x m i
  · rw [set_of_ne _ hm, assign, assign, set_of_ne _ hm]

end JointState

/-- States can be put in before or after a value is collected over the states of other variables. -/
theorem Mode.along_assign {W : Type} [Semifield W] [LinearOrder W] [IsStrictOrderedRing W]
    [CanonicallyOrderedAdd W] (mode : Mode) (F : JointState → W)
    (hout : ∀ v ∈ axes, a.contains v.name = false) (x : JointState) :
    mode.along axes (fun y => F (y.assign a)) x = mode.along axes F (x.assign a) := by
  induction axes generalizing x with
  | nil => rw [along_nil, along_nil]
  | cons v rest ih =>
    have hrest := ih fun w hw => hout w (List.mem_cons_of_mem v hw)
    simp only [along_cons, hrest, JointState.set_assign x (hout v List.mem_cons_self)]

/-- A table is restricted to states that its variables have. -/
theorem Table.exists_restricted {α : Type} [WeightScale α] {t : Table α}
    (h : InStates t.scope.axes a) :
    ∃ u, t.conditional a = .ok u ∧ u.scope = t.scope.keep (fun n => !a.contains n) ∧
      ∀ x, InRange u.scope.axes x → u.weightAt x = t.weightAt (x.assign a) := by
  have hu := conditional_eq_ok (h.observedOn JointState.origin)
  refine ⟨_, hu, rfl, fun x hx => ?_⟩
  rw [weightAt_conditional hu (h.observedOn x) hx]
  refine t.weightAt_congr fun n hn => ?_
  rw [JointState.observe_restrict]
  by_cases hin : a.contains n = true
  · exact if_pos (List.mem_filter.2 ⟨hn, hin⟩)
  · have hkept : x.assign a n = x n := x.assign_of_notMem fun hmem =>
      hin ((OrderedMap.contains_iff_mem_keys a n).2 hmem)
    rw [if_neg fun hmem => hin (List.mem_filter.1 hmem).2, hkept]

/-- The variables that remain of a factor are given states that they have. -/
theorem InStates.reduced {W L : Type} [WeightScale W] [WeightScale L] [LogConversion W L]
    {f : Factor W L} (h : InStates f.scope.axes a) (mode : Mode) (ns : List String) :
    InStates (f.reduced mode ns).scope.axes a := by
  rw [Factor.scope_reduced]
  exact h.mono fun v hv => (List.mem_filter.1 hv).1

namespace Factor

variable {W L : Type} [WeightScale W] [WeightScale L] [LogConversion W L] {f g k m r : Factor W L}
  {ns : List String}

/-- What is left of a factor when assigned states are put in. -/
structure IsRestriction (f : Factor W L) (a : OrderedMap String σ) (k : Factor W L) : Prop where
  /-- It is stored as the factor is. -/
  form_eq : k.form = f.form
  /-- It keeps the variables that are not assigned, in their order. -/
  scope_eq : k.scope = f.scope.keep fun n => !a.contains n
  /-- Its weights are those of the factor with the assigned states put in. -/
  weightAt_eq : ∀ x, InRange k.scope.axes x → k.weightAt x = f.weightAt (x.assign a)

omit [StateValue σ] [LogConversion W L] in
theorem form_observing (f : Factor W L) (a : OrderedMap String σ)
    (observed : List (String × ℕ)) : (f.observing a observed).form = f.form := by
  cases f <;> rfl

/-- A joint state of a restriction is one of the factor, with the assigned states put in. -/
theorem IsRestriction.inRange_assign (hk : f.IsRestriction a k) (h : InStates f.scope.axes a)
    (hx : InRange k.scope.axes x) : InRange f.scope.axes (x.assign a) :=
  h.inRange_assign_of_keep (hk.scope_eq ▸ hx)

/-- The axes of variables that are not assigned stay in a restriction. -/
theorem IsRestriction.axesOf_eq (hk : f.IsRestriction a k)
    (hns : ∀ n ∈ ns, a.contains n = false) : k.axesOf ns = f.axesOf ns := by
  rw [axesOf, hk.scope_eq]
  change (f.scope.axes.filter _).filter _ = _
  rw [List.filter_filter]
  refine List.filter_congr fun v _ => ?_
  by_cases hv : v.name ∈ ns
  · simp [hv, hns v.name hv]
  · simp [hv]

/-- A restriction gives no other reason. -/
theorem IsRestriction.refusal?_eq (hk : f.IsRestriction a k) (h : InStates f.scope.axes a)
    (mode : Mode) (hns : ∀ n ∈ ns, a.contains n = false) :
    k.refusal? mode ns = f.refusal? mode ns := by
  have hsize : k.scope.size = 0 ↔ f.scope.size = 0 := by
    rw [hk.scope_eq]
    exact h.size_keep_eq_zero_iff
  unfold refusal?
  simp only [hk.form_eq, hk.axesOf_eq hns, hsize]

variable [Semifield W] [LinearOrder W] [ExactLog W L]

/-- A restriction is determined. -/
theorem IsRestriction.unique (hk : f.IsRestriction a k) (hm : f.IsRestriction a m) : k = m := by
  have hscope : k.scope = m.scope := hk.scope_eq.trans hm.scope_eq.symm
  refine eq_of_weightAt (hk.form_eq.trans hm.form_eq.symm) hscope fun x hx => ?_
  rw [hk.weightAt_eq x hx, hm.weightAt_eq x (hscope ▸ hx)]

variable [ExactScale W]

/-- Factors are restricted to states that their variables have. -/
theorem exists_restriction (h : InStates f.scope.axes a) :
    ∃ k, f.conditional a = .ok k ∧ f.IsRestriction a k := by
  obtain ⟨observed, hobserved⟩ : ∃ observed, Table.observedOn a f.scope.axes = .ok observed :=
    ⟨_, h.observedOn JointState.origin⟩
  have hown : InStates f.weights.scope.axes a := by
    rw [FactorGraph.scope_weights]
    exact h
  obtain ⟨u, hu, -, hspec⟩ := Table.exists_restricted hown
  cases (weights_conditional_eq_ok hobserved).symm.trans hu
  exact ⟨f.observing a observed, conditional_eq_ok hobserved, form_observing f a observed,
    scope_observing f a observed, fun x hx => hspec x (inRange_weights hx)⟩

/-- A restriction is what an assignment leaves of a factor. -/
theorem IsRestriction.conditional_eq (hk : f.IsRestriction a k) (h : InStates f.scope.axes a) :
    f.conditional a = .ok k := by
  obtain ⟨m, hm, hspec⟩ := exists_restriction h
  rw [hm, hspec.unique hk]

/-- The restriction of a product is the product of the restrictions. -/
theorem exists_product_of_restrictions (hf : InStates f.scope.axes a)
    (hg : InStates g.scope.axes a) (hk : f.IsRestriction a k) (hm : g.IsRestriction a m)
    (hr : f.product g = .ok r) : ∃ s, k.product m = .ok s ∧ r.IsRestriction a s := by
  obtain ⟨hagree, hfits⟩ := exists_product_iff.1 ⟨r, hr⟩
  obtain ⟨s, hs⟩ : ∃ s, k.product m = .ok s := by
    rw [exists_product_iff, hk.scope_eq, hm.scope_eq]
    exact ⟨fun h => hagree h.of_keep, fun h => hfits h.of_keep⟩
  have hpointwise := isProduct_of_product hr
  have hrestricted := isProduct_of_product hs
  refine ⟨s, hs, ?_, ?_, fun x hx => ?_⟩
  · rw [hrestricted.form_eq, hk.form_eq, hpointwise.form_eq]
  · rw [scope_product hs, hk.scope_eq, hm.scope_eq, scope_product hr, Scope.keep_join]
  · obtain ⟨hxk, hxm⟩ := (hrestricted.inRange_iff x).1 hx
    have hboth : InRange r.scope.axes (x.assign a) :=
      (hpointwise.inRange_iff _).2 ⟨hk.inRange_assign hf hxk, hm.inRange_assign hg hxm⟩
    calc s.weightAt x
        = k.weightAt x * m.weightAt x := hrestricted.weightAt_eq x hx
      _ = f.weightAt (x.assign a) * g.weightAt (x.assign a) := by
          rw [hk.weightAt_eq x hxk, hm.weightAt_eq x hxm]
      _ = r.weightAt (x.assign a) := (hpointwise.weightAt_eq _ hboth).symm

variable [IsStrictOrderedRing W] [CanonicallyOrderedAdd W]

/-- Eliminating other variables in a restriction restricts what remains when they are eliminated. -/
theorem IsRestriction.reduced (hk : f.IsRestriction a k) (h : InStates f.scope.axes a)
    (mode : Mode) (hns : ∀ n ∈ ns, a.contains n = false) :
    (f.reduced mode ns).IsRestriction a (k.reduced mode ns) := by
  have hscope : (k.reduced mode ns).scope
      = (f.reduced mode ns).scope.keep fun n => !a.contains n := by
    rw [scope_reduced, scope_reduced, hk.scope_eq, Scope.keep_keep, Scope.keep_keep]
    congr 1
    funext n
    exact Bool.and_comm _ _
  constructor
  · rw [form_reduced, form_reduced, hk.form_eq]
  · exact hscope
  · intro x hx
    have hinner : ∀ y ∈ completions (k.axesOf ns) x,
        k.weightAt y = f.weightAt (y.assign a) := by
      intro y hy
      rw [scope_reduced] at hx
      exact hk.weightAt_eq y (Scope.inRange_of_mem_completions hx hy)
    have hout : ∀ v ∈ f.axesOf ns, a.contains v.name = false := by
      intro v hv
      exact hns v.name (List.contains_iff_mem.1 (List.mem_filter.1 hv).2)
    have hput : InRange (f.reduced mode ns).scope.axes (x.assign a) :=
      (h.reduced mode ns).inRange_assign_of_keep (hscope ▸ hx)
    calc (k.reduced mode ns).weightAt x
        = mode.along (k.axesOf ns) k.weightAt x := weightAt_reduced_along mode k ns hx
      _ = mode.along (k.axesOf ns) (fun y => f.weightAt (y.assign a)) x :=
          Mode.along_congr mode hinner
      _ = mode.along (f.axesOf ns) f.weightAt (x.assign a) := by
          rw [hk.axesOf_eq hns, Mode.along_assign mode f.weightAt hout]
      _ = (f.reduced mode ns).weightAt (x.assign a) :=
          (weightAt_reduced_along mode f ns hput).symm

/-- Factors are restricted before or after other variables are eliminated. -/
theorem eliminate_conditional (mode : Mode) (h : InStates f.scope.axes a)
    (hns : ∀ n ∈ ns, n ∈ f.names ∧ n ∉ a.keys) :
    (eliminate mode f ns >>= fun r => r.conditional a)
      = (f.conditional a >>= fun k => eliminate mode k ns) := by
  obtain ⟨k, hcond, hk⟩ := exists_restriction h
  have hfree : ∀ n ∈ ns, a.contains n = false := by
    intro n hn
    rw [Bool.eq_false_iff, Ne, OrderedMap.contains_iff_mem_keys]
    exact (hns n hn).2
  have hown : ∀ n ∈ ns, n ∈ k.names := fun n hn => (mem_names_conditional hcond).2 (hns n hn)
  rw [hcond, eliminate_eq mode f fun n hn => (hns n hn).1]
  change _ = eliminate mode k ns
  rw [eliminate_eq mode k hown, hk.refusal?_eq h mode hfree]
  cases f.refusal? mode ns with
  | some e => rfl
  | none => exact (hk.reduced h mode hfree).conditional_eq (h.reduced mode ns)

/-- Restricting commutes with the other operations on factors that count states alike. Two factors
can be restricted before or after they are multiplied, unless they outgrow every array, in which
case they have no product; and in both modes a factor can be restricted before or after variables
that are not assigned are eliminated. -/
theorem restrict_before_or_after (hf : InStates f.scope.axes a) (hg : InStates g.scope.axes a)
    (hagree : ¬ f.scope.Conflicts g.scope) :
    (f.scope.Outgrows g.scope → ∃ e, f.product g = .error e) ∧
    (¬ f.scope.Outgrows g.scope → ∃ s, (f.product g >>= fun r => r.conditional a) = .ok s ∧
      (f.conditional a >>= fun k => g.conditional a >>= fun m => k.product m) = .ok s) ∧
    ∀ (mode : Mode) (ns : List String), (∀ n ∈ ns, n ∈ f.names ∧ n ∉ a.keys) →
      (eliminate mode f ns >>= fun r => r.conditional a)
          = (f.conditional a >>= fun k => eliminate mode k ns) ∧
        (f.scope.HasStates → ∃ s, (eliminate mode f ns >>= fun r => r.conditional a) = .ok s) := by
  refine ⟨product_of_outgrows, ?_, ?_⟩
  · intro hfits
    obtain ⟨r, hr⟩ := exists_product_iff.2 ⟨hagree, hfits⟩
    obtain ⟨k, hk, hkspec⟩ := exists_restriction hf
    obtain ⟨m, hm, hmspec⟩ := exists_restriction hg
    obtain ⟨s, hs, hspec⟩ := exists_product_of_restrictions hf hg hkspec hmspec hr
    have hboth : InStates r.scope.axes a := by
      intro v hv
      exact ((mem_axes_product hr).1 hv).elim (hf v) (hg v)
    refine ⟨s, ?_, ?_⟩
    · rw [hr]
      exact hspec.conditional_eq hboth
    · rw [hk, hm]
      exact hs
  · intro mode ns hns
    constructor
    · exact eliminate_conditional mode hf hns
    · intro hstates
      obtain ⟨s, hs, -⟩ := exists_restriction (hf.reduced mode ns)
      refine ⟨s, ?_⟩
      rw [eliminate_eq_reduced mode hstates fun n hn => (hns n hn).1]
      exact hs

end Factor

end Assigned

namespace Factor

open CliqueTree in
/-- The common variable of two factors is put into its second state, and so is a variable that
neither has. -/
theorem restrict_before_or_after_pairs :
    ∃ f g s t : Factor ℚ≥0 (FormalLog ℚ≥0), ∃ a : OrderedMap String Int,
      f = pairFactor "A" "B" 1 0 2 3 ∧ g = pairFactor "B" "C" 0 5 7 11 ∧
      a = OrderedMap.ofList [("B", 1), ("D", 9)] ∧ InStates f.scope.axes a ∧
      InStates g.scope.axes a ∧ ¬ f.scope.Conflicts g.scope ∧
      (f.product g >>= fun r => r.conditional a) = .ok s ∧
      (f.conditional a >>= fun k => g.conditional a >>= fun m => k.product m) = .ok s ∧
      s.valuesFor ["A", "C"] = .ok [0, 0, 21, 33] ∧
      (eliminate .max f ["A"] >>= fun r => r.conditional a) = .ok t ∧
      (f.conditional a >>= fun k => eliminate .max k ["A"]) = .ok t ∧
      t.valuesFor [] = .ok [3] := by
  let f : Factor ℚ≥0 (FormalLog ℚ≥0) := pairFactor "A" "B" 1 0 2 3
  let g : Factor ℚ≥0 (FormalLog ℚ≥0) := pairFactor "B" "C" 0 5 7 11
  let a : OrderedMap String Int := OrderedMap.ofList [("B", 1), ("D", 9)]
  obtain ⟨observed, hobserved⟩ : ∃ observed, Table.observedOn a f.scope.axes = .ok observed :=
    exists_of_toBool (by decide +kernel)
  obtain ⟨seen, hseen⟩ : ∃ seen, Table.observedOn a g.scope.axes = .ok seen :=
    exists_of_toBool (by decide +kernel)
  have hf := InStates.of_observedOn hobserved
  have hg := InStates.of_observedOn hseen
  have hagree : ¬ f.scope.Conflicts g.scope := by decide +kernel
  have hfits : ¬ f.scope.Outgrows g.scope := by
    intro h
    exact h.2 (by decide +kernel)
  obtain ⟨-, hproduct, helim⟩ := restrict_before_or_after hf hg hagree
  obtain ⟨s, hs, hfactors⟩ := hproduct hfits
  obtain ⟨hboth, -⟩ := helim .max ["A"] (by decide +kernel)
  obtain ⟨t, ht, hvalue⟩ := exists_of_passes
    (x := f.conditional a >>= fun k => eliminate .max k ["A"])
    (fun t => passes (fun ws => decide (ws = [3])) (t.valuesFor [])) (by decide +kernel)
  obtain ⟨ws, hws, hlisted⟩ := exists_of_passes _ hvalue
  refine ⟨f, g, s, t, a, rfl, rfl, rfl, hf, hg, hagree, hs, hfactors, ?_, hboth.trans ht, ht, ?_⟩
  · have hvalues : (f.product g >>= fun r => r.conditional a >>= fun s =>
        s.valuesFor ["A", "C"]) = .ok [0, 0, 21, 33] := by decide +kernel
    rw [← bind_assoc, hs] at hvalues
    exact hvalues
  · rw [hws, of_decide_eq_true hlisted]

/-- A factor over sixty-four variables cannot be multiplied with a factor over one variable more,
but it can be multiplied with what is left of that factor when its variable is put into a state. -/
theorem refused_before_restriction :
    ∃ f g k m r : Factor ℚ≥0 (FormalLog ℚ≥0), ∃ a : OrderedMap String Int,
      wide = .ok f ∧ g = uniformOver "W" 1 ∧ a = OrderedMap.ofList [("W", 0)] ∧
      InStates f.scope.axes a ∧ InStates g.scope.axes a ∧ ¬ f.scope.Conflicts g.scope ∧
      f.conditional a = .ok k ∧ g.conditional a = .ok m ∧ k.product m = .ok r ∧
      f.product g = .error (.tooManyAxes 64 65) := by
  let g : Factor ℚ≥0 (FormalLog ℚ≥0) := uniformOver "W" 1
  let a : OrderedMap String Int := OrderedMap.ofList [("W", 0)]
  obtain ⟨f, hf, hcheck⟩ := exists_of_passes (x := wide)
    (fun f => decide (¬ f.scope.Conflicts g.scope) &&
      failsWith (.tooManyAxes 64 65) (f.product g) &&
      passes (fun k => passes (fun m => (k.product m).toBool) (g.conditional a)) (f.conditional a))
    (by decide +kernel)
  rw [Bool.and_eq_true, Bool.and_eq_true, decide_eq_true_eq] at hcheck
  obtain ⟨⟨hagree, hrefused⟩, hrestricted⟩ := hcheck
  obtain ⟨k, hk, hrestricted⟩ := exists_of_passes _ hrestricted
  obtain ⟨m, hm, hmultiplied⟩ := exists_of_passes _ hrestricted
  obtain ⟨r, hr⟩ := exists_of_toBool hmultiplied
  obtain ⟨observed, hobserved⟩ := observedOn_of_conditional hk
  obtain ⟨seen, hseen⟩ := observedOn_of_conditional hm
  exact ⟨f, g, k, m, r, a, hf, rfl, rfl, .of_observedOn hobserved, .of_observedOn hseen, hagree, hk,
    hm, hr, eq_error_of_failsWith hrefused⟩

end Factor

end ExactInference
