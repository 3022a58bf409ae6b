import ExactInference.Proofs.Collect
import ExactInference.Proofs.Sequencing
import ExactInference.Proofs.WeightTables

/-!
# What the operations on factors do to the weights

A factor is seen through the weight that it gives to a joint state, no matter whether it stores
weights or logarithms. All factors of a graph take their axes from one list without repeated names,
whose variables have at least one state each. For such factors every operation that inference uses
succeeds, and its result is described by its scope and by its weight at every joint state in range.
-/

namespace ExactInference

theorem Axis.eq_of_name_eq_of_card_eq {a b : Axis} (hname : a.name = b.name)
    (hcard : a.card = b.card) : a = b := by
  cases a
  cases b
  simp only at hname hcard
  rw [hname, hcard]

/-- All axes of a scope stand in a list. -/
def Scope.Within (s : Scope) (axes : List Axis) : Prop := ∀ a ∈ s.axes, a ∈ axes

namespace Scope

variable {axes : List Axis} {s t : Scope}

theorem Within.inRange (h : s.Within axes) {x : JointState} (hx : InRange axes x) :
    InRange s.axes x := fun a ha => hx a (h a ha)

theorem Within.keep (h : s.Within axes) (p : String → Bool) : (s.keep p).Within axes :=
  fun a ha => h a (List.mem_filter.1 ha).1

theorem Within.mem_names (h : s.Within axes) {n : String} (hn : n ∈ s.names) :
    n ∈ axes.map Axis.name := by
  obtain ⟨a, ha, rfl⟩ := List.mem_map.1 hn
  exact List.mem_map_of_mem (h a ha)

/-- A scope has the axis of a list that its name stands for. -/
theorem Within.mem_of_name (hs : s.Within axes) (hd : (axes.map Axis.name).Nodup) {a : Axis}
    (ha : a ∈ axes) (hn : a.name ∈ s.names) : a ∈ s.axes := by
  obtain ⟨b, hb, hba⟩ := List.mem_map.1 hn
  exact axis_eq_of_name_eq hd (hs b hb) ha hba ▸ hb

/-- Axes from one list are, up to their order, the axes of their names. -/
theorem perm_axesIn (hd : (axes.map Axis.name).Nodup) {own : List Axis}
    (hown : (own.map Axis.name).Nodup) (hin : ∀ a ∈ own, a ∈ axes) {vars : Finset String}
    (hvars : ∀ n, n ∈ vars ↔ n ∈ own.map Axis.name) : own.Perm (axesIn axes vars) := by
  refine (List.perm_ext_iff_of_nodup (List.Nodup.of_map Axis.name hown)
    (List.Nodup.of_map Axis.name (nodup_axesIn hd vars))).2 fun a => ?_
  rw [mem_axesIn, hvars]
  constructor
  · exact fun ha => ⟨hin a ha, List.mem_map_of_mem ha⟩
  · rintro ⟨ha, hn⟩
    obtain ⟨b, hb, hba⟩ := List.mem_map.1 hn
    exact axis_eq_of_name_eq hd (hin b hb) ha hba ▸ hb

/-- Whether two scopes count the states of some variable differently. -/
def Conflicts (s t : Scope) : Prop :=
  ∃ a ∈ s.axes, ∃ b ∈ t.axes, a.name = b.name ∧ a.card ≠ b.card

instance (s t : Scope) : Decidable (s.Conflicts t) :=
  inferInstanceAs (Decidable (∃ a ∈ s.axes, ∃ b ∈ t.axes, a.name = b.name ∧ a.card ≠ b.card))

/-- Whether a fault names such a variable with its two numbers of states. -/
def NamesConflict (s t : Scope) (e : Fault) : Prop :=
  ∃ a ∈ s.axes, ∃ b ∈ t.axes, a.name = b.name ∧ a.card ≠ b.card ∧
    e = .cardinalityConflict a.name a.card b.card

theorem NamesConflict.conflicts {e : Fault} (h : s.NamesConflict t e) : s.Conflicts t := by
  obtain ⟨a, ha, b, hb, hname, hcard, -⟩ := h
  exact ⟨a, ha, b, hb, hname, hcard⟩

/-- A conflict that is found is named. -/
theorem namesConflict_of_conflict? {e : Fault} (h : s.conflict? t = some e) :
    s.NamesConflict t e := by
  obtain ⟨b, hb, hfound⟩ := List.exists_of_findSome?_eq_some h
  cases hc : s.card? b.name with
  | none => simp [hc] at hfound
  | some c =>
    obtain ⟨a, ha, rfl⟩ := Option.map_eq_some_iff.1 hc
    obtain ⟨hmem, hname⟩ := find?_name_eq_some_iff.1 ha
    rw [hc] at hfound
    by_cases hcard : a.card = b.card
    · simp [hcard] at hfound
    · refine ⟨a, hmem, b, hb, hname, hcard, ?_⟩
      simpa [hcard, hname] using hfound.symm

/-- Every conflict is found. -/
theorem conflict?_eq_none_iff : s.conflict? t = none ↔ ¬ s.Conflicts t := by
  constructor
  · intro hnone
    rintro ⟨a, ha, b, hb, hname, hcard⟩
    exact hcard (card_eq_of_conflict?_eq_none hnone ha hb hname)
  · intro hno
    cases hfound : s.conflict? t with
    | none => rfl
    | some e => exact absurd (namesConflict_of_conflict? hfound).conflicts hno

/-- Scopes from one list never count the states of a variable differently. -/
theorem conflict?_eq_none (hd : (axes.map Axis.name).Nodup) (hs : s.Within axes)
    (ht : t.Within axes) : s.conflict? t = none := by
  rw [conflict?_eq_none_iff]
  rintro ⟨a, ha, b, hb, hname, hcard⟩
  exact hcard (congrArg Axis.card (axis_eq_of_name_eq hd (hs a ha) (ht b hb) hname))

/-- A scope does not grow by variables that it has. -/
theorem join_eq_left (h : ∀ n ∈ t.names, n ∈ s.names) : s.join t = s := by
  have hnone : t.axes.filter (fun b => !s.has b.name) = [] := by
    refine List.filter_eq_nil_iff.2 fun b hb => ?_
    simpa [has] using h b.name (List.mem_map_of_mem hb)
  cases s
  simp only [join, hnone, List.append_nil]

/-- Without joint states some variable has no states. -/
theorem exists_card_eq_zero {axes : List Axis} (h : stateCount axes = 0) :
    ∃ a ∈ axes, a.card = 0 := by
  by_contra hno
  push Not at hno
  exact (stateCount_pos fun a ha => Nat.pos_of_ne_zero (hno a ha)).ne' h

end Scope

/-- What goes wrong where a variable has no states: there is no largest weight among none, and
logarithms are not summed over several axes of a table without entries. -/
def Fault.LacksStates (e : Fault) : Prop := e = .emptyMaximum ∨ ∃ n, e = .tooManyIndices 1 n

/-- The number of joint states is the product of the numbers of states. -/
theorem stateCount_eq_prod (axes : List Axis) : stateCount axes = (axes.map Axis.card).prod := by
  induction axes with
  | nil => rfl
  | cons a rest ih => rw [stateCount, ih, List.map_cons, List.prod_cons]

/-- The joint states of some axes stand at the positions in ascending order. -/
theorem map_position_completions {axes : List Axis} (hd : (axes.map Axis.name).Nodup)
    (x : JointState) : (completions axes x).map (position axes) = List.range (stateCount axes) := by
  have hblocks : ∀ n c : Nat, (List.range n).flatMap (fun i => (List.range c).map (i * c + ·))
      = List.range (n * c) := by
    intro n c
    induction n with
    | zero => simp
    | succ n ih =>
      rw [List.range_succ, List.flatMap_append, ih, Nat.succ_mul, List.range_add]
      simp
  induction axes generalizing x with
  | nil => rfl
  | cons a rest ih =>
    obtain ⟨ha, hrest⟩ := List.nodup_cons.1 hd
    rw [completions_cons, List.map_flatMap, stateCount, ← hblocks]
    congr 1
    funext i
    rw [← ih hrest (x.set a.name i), List.map_map]
    refine List.map_congr_left fun y hy => ?_
    have hy : y a.name = i := by simpa using ((mem_completions hrest).1 hy).1 a.name ha
    simp [position, hy]

namespace Table

variable {α : Type} [WeightScale α]

/-- A table is restricted if the observed states can be read. -/
theorem conditional_eq_ok {σ : Type} [StateValue σ] {t : Table α} {a : OrderedMap String σ}
    {observed : List (String × Nat)} (ho : observedOn a t.scope.axes = .ok observed) :
    t.conditional a = .ok (ofFn (t.scope.keep fun n => !a.contains n) fun x =>
      t.weightAt (x.observe observed)) := by
  rw [conditional, ho]
  rfl

/-- A table lists the numbers at its joint states. -/
theorem toList_eq_map_weightAt (t : Table α) : t.toList = t.scope.jointStates.map t.weightAt := by
  have hsize : t.data.toList.length = stateCount t.scope.axes := by
    rw [Array.length_toList, t.data_size]
    rfl
  have hread : t.toList = (List.range (stateCount t.scope.axes)).map
      fun i => t.data.getD i WeightScale.zero := by
    refine List.ext_getElem (by simpa [toList] using hsize) fun i h₁ h₂ => ?_
    have hi : i < t.data.size := by simpa [toList] using h₁
    simp [toList, Array.getD, hi]
  rw [hread, ← map_position_completions t.scope.distinct JointState.origin, List.map_map]
  rfl

end Table

namespace Factor

variable {W L : Type}

/-- The names of the variables as a set. -/
def vars (f : Factor W L) : Finset String := f.names.toFinset

theorem mem_vars {f : Factor W L} {n : String} : n ∈ f.vars ↔ n ∈ f.names := List.mem_toFinset

theorem vars_eq_of_scope_eq {f g : Factor W L} (h : f.scope = g.scope) : f.vars = g.vars := by
  rw [vars, vars, names, names, h]

/-- The axes of some names. -/
def axesOf (f : Factor W L) (names : List String) : List Axis :=
  f.scope.axes.filter fun a => names.contains a.name

theorem nodup_axesOf (f : Factor W L) (names : List String) :
    ((f.axesOf names).map Axis.name).Nodup :=
  (List.filter_sublist.map Axis.name).nodup f.scope.distinct

/-- Axes that agree can be listed without repetition. -/
theorem exists_axes {factors : List (Factor W L)}
    (hagree : ∀ f ∈ factors, ∀ g ∈ factors, ∀ a ∈ f.scope.axes, ∀ b ∈ g.scope.axes,
      a.name = b.name → a.card = b.card) :
    ∃ axes : List Axis, (axes.map Axis.name).Nodup ∧ (∀ f ∈ factors, f.scope.Within axes) ∧
      ∀ a ∈ axes, ∃ f ∈ factors, a ∈ f.scope.axes := by
  have hmem : ∀ {a}, a ∈ (factors.flatMap fun f => f.scope.axes).dedup ↔
      ∃ f ∈ factors, a ∈ f.scope.axes := by
    intro a
    rw [List.mem_dedup, List.mem_flatMap]
  refine ⟨(factors.flatMap fun f => f.scope.axes).dedup,
    List.Nodup.map_on (fun a ha b hb hname => ?_) (List.nodup_dedup _),
    fun f hf a ha => hmem.2 ⟨f, hf, ha⟩, fun a => hmem.1⟩
  obtain ⟨f, hf, ha⟩ := hmem.1 ha
  obtain ⟨g, hg, hb⟩ := hmem.1 hb
  exact Axis.eq_of_name_eq_of_card_eq hname (hagree f hf g hg a ha b hb hname)

section Scopes

variable {axes : List Axis} {f g : Factor W L}

theorem checkNames_eq_ok {α : Type} {t : Table α} {ns : List String}
    (hns : ∀ n ∈ ns, n ∈ t.names) : t.checkNames ns = .ok () := by
  have hnone : ns.find? (fun n => !t.scope.has n) = none := by
    refine List.find?_eq_none.2 fun n hn => ?_
    simpa [Scope.has, Table.names] using hns n hn
  simp [Table.checkNames, hnone]

/-- Why own variables cannot be eliminated: there is no maximum over no states, and logarithms of a
factor without entries are not summed over several variables. -/
def refusal? (mode : Mode) (f : Factor W L) (ns : List String) : Option Fault :=
  match mode, f.form with
  | .sum, .plain => none
  | .sum, .log =>
    if f.scope.size = 0 ∧ 1 < (f.axesOf ns).length then
      some (.tooManyIndices 1 (f.axesOf ns).length)
    else none
  | .max, _ => if stateCount (f.axesOf ns) = 0 then some .emptyMaximum else none

/-- The only reason not to eliminate own variables is that one of the variables has no states. -/
theorem lacksStates_of_refusal? {mode : Mode} {ns : List String} {e : Fault}
    (h : f.refusal? mode ns = some e) :
    e.LacksStates ∧ ∃ a ∈ f.scope.axes, a.card = 0 := by
  unfold refusal? at h
  split at h
  · cases h
  · split at h
    next hnone =>
      cases h
      exact ⟨Or.inr ⟨_, rfl⟩, Scope.exists_card_eq_zero hnone.1⟩
    next => cases h
  · split at h
    next hnone =>
      cases h
      obtain ⟨a, ha, hcard⟩ := Scope.exists_card_eq_zero hnone
      exact ⟨Or.inl rfl, a, (List.mem_filter.1 ha).1, hcard⟩
    next => cases h

variable [WeightScale W] [WeightScale L]

theorem scope_invert (f : Factor W L) : f.invert.scope = f.scope := by
  cases f <;> rfl

/-- The factor that remains when some variables are summed or maximized out. -/
def reduced (mode : Mode) (f : Factor W L) (ns : List String) : Factor W L :=
  match mode, f with
  | .sum, plain t => plain (t.reduce WeightScale.total ns)
  | .sum, log t => log (t.reduce WeightScale.total ns)
  | .max, plain t => plain (t.reduce WeightScale.largest ns)
  | .max, log t => log (t.reduce WeightScale.largest ns)

theorem scope_reduced (mode : Mode) (f : Factor W L) (ns : List String) :
    (f.reduced mode ns).scope = f.scope.keep fun n => !ns.contains n := by
  cases mode <;> cases f <;> rfl

/-- Own variables of a table are maximized out if there are states to choose from. -/
theorem maxMarginalize_eq_ite {α : Type} [WeightScale α] {t : Table α} {ns : List String}
    (hns : ∀ n ∈ ns, n ∈ t.names) :
    t.maxMarginalize ns = if stateCount (t.axesOf ns) = 0 then .error .emptyMaximum
      else .ok (t.reduce WeightScale.largest ns) := by
  rw [Table.maxMarginalize, checkNames_eq_ok hns]
  rfl

/-- Own variables are eliminated unless there is a reason not to. -/
theorem eliminate_eq (mode : Mode) (f : Factor W L) {ns : List String}
    (hns : ∀ n ∈ ns, n ∈ f.names) :
    Passing.eliminate mode f ns = (f.refusal? mode ns).elim (.ok (f.reduced mode ns)) .error := by
  have hrefused : ∀ (c : Prop) [Decidable c] (e : Fault) (r : Factor W L),
      (if c then some e else none).elim (.ok r) .error
        = if c then (.error e : Except Fault (Factor W L)) else .ok r := by
    intro c _ e r
    by_cases hc : c
    · rw [if_pos hc, if_pos hc]
      rfl
    · rw [if_neg hc, if_neg hc]
      rfl
  cases mode with
  | sum =>
    cases f with
    | plain t =>
      rw [Passing.eliminate, marginalize, Table.marginalize, checkNames_eq_ok (t := t) hns]
      rfl
    | log t =>
      have hcheck : t.checkNames ns = .ok () := checkNames_eq_ok hns
      rw [Passing.eliminate, marginalize, Table.marginalize, hcheck]
      change (if t.scope.size = 0 ∧ 1 < (t.axesOf ns).length then _ else _ : Except Fault Unit)
        >>= _ = _
      exact (apply_ite (· >>= _) _ _ _).trans (hrefused _ _ _).symm
  | max =>
    cases f with
    | plain t =>
      rw [Passing.eliminate, maxMarginalize, maxMarginalize_eq_ite hns]
      exact (apply_ite (Functor.map plain) _ _ _).trans (hrefused _ _ _).symm
    | log t =>
      rw [Passing.eliminate, maxMarginalize, maxMarginalize_eq_ite hns]
      exact (apply_ite (Functor.map log) _ _ _).trans (hrefused _ _ _).symm

/-- Own variables can be eliminated, unless one of the variables has no states. -/
theorem eliminate_cases (mode : Mode) (f : Factor W L) {ns : List String}
    (hns : ∀ n ∈ ns, n ∈ f.names) :
    Passing.eliminate mode f ns = .ok (f.reduced mode ns) ∨
      (∃ e, Passing.eliminate mode f ns = .error e ∧ e.LacksStates) ∧
        ∃ a ∈ f.scope.axes, a.card = 0 := by
  rw [eliminate_eq mode f hns]
  cases hrefused : f.refusal? mode ns with
  | none => exact Or.inl rfl
  | some e =>
    obtain ⟨hlacks, hzero⟩ := lacksStates_of_refusal? hrefused
    exact Or.inr ⟨⟨e, rfl, hlacks⟩, hzero⟩

/-- Own variables that have states can be eliminated. -/
theorem eliminate_eq_ok (mode : Mode) (hpos : ∀ a ∈ axes, 0 < a.card) (hf : f.scope.Within axes)
    {ns : List String} (hns : ∀ n ∈ ns, n ∈ f.names) :
    Passing.eliminate mode f ns = .ok (f.reduced mode ns) := by
  refine (eliminate_cases mode f hns).resolve_right ?_
  rintro ⟨-, a, ha, hcard⟩
  exact (hpos a (hf a ha)).ne' hcard

/-- What remains of a factor when some states are observed. -/
def observing {σ : Type} (f : Factor W L) (a : OrderedMap String σ)
    (observed : List (String × Nat)) : Factor W L :=
  match f with
  | plain t => plain (Table.ofFn (t.scope.keep fun n => !a.contains n) fun x =>
      t.weightAt (x.observe observed))
  | log t => log (Table.ofFn (t.scope.keep fun n => !a.contains n) fun x =>
      t.weightAt (x.observe observed))

section Conditional

variable {σ : Type} {a : OrderedMap String σ} {observed : List (String × Nat)}

theorem scope_observing (f : Factor W L) (a : OrderedMap String σ)
    (observed : List (String × Nat)) :
    (f.observing a observed).scope = f.scope.keep fun n => !a.contains n := by
  cases f <;> rfl

variable [StateValue σ]

/-- A restriction succeeds if the observed states can be read. -/
theorem conditional_eq_ok (ho : Table.observedOn a f.scope.axes = .ok observed) :
    f.conditional a = .ok (f.observing a observed) := by
  cases f with
  | plain t => exact congrArg (Functor.map plain) (Table.conditional_eq_ok ho)
  | log t => exact congrArg (Functor.map log) (Table.conditional_eq_ok ho)

/-- A restriction fails if the observed states cannot be read. -/
theorem observedOn_of_conditional (h : f.conditional a = .ok g) :
    ∃ observed, Table.observedOn a f.scope.axes = .ok observed := by
  cases ho : Table.observedOn a f.scope.axes with
  | ok observed => exact ⟨observed, rfl⟩
  | error fault =>
    cases f with
    | plain t =>
      have hu : t.conditional a = .error fault := by
        simp only [Table.conditional, show Table.observedOn a t.scope.axes = .error fault from ho]
        rfl
      simp [conditional, hu, Functor.map, Except.map] at h
    | log t =>
      have hu : t.conditional a = .error fault := by
        simp only [Table.conditional, show Table.observedOn a t.scope.axes = .error fault from ho]
        rfl
      simp [conditional, hu, Functor.map, Except.map] at h

/-- A restricted factor keeps the axes that are not observed. -/
theorem scope_conditional (h : f.conditional a = .ok g) :
    g.scope = f.scope.keep fun n => !a.contains n := by
  obtain ⟨observed, ho⟩ := observedOn_of_conditional h
  rw [conditional_eq_ok ho] at h
  cases h
  exact scope_observing f a observed

/-- A restricted factor has the variables that are not observed. -/
theorem mem_names_conditional (h : f.conditional a = .ok g) {n : String} :
    n ∈ g.names ↔ n ∈ f.names ∧ n ∉ a.keys := by
  rw [names, scope_conditional h, Scope.mem_names_keep, ← OrderedMap.contains_iff_mem_keys]
  simp [names]

end Conditional

variable [LogConversion W L]

theorem scope_logWeights (f : Factor W L) : f.logWeights.scope = f.scope := by
  cases f <;> rfl

/-- The factor over the variables of two factors that multiplies their numbers. -/
def pointwise (f g : Factor W L) : Factor W L :=
  match f with
  | plain t => plain (Table.ofFn (t.scope.join g.weights.scope) fun x =>
      WeightScale.mul (t.weightAt x) (g.weights.weightAt x))
  | log t => log (Table.ofFn (t.scope.join g.logWeights.scope) fun x =>
      WeightScale.mul (t.weightAt x) (g.logWeights.weightAt x))

theorem scope_pointwise (f g : Factor W L) : (f.pointwise g).scope = f.scope.join g.scope := by
  cases f with
  | plain t => exact congrArg t.scope.join (FactorGraph.scope_weights g)
  | log t => exact congrArg t.scope.join (scope_logWeights g)

/-- A product is checked by the scopes only. -/
theorem product_eq (f g : Factor W L) :
    f.product g = match f.scope.conflict? g.scope with
      | some fault => .error fault
      | none => Table.checkGrowth f.scope g.scope >>= fun _ => .ok (f.pointwise g) := by
  cases f with
  | plain t =>
    have hscope : (plain t : Factor W L).scope = t.scope := rfl
    simp only [product, Table.product_eq, pointwise, hscope, FactorGraph.scope_weights]
    cases t.scope.conflict? g.scope with
    | some fault => rfl
    | none => cases Table.checkGrowth t.scope g.scope <;> rfl
  | log t =>
    have hscope : (log t : Factor W L).scope = t.scope := rfl
    simp only [product, Table.product_eq, pointwise, hscope, scope_logWeights]
    cases t.scope.conflict? g.scope with
    | some fault => rfl
    | none => cases Table.checkGrowth t.scope g.scope <;> rfl

/-- A product of factors that count states differently is refused. -/
theorem product_eq_conflict {fault : Fault} (h : f.scope.conflict? g.scope = some fault) :
    f.product g = .error fault := by
  rw [product_eq, h]

/-- A product that would be too large is refused. -/
theorem product_eq_error {fault : Fault} (hconflict : f.scope.conflict? g.scope = none)
    (hgrow : Table.checkGrowth f.scope g.scope = .error fault) : f.product g = .error fault := by
  rw [product_eq, hconflict, hgrow]
  rfl

/-- A product has the axes of both factors, if these agree and a table can have so many. -/
theorem exists_product_of_grows (hconflict : f.scope.conflict? g.scope = none)
    (hgrow : Table.checkGrowth f.scope g.scope = .ok ()) :
    ∃ h, f.product g = .ok h ∧ h.scope = f.scope.join g.scope := by
  refine ⟨f.pointwise g, ?_, scope_pointwise f g⟩
  rw [product_eq, hconflict, hgrow]
  rfl

/-- A product takes the form of its left operand. -/
theorem form_of_product {h : Factor W L} (hh : f.product g = .ok h) : h.form = f.form := by
  cases f with
  | plain t =>
    obtain ⟨u, -, rfl⟩ := map_eq_ok_iff.1 hh
    rfl
  | log t =>
    obtain ⟨u, -, rfl⟩ := map_eq_ok_iff.1 hh
    rfl

theorem form_of_productAll {h : Factor W L} {gs : List (Factor W L)}
    (hh : f.productAll gs = .ok h) : h.form = f.form :=
  foldlM_invariant (P := fun k => k.form = f.form) hh rfl fun _ _ _ _ hk hprod =>
    (form_of_product hprod).trans hk

/-- A product with a factor over some of the own variables keeps the scope. -/
theorem exists_product (hd : (axes.map Axis.name).Nodup) (hf : f.scope.Within axes)
    (hg : g.scope.Within axes) (hsub : ∀ n ∈ g.names, n ∈ f.names) :
    ∃ h, f.product g = .ok h ∧ h.scope = f.scope := by
  have hjoin : f.scope.join g.scope = f.scope := Scope.join_eq_left hsub
  have hgrow : Table.checkGrowth f.scope g.scope = .ok () := by simp [Table.checkGrowth, hjoin]
  obtain ⟨h, hh, hscope⟩ := exists_product_of_grows (Scope.conflict?_eq_none hd hf hg) hgrow
  exact ⟨h, hh, hscope.trans hjoin⟩

/-- A product with several factors over some of the own variables keeps the scope. -/
theorem exists_productAll (hd : (axes.map Axis.name).Nodup) (hf : f.scope.Within axes)
    (gs : List (Factor W L)) (hgs : ∀ g ∈ gs, g.scope.Within axes)
    (hsub : ∀ g ∈ gs, ∀ n ∈ g.names, n ∈ f.names) :
    ∃ h, f.productAll gs = .ok h ∧ h.scope = f.scope := by
  induction gs generalizing f with
  | nil => exact ⟨f, rfl, rfl⟩
  | cons g gs ih =>
    obtain ⟨k, hk, hscope⟩ := exists_product hd hf (hgs g List.mem_cons_self)
      (hsub g List.mem_cons_self)
    have hnames : k.names = f.names := by rw [names, hscope, names]
    obtain ⟨h, hh, hscope'⟩ := ih (f := k) (hscope ▸ hf)
      (fun g' hg' => hgs g' (List.mem_cons_of_mem g hg'))
      (fun g' hg' n hn => hnames ▸ hsub g' (List.mem_cons_of_mem g hg') n hn)
    refine ⟨h, ?_, hscope'.trans hscope⟩
    rw [productAll, List.foldlM_cons, hk]
    exact hh

/-- Scaling by a logarithm can only fail because the weight is too large to be written. -/
theorem scaleLog_cases (f : Factor W L) (c : L) :
    (∃ h, f.scaleLog c = .ok h ∧ h.scope = f.scope) ∨
      f.scaleLog c = .error .exponentialTooLarge := by
  cases f with
  | plain t =>
    unfold scaleLog LogConversion.tryExp
    cases LogConversion.exp? (W := W) c with
    | none => exact Or.inr rfl
    | some w => exact Or.inl ⟨_, rfl, rfl⟩
  | log t => exact Or.inl ⟨_, rfl, rfl⟩

/-- The total of a factor with states can be taken. -/
theorem exists_totalLogWeight (hpos : ∀ a ∈ f.scope.axes, 0 < a.card) :
    ∃ c : L, f.totalLogWeight = .ok c := by
  cases f with
  | plain t => exact ⟨_, rfl⟩
  | log t =>
    refine ⟨t.total, ?_⟩
    rw [totalLogWeight, checkSum_eq_ok hpos]
    rfl

end Scopes

variable [WeightScale W] [WeightScale L] [LogConversion W L]

/-- The weight that a factor gives to a joint state. -/
def weightAt (f : Factor W L) (x : JointState) : W := f.weights.weightAt x

/-- A factor looks at its own variables only. -/
theorem reads_weightAt (f : Factor W L) : Reads f.weightAt f.vars := fun x y hxy =>
  f.weights.weightAt_congr fun n hn => hxy n (mem_vars.2 (by
    rw [Table.names, FactorGraph.scope_weights] at hn
    exact hn))

theorem weightAt_plain (t : Table W) (x : JointState) :
    (plain t : Factor W L).weightAt x = t.weightAt x := rfl

variable {axes : List Axis} {f g : Factor W L}

theorem inRange_weights {x : JointState} (hx : InRange f.scope.axes x) :
    InRange f.weights.scope.axes x := by
  rw [FactorGraph.scope_weights]
  exact hx

/-- A computation on the weights that succeeds does so on the factor. -/
theorem exists_of_weights {x : Except Fault (Factor W L)} {t : Table W}
    (h : weights <$> x = .ok t) : ∃ f, x = .ok f ∧ f.weights = t ∧ f.scope = t.scope := by
  cases x with
  | error fault => cases h
  | ok f =>
    cases h
    exact ⟨f, rfl, rfl, (FactorGraph.scope_weights f).symm⟩

/-- The weights of a factor are listed by its joint states. -/
theorem toList_weights (f : Factor W L) :
    f.weights.toList = f.scope.jointStates.map f.weightAt := by
  rw [Table.toList_eq_map_weightAt, FactorGraph.scope_weights]
  rfl

variable [Semifield W] [LinearOrder W]

/-- The axes of some names of a factor are those variables of the list. -/
theorem axesOf_perm {α : Type} {t : Table α} (hd : (axes.map Axis.name).Nodup)
    (ht : t.scope.Within axes) {ns : List String} (hns : ∀ n ∈ ns, n ∈ t.names) :
    (t.axesOf ns).Perm (axesIn axes ns.toFinset) := by
  refine Scope.perm_axesIn hd ((List.filter_sublist.map Axis.name).nodup t.scope.distinct)
    (fun a ha => ht a (List.mem_filter.1 ha).1) fun n => ?_
  rw [List.mem_toFinset]
  constructor
  · intro hn
    obtain ⟨a, ha, rfl⟩ := List.mem_map.1 (hns n hn)
    exact List.mem_map_of_mem (List.mem_filter.2 ⟨ha, by simpa using hn⟩)
  · intro hn
    obtain ⟨a, ha, rfl⟩ := List.mem_map.1 hn
    simpa using (List.mem_filter.1 ha).2

/-- Reducing a table of weights collects them, if the way of collecting is that of a mode. -/
theorem weightAt_reduce_eq_collapse [CanonicallyOrderedAdd W] (mode : Mode) {collect : List W → W}
    (hcollect : ∀ ws, collect ws = mode.collect ws) (hd : (axes.map Axis.name).Nodup)
    {t : Table W} (ht : t.scope.Within axes) {ns : List String} (hns : ∀ n ∈ ns, n ∈ t.names)
    {x : JointState} (hx : InRange axes x) :
    (t.reduce collect ns).weightAt x = mode.collapse axes ns.toFinset t.weightAt x := by
  have hperm := axesOf_perm hd ht hns
  have hnodup : ((t.axesOf ns).map Axis.name).Nodup :=
    (List.filter_sublist.map Axis.name).nodup t.scope.distinct
  rw [Table.weightAt_reduce _ _ _ ((ht.keep _).inRange hx), hcollect]
  exact congrFun (Mode.along_perm mode hperm hnodup t.weightAt) x

/-- What is collected over all variables of a factor does not depend on the joint state. -/
theorem collapse_vars_eq [CanonicallyOrderedAdd W] (mode : Mode) (hd : (axes.map Axis.name).Nodup)
    (hf : f.scope.Within axes) (x : JointState) :
    mode.collapse axes f.vars f.weightAt x
      = mode.collect (f.scope.jointStates.map f.weightAt) := by
  have hreads : Reads (mode.collapse axes f.vars f.weightAt) (f.vars \ f.vars) :=
    Mode.reads_collapse mode f.reads_weightAt fun n hn => hf.mem_names (mem_vars.1 hn)
  have hperm : (f.scope.axes).Perm (axesIn axes f.vars) :=
    Scope.perm_axesIn hd f.scope.distinct hf fun n => mem_vars
  rw [hreads x JointState.origin fun n hn => by simp at hn]
  exact (congrFun (Mode.along_perm mode hperm f.scope.distinct f.weightAt) JointState.origin).symm

variable [ExactScale W]

/-- The product of some factors at a joint state, as a product of weights. -/
theorem productAt_eq_prod (fs : List (Factor W L)) (x : JointState) :
    FactorGraph.productAt fs x = (fs.map (weightAt · x)).prod := by
  have hfold : ∀ (ws : List W) (w : W), ws.foldl WeightScale.mul w = w * ws.prod := by
    intro ws
    induction ws with
    | nil => simp
    | cons v ws ih =>
      intro w
      rw [List.foldl_cons, ih, ExactScale.mul_eq, List.prod_cons, mul_assoc]
  rw [FactorGraph.productAt, hfold, ExactScale.one_eq, one_mul]
  rfl

/-- The total of a factor is what is summed over its variables. -/
theorem totalWeight_eq_collapse [CanonicallyOrderedAdd W]
    (hd : (axes.map Axis.name).Nodup) (hf : f.scope.Within axes)
    (x : JointState) : f.totalWeight = Mode.sum.collapse axes f.vars f.weightAt x := by
  rw [collapse_vars_eq .sum hd hf, totalWeight, Table.total, Mode.total_eq_collect, toList_weights]

/-- The largest weight of a factor is what is maximized over its variables. -/
theorem largest_eq_collapse [CanonicallyOrderedAdd W]
    (hd : (axes.map Axis.name).Nodup) (hf : f.scope.Within axes)
    (x : JointState) :
    WeightScale.largest f.weights.toList = Mode.max.collapse axes f.vars f.weightAt x := by
  rw [collapse_vars_eq .max hd hf, Mode.largest_eq_collect, toList_weights]

variable [ExactLog W L]

/-- A product multiplies the weights. -/
theorem weightAt_product {h : Factor W L} (hh : f.product g = .ok h) {x : JointState}
    (hx : InRange h.scope.axes x) : h.weightAt x = f.weightAt x * g.weightAt x := by
  have hweights : f.weights.product g.weights = .ok h.weights := by
    rw [← weights_product, hh]
    rfl
  rw [weightAt, Table.weightAt_product hweights (inRange_weights hx), ExactScale.mul_eq]
  rfl

/-- A product with several factors over some of the own variables multiplies all weights. -/
theorem weightAt_productAll (hd : (axes.map Axis.name).Nodup) (hf : f.scope.Within axes)
    {gs : List (Factor W L)} (hgs : ∀ g ∈ gs, g.scope.Within axes)
    (hsub : ∀ g ∈ gs, ∀ n ∈ g.names, n ∈ f.names) {h : Factor W L}
    (hh : f.productAll gs = .ok h) {x : JointState} (hx : InRange f.scope.axes x) :
    h.weightAt x = f.weightAt x * (gs.map (weightAt · x)).prod := by
  induction gs generalizing f with
  | nil =>
    cases hh
    simp
  | cons g gs ih =>
    obtain ⟨k, hk, hscope⟩ := exists_product hd hf (hgs g List.mem_cons_self)
      (hsub g List.mem_cons_self)
    have hnames : k.names = f.names := by rw [names, hscope, names]
    rw [productAll, List.foldlM_cons, hk] at hh
    rw [ih (f := k) (hscope ▸ hf) (fun g' hg' => hgs g' (List.mem_cons_of_mem g hg'))
      (fun g' hg' n hn => hnames ▸ hsub g' (List.mem_cons_of_mem g hg') n hn) hh (hscope ▸ hx),
      weightAt_product hk (hscope ▸ hx), List.map_cons, List.prod_cons, mul_assoc]

theorem weights_reduced_sum (f : Factor W L) (ns : List String) :
    (f.reduced .sum ns).weights = f.weights.reduce WeightScale.total ns := by
  cases f with
  | plain t => rfl
  | log t => exact Table.map_reduce isScaleHom_exp isScaleHom_exp.total t ns

theorem weights_reduced_max (f : Factor W L) (ns : List String) :
    (f.reduced .max ns).weights = f.weights.reduce WeightScale.largest ns := by
  cases f with
  | plain t => rfl
  | log t => exact Table.map_reduce isScaleHom_exp isScaleHom_exp.largest t ns

/-- Eliminating own variables collects the weights. -/
theorem weightAt_reduced [CanonicallyOrderedAdd W] (mode : Mode) (hd : (axes.map Axis.name).Nodup)
    (hf : f.scope.Within axes) {ns : List String} (hns : ∀ n ∈ ns, n ∈ f.names) {x : JointState}
    (hx : InRange axes x) :
    (f.reduced mode ns).weightAt x = mode.collapse axes ns.toFinset f.weightAt x := by
  have hscope : f.weights.scope = f.scope := FactorGraph.scope_weights f
  have hin : f.weights.scope.Within axes := hscope ▸ hf
  have hnames : ∀ n ∈ ns, n ∈ f.weights.names := by
    rw [Table.names, hscope]
    exact hns
  cases mode with
  | sum =>
    rw [weightAt, weights_reduced_sum]
    exact weightAt_reduce_eq_collapse .sum Mode.total_eq_collect hd hin hnames hx
  | max =>
    rw [weightAt, weights_reduced_max]
    exact weightAt_reduce_eq_collapse .max Mode.largest_eq_collect hd hin hnames hx

/-- Inverting a factor inverts every weight. -/
theorem weightAt_invert (f : Factor W L) {x : JointState} (hx : InRange f.scope.axes x) :
    f.invert.weightAt x = (f.weightAt x)⁻¹ := by
  rw [weightAt, weights_invert, Table.invert, Table.weightAt_map _ _ (inRange_weights hx),
    ExactScale.invert_eq]
  rfl

/-- Scaling by a logarithm multiplies every weight by what it stands for. -/
theorem scaleLog_spec (f : Factor W L) (c : L) :
    ∃ h, f.scaleLog c = .ok h ∧ h.scope = f.scope ∧
      ∀ x, InRange f.scope.axes x → h.weightAt x = f.weightAt x * LogConversion.exp c := by
  obtain ⟨h, hh, hweights, hscope⟩ := exists_of_weights (weights_scaleLog f c)
  refine ⟨h, hh, hscope.trans (FactorGraph.scope_weights f), fun x hx => ?_⟩
  rw [weightAt, hweights, Table.scaled, Table.weightAt_map _ _ (inRange_weights hx),
    ExactScale.mul_eq]
  rfl

/-- The logarithm of the total of a factor with states stands for the total. -/
theorem totalLogWeight_spec (hpos : ∀ a ∈ f.scope.axes, 0 < a.card) :
    ∃ c : L, f.totalLogWeight = .ok c ∧ LogConversion.exp c = f.totalWeight :=
  ⟨_, totalLogWeight_eq hpos, exp_logPositive _⟩

/-- Normalizing divides every weight by the total. A table whose total is zero stays as it is, which
is the same, since all its weights are zero. -/
theorem normalize_spec [IsStrictOrderedRing W] [CanonicallyOrderedAdd W]
    (f : Factor W L) (hpos : ∀ a ∈ f.scope.axes, 0 < a.card) :
    ∃ h, f.normalize = .ok h ∧ h.scope = f.scope ∧
      ∀ x, InRange f.scope.axes x → h.weightAt x = f.weightAt x / f.totalWeight := by
  have hzero : f.totalWeight = 0 → ∀ x, InRange f.scope.axes x → f.weightAt x = 0 := by
    intro htotal x hx
    have hself : x ∈ variants f.scope.axes f.vars x := self_mem_variants f.scope.distinct hx
    have hle : f.weightAt x ≤ Mode.sum.collapse f.scope.axes f.vars f.weightAt x :=
      Mode.le_collapse .sum hself
    rw [← totalWeight_eq_collapse f.scope.distinct (fun _ ha => ha) x, htotal] at hle
    exact le_zero_iff.1 hle
  obtain ⟨h, hh, hweights, hscope⟩ := exists_of_weights (weights_normalize hpos)
  refine ⟨h, hh, ?_, fun x hx => ?_⟩
  · rw [hscope, Table.scope_normalize, FactorGraph.scope_weights]
  · rw [weightAt, hweights]
    by_cases htotal : f.totalWeight = 0
    · have hkept : f.weights.normalize = f.weights :=
        if_neg fun hn => (ExactScale.normalizes_iff _).1 hn htotal
      rw [hkept, htotal, div_zero]
      exact hzero htotal x hx
    · have hdivided : f.weights.normalize
          = f.weights.map fun v => WeightScale.quotient v f.totalWeight :=
        if_pos ((ExactScale.normalizes_iff _).2 htotal)
      rw [hdivided, Table.weightAt_map _ _ (inRange_weights hx), ExactScale.quotient_eq _ _ htotal]
      rfl

/-- The weights of a restriction are the restricted weights. -/
theorem weights_conditional_eq_ok {σ : Type} [StateValue σ] {f : Factor W L}
    {a : OrderedMap String σ} {observed : List (String × Nat)}
    (ho : Table.observedOn a f.scope.axes = .ok observed) :
    f.weights.conditional a = .ok (f.observing a observed).weights := by
  rw [← weights_conditional, conditional_eq_ok ho]
  rfl

/-- A restriction succeeds if the observed states can be read, and keeps the other axes. -/
theorem conditional_spec {σ : Type} [StateValue σ] (f : Factor W L) {a : OrderedMap String σ}
    {observed : List (String × Nat)} (ho : Table.observedOn a f.scope.axes = .ok observed) :
    ∃ h, f.conditional a = .ok h ∧ h.scope = f.scope.keep (fun n => !a.contains n) ∧
      ∀ x, InRange h.scope.axes x → h.weightAt x = f.weightAt (x.observe observed) := by
  refine ⟨f.observing a observed, conditional_eq_ok ho, scope_observing f a observed,
    fun x hx => ?_⟩
  have hweights := weights_conditional_eq_ok ho
  rw [← FactorGraph.scope_weights f] at ho
  exact Table.weightAt_conditional hweights ho (inRange_weights hx)

/-- The best candidate is one of the candidates, and no candidate is worth more. -/
theorem best?_spec {β : Type} (weight : β → W) {cs : List β} (hcs : cs ≠ []) :
    ∃ b, Table.best? weight cs = some b ∧ b ∈ cs ∧ ∀ c ∈ cs, weight c ≤ weight b := by
  have hfold : ∀ (cs : List β) (b : β), ∃ d,
      cs.foldl (fun best d => if WeightScale.beats (weight d) (weight best) then d else best) b = d
        ∧ d ∈ b :: cs ∧ ∀ c ∈ b :: cs, weight c ≤ weight d := by
    intro cs
    induction cs with
    | nil => exact fun b => ⟨b, rfl, by simp, by simp⟩
    | cons c cs ih =>
      intro b
      obtain ⟨d, hd, hmem, hmax⟩ := ih (if WeightScale.beats (weight c) (weight b) then c else b)
      refine ⟨d, hd, ?_, fun e he => ?_⟩
      · rcases List.mem_cons.1 hmem with h | h
        · rw [h]
          split <;> simp
        · simp [h]
      · have hhead := hmax _ List.mem_cons_self
        have hboth : weight b ≤ weight d ∧ weight c ≤ weight d := by
          by_cases hb : WeightScale.beats (weight c) (weight b) = true
          · rw [if_pos hb] at hhead
            exact ⟨((ExactScale.beats_iff _ _).1 hb).le.trans hhead, hhead⟩
          · rw [if_neg hb] at hhead
            exact ⟨hhead, (not_lt.1 fun h => hb ((ExactScale.beats_iff _ _).2 h)).trans hhead⟩
        rcases List.mem_cons.1 he with rfl | he
        · exact hboth.1
        · rcases List.mem_cons.1 he with rfl | he
          · exact hboth.2
          · exact hmax e (List.mem_cons_of_mem _ he)
  cases cs with
  | nil => exact absurd rfl hcs
  | cons c cs =>
    obtain ⟨d, hd, hmem, hmax⟩ := hfold cs c
    exact ⟨d, congrArg some hd, hmem, hmax⟩

/-- The best joint state of a factor with states is in range and has the largest weight. -/
theorem argmax_spec (hpos : ∀ a ∈ f.scope.axes, 0 < a.card) :
    ∃ x : JointState, f.argmax = .ok (x.restrict f.names) ∧ InRange f.scope.axes x ∧
      ∀ y, InRange f.scope.axes y → f.weightAt y ≤ f.weightAt x := by
  have hne : f.scope.jointStates ≠ [] := fun h => by
    have hlen := length_completions f.scope.axes JointState.origin
    rw [show completions f.scope.axes JointState.origin = [] from h] at hlen
    exact (Scope.stateCount_pos hpos).ne hlen
  obtain ⟨x, hbest, hmem, hmax⟩ := best?_spec f.weightAt hne
  have hx : f.argmax = .ok (x.restrict f.names) := by
    have hweights : f.weights.argmax = .ok (x.restrict f.weights.names) := by
      refine Table.argmax_of_best? ?_
      rw [FactorGraph.scope_weights]
      exact hbest
    rw [argmax_eq_argmax_weights, hweights, Table.names, FactorGraph.scope_weights]
    rfl
  refine ⟨x, hx, ((mem_completions f.scope.distinct).1 hmem).2, fun y hy => ?_⟩
  -- The enumeration only has the joint state that equals `y` on the axes and is zero off them.
  let z : JointState := fun n => if n ∈ f.names then y n else 0
  have hz : ∀ n ∈ f.names, z n = y n := fun n hn => if_pos hn
  have hzmem : z ∈ f.scope.jointStates :=
    (mem_completions f.scope.distinct).2 ⟨fun n hn => if_neg hn, fun a ha => by
      rw [hz a.name (List.mem_map_of_mem ha)]
      exact hy a ha⟩
  rw [f.reads_weightAt y z fun n hn => (hz n (mem_vars.1 hn)).symm]
  exact hmax z hzmem

end Factor

end ExactInference
