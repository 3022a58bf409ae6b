import ExactInference.Proofs.Answers
import ExactInference.Proofs.Restrictions

/-!
# Looking weights up and restricting to them

The weight of a factor at an assignment of all its variables can be looked up, or the factor can be
restricted to the assignment, which leaves a table with one entry. A look-up resolves indices and a
restriction checks states, but as long as no state counts from the last one, both accept the same
assignments, and the entry is the weight. The joint weight of a graph is looked up factor by factor
and stops at zero. So it has a value whenever the graph can be restricted, and is the total of the
restricted graph, but it does not notice wrong states of variables that no factor on its way has.
None of this depends on how weights are written.
-/

namespace ExactInference

section Assigned

variable {σ : Type} [StateValue σ] {a : OrderedMap String σ} {axes more : List Axis}

/-- Whether an assignment gives a variable on some axes a state below zero that counts from the
last one. -/
def CountsBack (axes : List Axis) (a : OrderedMap String σ) : Prop :=
  ∃ v ∈ axes, ∃ value, a.get? v.name = some value ∧
    ∃ i : Int, StateValue.toInt value = .ok i ∧ -(v.card : Int) ≤ i ∧ i < 0

theorem CountsBack.mono (h : CountsBack axes a) (hsub : ∀ v ∈ axes, v ∈ more) :
    CountsBack more a := by
  obtain ⟨v, hv, hback⟩ := h
  exact ⟨v, hsub v hv, hback⟩

/-- States that the variables have do not count from the last one. -/
theorem InStates.not_countsBack (h : InStates axes a) : ¬ CountsBack axes a := by
  intro hback
  obtain ⟨v, hv, value, hvalue, i, hi, -, hlow⟩ := hback
  obtain ⟨s, hs, -⟩ := h v hv value hvalue
  cases hi.symm.trans hs
  omega

/-- A place is that of a state, or of a state that counts from the last one. -/
theorem of_placeOf? {size place : ℕ} {i : Int} (h : placeOf? size i = some place) :
    (0 ≤ i ∧ i < size) ∨ (-(size : Int) ≤ i ∧ i < 0) := by
  unfold placeOf? at h
  split at h
  next hin => exact Or.inl hin
  next =>
    split at h
    next hback => exact Or.inr ⟨hback.2, hback.1⟩
    next => cases h

/-- A covering assignment gives the values of all names, which are read one after the other. -/
theorem Table.keyFor_of_cover {names : List String} (hcover : ∀ n ∈ names, n ∈ a.keys) :
    keyFor names a = (names.filterMap a.get?).mapM StateValue.toInt := by
  have hmissing : (names.filter fun n => !a.contains n) = [] := by
    refine List.filter_eq_nil_iff.2 fun n hn => ?_
    simpa using (OrderedMap.contains_iff_mem_keys a n).2 (hcover n hn)
  rw [keyFor, hmissing]
  rfl

/-- If all variables are assigned, only assigned states are put in. -/
theorem InStates.inRange_of_cover (h : InStates axes a) (hcover : ∀ v ∈ axes, v.name ∈ a.keys)
    (x : JointState) : InRange axes (x.assign a) := by
  refine h.inRange_assign fun v hv hout => ?_
  rw [(OrderedMap.contains_iff_mem_keys a v.name).2 (hcover v hv)] at hout
  cases hout

/-- States that the variables have are the indices of a key. -/
theorem InStates.keyFor_eq_ok (h : InStates axes a) (hcover : ∀ v ∈ axes, v.name ∈ a.keys)
    (x : JointState) : Table.keyFor (axes.map Axis.name) a
      = .ok ((axes.map fun v => x.assign a v.name).map Nat.cast) := by
  rw [Table.keyFor_of_cover (List.forall_mem_map.2 hcover)]
  induction axes with
  | nil => rfl
  | cons v rest ih =>
    have htail := ih (h.mono fun w hw => List.mem_cons_of_mem v hw)
      fun w hw => hcover w (List.mem_cons_of_mem v hw)
    rcases h.get?_eq List.mem_cons_self x with ⟨hread, -⟩ | hnone
    · obtain ⟨value, hvalue, hstate⟩ := Option.map_eq_some_iff.1 hread
      rw [List.map_cons, List.filterMap_cons, hvalue]
      change (value :: (rest.map Axis.name).filterMap a.get?).mapM StateValue.toInt = _
      rw [List.mapM_cons, hstate, htail]
      rfl
    · obtain ⟨value, hvalue⟩ := OrderedMap.exists_get?_of_mem_keys (hcover v List.mem_cons_self)
      cases hnone.symm.trans hvalue

/-- A key that is resolved is resolved index by index. -/
theorem indicesOn_of_resolveKey {sizes places : List ℕ} {key : List Int}
    (h : resolveKey sizes key = .ok places) : indicesOn 0 sizes key = .ok places := by
  rw [resolveKey] at h
  split at h
  · cases h
  · obtain ⟨⟨⟩, -, h⟩ := bind_eq_ok_iff.1 h
    split at h
    · cases h
    · exact h

/-- A resolved key has a place on every axis. -/
theorem exists_place_of_indicesOn {first : ℕ} {key : List Int} {places : List ℕ}
    (hcover : ∀ v ∈ axes, v.name ∈ a.keys)
    (hkey : ((axes.map Axis.name).filterMap a.get?).mapM StateValue.toInt = .ok key)
    (hplaces : indicesOn first (axes.map Axis.card) key = .ok places) :
    ∀ v ∈ axes, ∀ value, a.get? v.name = some value →
      ∃ i place, StateValue.toInt value = .ok i ∧ placeOf? v.card i = some place := by
  induction axes generalizing first key places with
  | nil =>
    intro v hv
    cases hv
  | cons w rest ih =>
    obtain ⟨own, hown⟩ := OrderedMap.exists_get?_of_mem_keys (hcover w List.mem_cons_self)
    rw [List.map_cons, List.filterMap_cons, hown] at hkey
    change (own :: (rest.map Axis.name).filterMap a.get?).mapM StateValue.toInt = _ at hkey
    rw [List.mapM_cons] at hkey
    obtain ⟨i, hi, hkey⟩ := bind_eq_ok_iff.1 hkey
    obtain ⟨more, hmore, hkey⟩ := bind_eq_ok_iff.1 hkey
    cases hkey
    rw [List.map_cons, indicesOn] at hplaces
    obtain ⟨place, hplace, hplaces⟩ := bind_eq_ok_iff.1 hplaces
    obtain ⟨others, hothers, -⟩ := bind_eq_ok_iff.1 hplaces
    intro v hv value hvalue
    rcases List.mem_cons.1 hv with rfl | hv
    · cases hown.symm.trans hvalue
      refine ⟨i, place, hi, ?_⟩
      unfold indexOn at hplace
      cases hfound : placeOf? v.card i with
      | none => simp [hfound] at hplace
      | some p =>
        simp only [hfound, Except.ok.injEq] at hplace
        rw [hplace]
    · exact ih (fun u hu => hcover u (List.mem_cons_of_mem w hu)) hmore hothers v hv value hvalue

namespace Table

variable {α : Type} {t u : Table α}

/-- An array with states can have the numbers of states that it has. -/
theorem checkCards_eq_ok {cards : List ℕ} (hfits : FitsArray cards) (hpos : ∀ c ∈ cards, 0 < c) :
    checkCards (cards.map Nat.cast) = .ok () := by
  have hyields := yields_checkCards hpos
  cases hcheck : checkCards (cards.map Nat.cast) with
  | ok _ => rfl
  | error e =>
    exact ((hyields.fault_of_eq_error hcheck).2 ((fitsArray_iff_fitsTable hpos).1 hfits)).elim

variable [WeightScale α]

/-- At states of all its variables an array has a number. -/
theorem lookup_of_inStates (hfits : FitsArray t.cards) (hcover : ∀ n ∈ t.names, n ∈ a.keys)
    (h : InStates t.scope.axes a) :
    t.lookup a = .ok (t.weightAt (JointState.origin.assign a)) := by
  have hown : ∀ v ∈ t.scope.axes, v.name ∈ a.keys := fun v hv =>
    hcover v.name (List.mem_map_of_mem hv)
  have hlt := h.inRange_of_cover hown JointState.origin
  have hkey := h.keyFor_eq_ok hown JointState.origin
  have hresolve : resolveKey t.cards ((t.scope.axes.map fun v =>
      JointState.origin.assign a v.name).map Nat.cast)
        = .ok (t.scope.axes.map fun v => JointState.origin.assign a v.name) := by
    refine resolveKey_natCast ?_ (checkCards_eq_ok hfits ?_)
    · exact List.forall₂_map_left_iff.2 (List.forall₂_map_right_iff.2 (List.forall₂_same.2 hlt))
    · exact List.forall_mem_map.2 fun v hv => Nat.zero_lt_of_lt (hlt v hv)
  have hstates : t.names.zip (t.scope.axes.map fun v => JointState.origin.assign a v.name)
      = (JointState.origin.assign a).restrict t.names := by
    rw [JointState.restrict, names, Scope.names, List.zip_map', List.map_map]
    rfl
  have hput : t.weightAt (JointState.origin.observe ((JointState.origin.assign a).restrict t.names))
      = t.weightAt (JointState.origin.assign a) := by
    refine t.weightAt_congr fun n hn => ?_
    rw [JointState.observe_restrict, if_pos hn]
  rw [lookup, show keyFor t.names a = _ from hkey]
  change (resolveKey t.cards _ >>= _) = _
  rw [hresolve]
  change Except.ok (t.weightAt (JointState.origin.observe (t.names.zip _))) = _
  rw [hstates, hput]

/-- If no state counts from the last one, what is looked up is at states of the variables. -/
theorem inStates_of_lookup {w : α} (hcover : ∀ n ∈ t.names, n ∈ a.keys)
    (hback : ¬ CountsBack t.scope.axes a) (h : t.lookup a = .ok w) : InStates t.scope.axes a := by
  obtain ⟨key, hkey, h⟩ := bind_eq_ok_iff.1 h
  obtain ⟨places, hplaces, -⟩ := bind_eq_ok_iff.1 h
  rw [keyFor_of_cover hcover] at hkey
  have hown : ∀ v ∈ t.scope.axes, v.name ∈ a.keys := fun v hv =>
    hcover v.name (List.mem_map_of_mem hv)
  intro v hv value hvalue
  obtain ⟨i, place, hi, hplace⟩ :=
    exists_place_of_indicesOn hown hkey (indicesOn_of_resolveKey hplaces) v hv value hvalue
  rcases of_placeOf? hplace with hin | hlow
  · obtain ⟨s, rfl⟩ := Int.eq_ofNat_of_zero_le hin.1
    exact ⟨s, hi, Int.ofNat_lt.1 hin.2⟩
  · exact (hback ⟨v, hv, value, hvalue, i, hi, hlow⟩).elim

/-- An array has a number at exactly the states that its variables have. -/
theorem exists_lookup_iff (hfits : FitsArray t.cards) (hcover : ∀ n ∈ t.names, n ∈ a.keys)
    (hback : ¬ CountsBack t.scope.axes a) :
    (∃ w, t.lookup a = .ok w) ↔ InStates t.scope.axes a := by
  constructor
  · intro hsome
    obtain ⟨w, hw⟩ := hsome
    exact inStates_of_lookup hcover hback hw
  · intro h
    exact ⟨_, lookup_of_inStates hfits hcover h⟩

/-- A table that is restricted to states of all its variables has one number left, which is the one
that is looked up. -/
theorem conditional_of_cover (hcover : ∀ n ∈ t.names, n ∈ a.keys) (hu : t.conditional a = .ok u) :
    InStates t.scope.axes a ∧ u.scope.axes = [] ∧
      u.weightAt JointState.origin = t.weightAt (JointState.origin.assign a) := by
  obtain ⟨observed, hobserved, -⟩ := bind_eq_ok_iff.1 hu
  have h : InStates t.scope.axes a := .of_observedOn hobserved
  obtain ⟨u', hu', hscope, hweight⟩ := exists_restricted h
  cases hu.symm.trans hu'
  have haxes : u.scope.axes = [] := by
    rw [hscope]
    refine List.filter_eq_nil_iff.2 fun v hv => ?_
    simpa using (OrderedMap.contains_iff_mem_keys a v.name).2
      (hcover v.name (List.mem_map_of_mem hv))
  refine ⟨h, haxes, hweight JointState.origin ?_⟩
  rw [haxes]
  intro v hv
  cases hv

/-- A table without axes has one number. -/
theorem toList_scalar (h : u.scope.axes = []) : u.toList = [u.weightAt JointState.origin] := by
  rw [toList_eq_map_weightAt, Scope.jointStates, h]
  rfl

/-- Looking up is restricting and looking the only number up. -/
theorem lookup_of_conditional {τ : Type} [StateValue τ] (hfits : FitsArray t.cards)
    (hcover : ∀ n ∈ t.names, n ∈ a.keys) (hu : t.conditional a = .ok u) (b : OrderedMap String τ) :
    t.lookup a = u.lookup b := by
  obtain ⟨h, haxes, hweight⟩ := conditional_of_cover hcover hu
  rw [lookup_of_inStates hfits hcover h, lookup_scalar haxes, hweight]

/-- If the numbers are changed, what is looked up is the changed number that is left. -/
theorem lookup_map_of_conditional {β : Type} [WeightScale β] (φ : α → β) (hfits : FitsArray t.cards)
    (hcover : ∀ n ∈ t.names, n ∈ a.keys) (hu : t.conditional a = .ok u) :
    (t.map φ).lookup a = .ok ((u.map φ).weightAt JointState.origin) := by
  obtain ⟨h, haxes, hweight⟩ := conditional_of_cover hcover hu
  have hlookup : (t.map φ).lookup a = .ok ((t.map φ).weightAt (JointState.origin.assign a)) :=
    lookup_of_inStates hfits hcover h
  have hin : InRange t.scope.axes (JointState.origin.assign a) :=
    h.inRange_of_cover (fun v hv => hcover v.name (List.mem_map_of_mem hv)) JointState.origin
  have hscalar : InRange u.scope.axes JointState.origin := by
    rw [haxes]
    intro v hv
    cases hv
  rw [hlookup, weightAt_map _ _ hin, weightAt_map _ _ hscalar, hweight]

end Table

variable {W L : Type} [WeightScale W] [WeightScale L] [LogConversion W L]

namespace Factor

variable {f k : Factor W L}

/-- Whether an assignment covers a factor that an array can hold, and gives none of its variables a
state that counts from the last one. -/
structure CoveredBy (f : Factor W L) (a : OrderedMap String σ) : Prop where
  /-- An array can have the axes. -/
  fits : FitsArray f.cards
  /-- Every variable is assigned. -/
  cover : ∀ n ∈ f.names, n ∈ a.keys
  /-- No state counts from the last one. -/
  not_back : ¬ CountsBack f.scope.axes a

/-- The weight of a factor is looked up at exactly the states that its variables have. -/
theorem CoveredBy.exists_weightOf_iff (h : f.CoveredBy a) :
    (∃ w, f.weightOf a = .ok w) ↔ InStates f.scope.axes a := by
  rw [← FactorGraph.scope_weights f]
  refine Table.exists_lookup_iff ?_ ?_ ?_
  · rw [Table.cards, FactorGraph.scope_weights]
    exact h.fits
  · rw [Table.names, FactorGraph.scope_weights]
    exact h.cover
  · rw [FactorGraph.scope_weights]
    exact h.not_back

/-- So is its logarithm. -/
theorem CoveredBy.exists_logWeightOf_iff (h : f.CoveredBy a) :
    (∃ c, f.logWeightOf a = .ok c) ↔ InStates f.scope.axes a := by
  cases f with
  | plain t =>
    have htable : (∃ w, t.lookup a = .ok w) ↔ InStates t.scope.axes a :=
      Table.exists_lookup_iff h.fits h.cover h.not_back
    change _ ↔ InStates t.scope.axes a
    rw [← htable]
    constructor
    · intro hsome
      obtain ⟨c, hc⟩ := hsome
      obtain ⟨w, hw, -⟩ := map_eq_ok_iff.1 hc
      exact ⟨w, hw⟩
    · intro hsome
      obtain ⟨w, hw⟩ := hsome
      exact ⟨_, map_eq_ok_iff.2 ⟨w, hw, rfl⟩⟩
  | log t => exact Table.exists_lookup_iff h.fits h.cover h.not_back

omit [LogConversion W L] in
/-- A factor is restricted to exactly the states that its variables have. -/
theorem exists_conditional_iff : (∃ k, f.conditional a = .ok k) ↔ InStates f.scope.axes a := by
  constructor
  · intro hsome
    obtain ⟨k, hk⟩ := hsome
    obtain ⟨observed, hobserved⟩ := observedOn_of_conditional hk
    exact .of_observedOn hobserved
  · intro h
    exact ⟨_, conditional_eq_ok (h.observedOn JointState.origin)⟩

/-- If all variables are restricted, the weight that was looked up is left. -/
theorem weights_of_conditional (hfits : FitsArray f.cards) (hcover : ∀ n ∈ f.names, n ∈ a.keys)
    (hk : f.conditional a = .ok k) :
    k.names = [] ∧ ∃ w, f.weightOf a = .ok w ∧ k.weights.toList = [w] := by
  have hspec : k.scope.axes = [] ∧ f.weightOf a = .ok (k.weights.weightAt JointState.origin) := by
    cases f with
    | plain t =>
      obtain ⟨u, hu, rfl⟩ := map_eq_ok_iff.1 hk
      obtain ⟨-, haxes, -⟩ := Table.conditional_of_cover hcover hu
      have hlookup : t.lookup a = u.lookup a := Table.lookup_of_conditional hfits hcover hu a
      exact ⟨haxes, hlookup.trans (Table.lookup_scalar haxes a)⟩
    | log t =>
      obtain ⟨u, hu, rfl⟩ := map_eq_ok_iff.1 hk
      obtain ⟨-, haxes, -⟩ := Table.conditional_of_cover hcover hu
      exact ⟨haxes, Table.lookup_map_of_conditional LogConversion.exp hfits hcover hu⟩
  obtain ⟨haxes, hlookup⟩ := hspec
  constructor
  · rw [names, Scope.names, haxes, List.map_nil]
  · refine ⟨_, hlookup, Table.toList_scalar ?_⟩
    rw [FactorGraph.scope_weights]
    exact haxes

/-- If all variables are restricted, the logarithm that was looked up is left. -/
theorem logWeightOf_of_conditional {τ : Type} [StateValue τ] (hfits : FitsArray f.cards)
    (hcover : ∀ n ∈ f.names, n ∈ a.keys) (hk : f.conditional a = .ok k) (b : OrderedMap String τ) :
    f.logWeightOf a = k.logWeightOf b := by
  cases f with
  | plain t =>
    obtain ⟨u, hu, rfl⟩ := map_eq_ok_iff.1 hk
    rw [logWeightOf, logWeightOf, Table.lookup_of_conditional hfits hcover hu b]
  | log t =>
    obtain ⟨u, hu, rfl⟩ := map_eq_ok_iff.1 hk
    rw [logWeightOf, logWeightOf, Table.lookup_of_conditional hfits hcover hu b]

end Factor

namespace FactorGraph

open Factor

variable {g g' : FactorGraph W L} {f : Factor W L} {fs ks : List (Factor W L)}

/-- The factors that are looked at when weights are multiplied into a logarithm: all up to the first
one that has no weight or makes the product zero. -/
def lookedAt (a : OrderedMap String σ) : List (Factor W L) → L → List (Factor W L)
  | [], _ => []
  | f :: rest, sum =>
    match f.logWeightOf a with
    | .error _ => [f]
    | .ok w =>
      if LogConversion.isBottom W (WeightScale.mul sum w) then [f]
      else f :: lookedAt a rest (WeightScale.mul sum w)

theorem mem_of_mem_lookedAt {sum : L} (h : f ∈ lookedAt a fs sum) : f ∈ fs := by
  induction fs generalizing sum with
  | nil => exact h
  | cons k fs ih =>
    rw [lookedAt] at h
    split at h
    · rw [List.mem_singleton.1 h]
      exact List.mem_cons_self
    · split at h
      · rw [List.mem_singleton.1 h]
        exact List.mem_cons_self
      · rcases List.mem_cons.1 h with rfl | h
        · exact List.mem_cons_self
        · exact List.mem_cons_of_mem k (ih h)

/-- Weights can be multiplied if all factors that are looked at have states that they have. -/
theorem exists_logWeightFrom_iff (hfs : ∀ f ∈ fs, f.CoveredBy a) (sum : L) :
    (∃ c, logWeightFrom a fs sum = .ok c) ↔ ∀ f ∈ lookedAt a fs sum, InStates f.scope.axes a := by
  induction fs generalizing sum with
  | nil =>
    constructor
    · intro _ f hf
      cases hf
    · intro _
      exact ⟨sum, rfl⟩
  | cons f fs ih =>
    have hfirst := (hfs f List.mem_cons_self).exists_logWeightOf_iff
    cases hw : f.logWeightOf a with
    | error e =>
      have hout : ¬ InStates f.scope.axes a := by
        rw [← hfirst, hw]
        intro hsome
        obtain ⟨c, hc⟩ := hsome
        cases hc
      simp [logWeightFrom, lookedAt, hw, hout, bind, Except.bind]
    | ok w =>
      have hin : InStates f.scope.axes a := hfirst.1 ⟨w, hw⟩
      have htail := ih (fun k hk => hfs k (List.mem_cons_of_mem f hk)) (WeightScale.mul sum w)
      by_cases hb : LogConversion.isBottom W (WeightScale.mul sum w) = true
      · simp [logWeightFrom, lookedAt, hw, hb, hin, bind, Except.bind]
      · simp [logWeightFrom, lookedAt, hw, hb, hin, htail, bind, Except.bind]

/-- Multiplying the weights at an assignment of all variables is multiplying what is left of the
factors when they are restricted to it. -/
theorem logWeightFrom_of_conditional {τ : Type} [StateValue τ]
    (h : List.Forall₂ (fun f k => f.conditional a = .ok k) fs ks)
    (hfits : ∀ f ∈ fs, FitsArray f.cards) (hcover : ∀ f ∈ fs, ∀ n ∈ f.names, n ∈ a.keys)
    (b : OrderedMap String τ) (sum : L) : logWeightFrom a fs sum = logWeightFrom b ks sum := by
  induction h generalizing sum with
  | nil => rfl
  | @cons f k fs ks hk _ ih =>
    have hfirst := logWeightOf_of_conditional (hfits f List.mem_cons_self)
      (hcover f List.mem_cons_self) hk b
    have htail := ih (fun f' hf => hfits f' (List.mem_cons_of_mem f hf))
      fun f' hf => hcover f' (List.mem_cons_of_mem f hf)
    rw [logWeightFrom, logWeightFrom, hfirst]
    simp only [htail]

omit [WeightScale W] [WeightScale L] [LogConversion W L] in
/-- An assignment of all free variables is admitted if it gives them states that they have. -/
theorem admits_iff_inStates (hnodup : a.keys.Nodup) (hkeys : ∀ n, n ∈ a.keys ↔ n ∈ g.freeNames) :
    g.Admits a ↔ InStates g.freeAxes a := by
  constructor
  · intro h v hv value hvalue
    obtain ⟨-, i, hi, hlt⟩ := h (v.name, value) ((OrderedMap.mem_entries_iff hnodup).2 hvalue)
    exact ⟨i, hi, by rw [(mem_freeAxes.1 hv).2]; exact hlt⟩
  · intro h e he
    have hfree := (hkeys e.1).1 (List.mem_map_of_mem he)
    obtain ⟨i, hi, hlt⟩ := h ⟨e.1, g.stateCountOf e.1⟩ (mem_freeAxes.2 ⟨hfree, rfl⟩) e.2
      ((OrderedMap.mem_entries_iff hnodup).1 he)
    exact ⟨hfree, i, hi, hlt⟩

/-- If a graph can be restricted to an assignment of all its free variables, its weight is looked
up, and it is the total of the restricted graph. -/
theorem Sound.logWeightOf_of_conditional (hg : g.Sound) (hfits : ∀ f ∈ g.factors, FitsArray f.cards)
    (hkeys : ∀ n, n ∈ a.keys ↔ n ∈ g.freeNames) (h : g.conditional a = .ok g') :
    ∃ c, g.logWeightOf a = .ok c ∧
      ∀ e : Engine, ∃ m, (e.marginals g').answer = .ok m ∧ m.logTotal = c := by
  have hnone : g'.freeNames = [] := by
    refine List.eq_nil_iff_forall_not_mem.2 fun n hn => ?_
    obtain ⟨hfree, hout⟩ := (mem_freeNames_conditional h).1 hn
    exact hout ((hkeys n).2 hfree)
  have hsame : g.logWeightOf a = g'.logWeightOf (OrderedMap.empty : OrderedMap String Int) := by
    obtain ⟨observed, ks, -, hks, rfl⟩ := of_conditional h
    refine logWeightFrom_of_conditional (mapM_eq_ok_iff.1 hks) hfits (fun f hf n hn => ?_) _ _
    obtain ⟨v, hv, rfl⟩ := List.mem_map.1 hn
    exact (hkeys v.name).2 (mem_freeAxes.1 (hg.within f hf v hv)).1
  obtain ⟨c, hc⟩ := exists_logWeightFrom (OrderedMap.empty : OrderedMap String Int)
    ((hg.conditional h).axes_eq_nil hnone) (WeightScale.one : L)
  refine ⟨c, hsame.trans hc, fun e => ?_⟩
  rw [Engine.answer_of_no_names hnone, logWeightOf, hc]
  exact ⟨_, rfl, rfl⟩

omit [WeightScale W] [WeightScale L] [LogConversion W L] in
/-- An assignment of the free variables of a graph covers its factors. -/
theorem Sound.coveredBy (hg : g.Sound) (hfits : ∀ f ∈ g.factors, FitsArray f.cards)
    (hkeys : ∀ n, n ∈ a.keys ↔ n ∈ g.freeNames) (hback : ¬ CountsBack g.freeAxes a) :
    ∀ f ∈ g.factors, f.CoveredBy a := by
  intro f hf
  constructor
  · exact hfits f hf
  · intro n hn
    obtain ⟨v, hv, rfl⟩ := List.mem_map.1 hn
    exact (hkeys v.name).2 (mem_freeAxes.1 (hg.within f hf v hv)).1
  · intro h
    exact hback (h.mono (hg.within f hf))

omit [WeightScale W] [WeightScale L] [LogConversion W L] in
/-- If every free variable is looked at, all states are looked at. -/
theorem Sound.inStates_iff_of_lookedAt (hg : g.Sound) {seen : List (Factor W L)}
    (hseen : ∀ f ∈ seen, f ∈ g.factors) (hall : ∀ n ∈ g.freeNames, ∃ f ∈ seen, n ∈ f.names) :
    (∀ f ∈ seen, InStates f.scope.axes a) ↔ InStates g.freeAxes a := by
  constructor
  · intro h v hv
    obtain ⟨f, hf, hn⟩ := hall v.name (mem_freeAxes.1 hv).1
    exact h f hf v ((hg.within f (hseen f hf)).mem_of_name hg.freeNames_nodup hv hn)
  · intro h f hf
    exact h.mono (hg.within f (hseen f hf))

end FactorGraph

open FactorGraph

/-- Looking up agrees with restricting. A factor that an array can hold has a weight at an
assignment of its variables exactly if it can be restricted to it, and then this weight is what is
left, as long as no state counts from the last one. If a graph can be restricted to an assignment of
its free variables, it has a joint weight there, which is the total that any engine reports for the
restricted graph. As long as no state counts from the last one, it has a joint weight exactly if the
factors that are looked at can be restricted; if they have all free variables between them, exactly
if the graph can be restricted. -/
theorem lookups_match_restrictions (W L : Type) [WeightScale W] [WeightScale L] [LogConversion W L]
    (a : OrderedMap String σ) :
    (∀ f : Factor W L, f.CoveredBy a →
      ((∃ w, f.weightOf a = .ok w) ↔ ∃ k, f.conditional a = .ok k) ∧
      ∀ w k, f.weightOf a = .ok w → f.conditional a = .ok k →
        k.names = [] ∧ k.weights.toList = [w]) ∧
    ∀ g : FactorGraph W L, g.Reachable → (∀ f ∈ g.factors, FitsArray f.cards) → a.keys.Nodup →
      (∀ n, n ∈ a.keys ↔ n ∈ g.freeNames) →
      (∀ g', g.conditional a = .ok g' → ∃ c, g.logWeightOf a = .ok c ∧
        ∀ e : Engine, ∃ m, (e.marginals g').answer = .ok m ∧ m.logTotal = c) ∧
      (¬ CountsBack g.freeAxes a →
        ((∃ c, g.logWeightOf a = .ok c) ↔
          ∀ f ∈ lookedAt a g.factors WeightScale.one, InStates f.scope.axes a) ∧
        ((∀ n ∈ g.freeNames, ∃ f ∈ lookedAt a g.factors WeightScale.one, n ∈ f.names) →
          ((∃ c, g.logWeightOf a = .ok c) ↔ ∃ g', g.conditional a = .ok g'))) := by
  constructor
  · intro f hf
    constructor
    · rw [hf.exists_weightOf_iff, Factor.exists_conditional_iff]
    · intro w k hw hk
      obtain ⟨hnames, v, hv, hleft⟩ := Factor.weights_of_conditional hf.fits hf.cover hk
      cases hw.symm.trans hv
      exact ⟨hnames, hleft⟩
  · intro g hg hfits hnodup hkeys
    constructor
    · intro g' h
      exact hg.sound.logWeightOf_of_conditional hfits hkeys h
    · intro hback
      have hlooked : (∃ c, g.logWeightOf a = .ok c) ↔
          ∀ f ∈ lookedAt a g.factors WeightScale.one, InStates f.scope.axes a :=
        exists_logWeightFrom_iff (hg.sound.coveredBy hfits hkeys hback) WeightScale.one
      constructor
      · exact hlooked
      · intro hall
        rw [hlooked, hg.sound.inStates_iff_of_lookedAt (fun f hf => mem_of_mem_lookedAt hf) hall,
          hg.sound.conditional_eq_ok_iff hnodup, admits_iff_inStates hnodup hkeys]

end Assigned

open CliqueTree FactorGraph in
/-- The weights of two factors that share a variable, at one joint state of the three variables. -/
theorem lookups_match_restrictions_pairOfFactors :
    ∃ (f k : Factor ℚ≥0 (FormalLog ℚ≥0)) (g g' : FactorGraph ℚ≥0 (FormalLog ℚ≥0))
      (a : OrderedMap String Int) (c : FormalLog ℚ≥0),
      f = pairFactor "A" "B" 1 0 2 3 ∧ ofFactors pairOfFactors = .ok g ∧
      a = OrderedMap.ofList [("A", 1), ("B", 1), ("C", 0)] ∧
      f.weightOf a = .ok 3 ∧ f.conditional a = .ok k ∧ k.names = [] ∧ k.weights.toList = [3] ∧
      g.conditional a = .ok g' ∧ g.logWeightOf a = .ok c ∧ LogConversion.exp c = (21 : ℚ≥0) ∧
      ∀ e : Engine, ∃ m, (e.marginals g').answer = .ok m ∧ m.logTotal = c := by
  let f : Factor ℚ≥0 (FormalLog ℚ≥0) := pairFactor "A" "B" 1 0 2 3
  let a : OrderedMap String Int := OrderedMap.ofList [("A", 1), ("B", 1), ("C", 0)]
  obtain ⟨w, hw, hthree⟩ := exists_of_passes (x := f.weightOf a) (fun w => decide (w = 3))
    (by decide +kernel)
  cases of_decide_eq_true hthree
  obtain ⟨g, hg, hcheck⟩ := exists_of_passes (x := ofFactors pairOfFactors)
    (fun g => decide (g.freeNames = a.keys) && decide (∀ f ∈ g.factors, FitsArray f.cards) &&
      (Table.observedOn a g.freeAxes).toBool &&
      decide (∀ n ∈ g.freeNames, ∃ f ∈ lookedAt a g.factors WeightScale.one, n ∈ f.names) &&
      passes (fun c => decide (LogConversion.exp c = (21 : ℚ≥0))) (g.logWeightOf a))
    (by decide +kernel)
  simp only [Bool.and_eq_true, decide_eq_true_eq] at hcheck
  obtain ⟨⟨⟨⟨hnames, hfits⟩, hobserved⟩, hall⟩, hvalue⟩ := hcheck
  obtain ⟨observed, hobserved⟩ := exists_of_toBool hobserved
  obtain ⟨c, hc, hexp⟩ := exists_of_passes _ hvalue
  have hback : ¬ CountsBack g.freeAxes a := (InStates.of_observedOn hobserved).not_countsBack
  obtain ⟨seen, hseen⟩ : ∃ seen, Table.observedOn a f.scope.axes = .ok seen :=
    exists_of_toBool (by decide +kernel)
  have hf : f.CoveredBy a := by
    constructor
    · decide +kernel
    · decide +kernel
    · exact (InStates.of_observedOn hseen).not_countsBack
  obtain ⟨hfactor, hgraph⟩ := lookups_match_restrictions ℚ≥0 (FormalLog ℚ≥0) a
  obtain ⟨hiff, hleft⟩ := hfactor f hf
  obtain ⟨k, hk⟩ := hiff.1 ⟨3, hw⟩
  obtain ⟨hscalar, hlist⟩ := hleft 3 k hw hk
  obtain ⟨htotal, hexists⟩ := hgraph g (.ofFactors hg) hfits (by decide) fun n => by rw [hnames]
  obtain ⟨g', hg'⟩ := ((hexists hback).2 hall).1 ⟨c, hc⟩
  obtain ⟨d, hd, hreported⟩ := htotal g' hg'
  cases hc.symm.trans hd
  exact ⟨f, k, g, g', a, c, rfl, hg, rfl, hw, hk, hscalar, hlist, hg', hc,
    of_decide_eq_true hexp, hreported⟩

open FactorGraph in
/-- The state of a variable that no factor has is not looked at, though the graph cannot be
restricted to it. -/
theorem unread_without_factor :
    ∃ (g h : FactorGraph ℚ≥0 (FormalLog ℚ≥0)) (a : OrderedMap String Int) (c : FormalLog ℚ≥0),
      ofFactors [.uniformOver "A" 2] = .ok h ∧ h.addVariable "B" (.count 2) = .ok g ∧
      g.Reachable ∧ g.conditioned = OrderedMap.empty ∧ g.states.keys = ["A", "B"] ∧
      a = OrderedMap.ofList [("A", 0), ("B", 5)] ∧ g.logWeightOf a = .ok c ∧
      g.conditional a = .error (.stateOutOfRange "5" "B" 2) := by
  let a : OrderedMap String Int := OrderedMap.ofList [("A", 0), ("B", 5)]
  obtain ⟨h, hh, hcheck⟩ := exists_of_passes
    (x := ofFactors [.uniformOver "A" 2])
    (fun h : FactorGraph ℚ≥0 (FormalLog ℚ≥0) => passes (fun g : FactorGraph ℚ≥0 (FormalLog ℚ≥0) =>
      decide (g.states.keys = ["A", "B"]) && (g.logWeightOf a).toBool &&
      failsWith (.stateOutOfRange "5" "B" 2) (g.conditional a)) (h.addVariable "B" (.count 2)))
    (by decide +kernel)
  obtain ⟨g, hg, hcheck⟩ := exists_of_passes _ hcheck
  simp only [Bool.and_eq_true, decide_eq_true_eq] at hcheck
  obtain ⟨⟨hkeys, hlooked⟩, hrefused⟩ := hcheck
  obtain ⟨c, hc⟩ := exists_of_toBool hlooked
  have hunobserved : g.conditioned = OrderedMap.empty := by
    obtain ⟨-, -, rfl⟩ := of_addVariable hg
    exact (unobserved_of_ofFactors hh).1
  exact ⟨g, h, a, c, hh, hg, .addVariable (.ofFactors hh) hg, hunobserved, hkeys, rfl, hc,
    eq_error_of_failsWith hrefused⟩

end ExactInference
