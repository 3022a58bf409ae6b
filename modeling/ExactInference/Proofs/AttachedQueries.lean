import ExactInference.Proofs.AnyQueries
import ExactInference.Proofs.AttachedVariables
import ExactInference.Proofs.DistributiveLaw

/-!
# Queries for variables that are observed later

A query that names newly observed variables besides others is answered like the query for the
others, at the states that the new variables were given, and with zero at all their other states.
The answer is a product with one more point mass, so it can only be refused for its size: if no
table can have all its states.
-/

namespace ExactInference

variable {W L : Type}

namespace MarginalSet

variable {m m' : MarginalSet W L} {f h r : Factor W L} {names us vs : List String}

/-- The number of states of an observed variable. -/
def cardOf (m : MarginalSet W L) (v : String) : ℕ := ((m.cards.get? v).getD 0).toNat

/-- Whether a table can have the states of a factor and of some observed variables. -/
def FitsSpread (m : MarginalSet W L) (vs : List String) (f : Factor W L) : Prop :=
  FitsTable (f.scope.cards ++ vs.map m.cardOf)

/-- The states of observed variables are natural numbers below their numbers of states. -/
theorem WellObserved.exists_state (hm : m.WellObserved)
    (hvs : ∀ v ∈ vs, v ∈ m.conditioned.keys) : ∃ state : String → ℕ, ∀ v ∈ vs,
      m.conditioned.get? v = some (state v : Int) ∧ m.cards.get? v = some (m.cardOf v : Int) ∧
        state v < m.cardOf v := by
  refine ⟨fun v => ((m.conditioned.get? v).getD 0).toNat, fun v hv => ?_⟩
  obtain ⟨s, hs⟩ := OrderedMap.exists_get?_of_mem_keys (hvs v hv)
  obtain ⟨n, hn, hlow, hlt⟩ := hm v s hs
  have hcard : (m.cardOf v : Int) = n := by
    rw [cardOf, hn, Option.getD_some]
    exact Int.toNat_of_nonneg (by omega)
  have hstate : (((m.conditioned.get? v).getD 0).toNat : Int) = s := by
    rw [hs]
    exact Int.toNat_of_nonneg hlow
  refine ⟨hs.trans (congrArg some hstate.symm), hn.trans (congrArg some hcard.symm),
    Int.ofNat_lt.1 ?_⟩
  rw [hcard]
  exact hstate.trans_lt hlt

variable {g : FactorGraph W L} {v : String}

/-- The variables of a call that cannot be attached. -/
theorem not_attachable_iff {cards : OrderedMap String Int} {s : Int} :
    ¬ m.Attachable cards (v, s) ↔ v ∈ m.names ∨ cards.get? v = none ∨
      ∃ n, cards.get? v = some n ∧ ¬ (0 ≤ s ∧ s < n) := by
  rw [Attachable, not_and_or, not_not]
  refine or_congr_right ?_
  cases cards.get? v with
  | none => simp
  | some n => simp

variable [WeightScale W] [WeightScale L] [LogConversion W L]

/-- Spread a factor over observed variables. -/
def spread (m : MarginalSet W L) (vs : List String) (r : Factor W L) : Except Fault (Factor W L) :=
  if vs.isEmpty then .ok r else do r.product (← m.pointMass vs)

theorem marginal_eq_spread (m : MarginalSet W L) (names : List String) :
    m.marginal names = m.freeMarginal (names.filter fun v => !m.conditioned.contains v)
      >>= m.spread (names.filter m.conditioned.contains) := rfl

omit [WeightScale L] [LogConversion W L] in
/-- A point mass that was made is over different variables. -/
theorem nodup_of_pointMass {k : Factor W L} (hk : m.pointMass vs = .ok k) : vs.Nodup := by
  unfold pointMass at hk
  dsimp only at hk
  split at hk
  · obtain ⟨t, ht, -⟩ := map_eq_ok_iff.1 hk
    obtain ⟨-, -, ht⟩ := bind_eq_ok_iff.1 ht
    obtain ⟨key, -, ht⟩ := bind_eq_ok_iff.1 ht
    obtain ⟨states, -, ht⟩ := bind_eq_ok_iff.1 ht
    obtain ⟨scope, hscope, -⟩ := bind_eq_ok_iff.1 ht
    unfold Scope.ofNames? at hscope
    split at hscope
    next hlength =>
      dsimp only at hscope
      split at hscope
      next hnodup =>
        rw [List.map_map] at hnodup
        exact (List.map_fst_zip hlength.le) ▸ hnodup
      next => cases hscope
    next => cases hscope
  · cases hk

/-- A factor that was spread was spread over different variables. -/
theorem nodup_of_spread (hf : m.spread vs r = .ok f) : vs.Nodup := by
  by_cases hne : vs = []
  · exact hne ▸ List.nodup_nil
  · rw [spread, if_neg fun he => hne (List.isEmpty_iff.1 he)] at hf
    obtain ⟨k, hk, -⟩ := bind_eq_ok_iff.1 hf
    exact nodup_of_pointMass hk

/-- Names that have an answer are covered. -/
theorem mem_names_of_marginal (hf : m.marginal names = .ok f) {v : String} (hv : v ∈ names) :
    v ∈ m.names := by
  by_cases hobserved : m.conditioned.contains v = true
  · exact mem_names_of_mem_conditioned ((OrderedMap.contains_iff_mem_keys _ _).1 hobserved)
  · have hfree : v ∈ names.filter fun v => !m.conditioned.contains v :=
      List.mem_filter.2 ⟨hv, by simpa using hobserved⟩
    obtain ⟨r, hr, -⟩ := bind_eq_ok_iff.1 hf
    by_cases hcovered : m.Uncovered (names.filter fun v => !m.conditioned.contains v)
    · cases hcovered.freeMarginal_eq_error.symm.trans hr
    · have hsome : ∃ f ∈ m.factors, v ∈ f.names := by
        by_contra hno
        exact hcovered ⟨List.ne_nil_of_mem hfree, fun f hf hall => hno ⟨f, hf, hall v hfree⟩⟩
      exact mem_names.2 (Or.inl hsome)

/-- Observed names at the end of a request belong to its observed part. -/
theorem marginal_append (hvs : ∀ v ∈ vs, v ∈ m.conditioned.keys) (names : List String) :
    m.marginal (names ++ vs) = m.freeMarginal (names.filter fun v => !m.conditioned.contains v)
      >>= m.spread (names.filter m.conditioned.contains ++ vs) := by
  have hcontains : ∀ v ∈ vs, m.conditioned.contains v = true := fun v hv =>
    (OrderedMap.contains_iff_mem_keys _ _).2 (hvs v hv)
  have hnone : (vs.filter fun v => !m.conditioned.contains v) = [] :=
    List.filter_eq_nil_iff.2 fun v hv => by simp [hcontains v hv]
  rw [marginal_eq_spread, List.filter_append, hnone, List.append_nil, List.filter_append,
    (List.filter_eq_self (l := vs)).2 hcontains]

/-- In the marginals of a graph every observed variable is in one of its states. -/
theorem ExactFor.wellObserved (h : ExactFor g m) (hg : FactorGraph.Reachable g)
    (hcards : m.cards = Engine.observedCards g) : m.WellObserved := by
  intro v s hs
  rw [h.conditioned_eq] at hs
  have hv := OrderedMap.mem_keys_of_get? hs
  obtain ⟨k, hk, hlt, -⟩ := hg.exists_observed hv
  obtain rfl := Option.some.inj (hs.symm.trans hk)
  refine ⟨g.stateCountOf v, ?_, by omega, by omega⟩
  rw [hcards, Engine.observedCards]
  exact OrderedMap.get?_insertAll_of_mem hv

/-- Their factors are over the free variables of the graph. -/
theorem ExactFor.exists_factor_iff (h : ExactFor g m) :
    (∃ f ∈ m.factors, v ∈ f.names) ↔ v ∈ g.freeNames := by
  refine ⟨?_, h.cover v⟩
  rintro ⟨f, hf, hvf⟩
  exact FactorGraph.map_name_freeAxes g ▸ (h.within f hf).mem_names hvf

variable [Semifield W]

/-- A factor that has the weights of another one where some more variables are in their observed
states, and is zero elsewhere. -/
structure IsSpread (m : MarginalSet W L) (vs : List String) (f h : Factor W L) : Prop where
  /-- The observed variables come last. -/
  axes_eq : h.scope.axes = f.scope.axes ++ vs.map fun v => ⟨v, m.cardOf v⟩
  /-- The weights are those of the other factor at the observed states. -/
  weight_eq : ∀ x, InRange h.scope.axes x →
    h.weightAt x = if ∀ v ∈ vs, m.conditioned.get? v = some (x v : Int) then f.weightAt x else 0

theorem IsSpread.refl (m : MarginalSet W L) (f : Factor W L) : m.IsSpread [] f f :=
  ⟨(List.append_nil _).symm, fun _ _ => (if_pos fun _ hv => absurd hv List.not_mem_nil).symm⟩

theorem IsSpread.cards_eq (hf : m.IsSpread vs f h) :
    h.scope.cards = f.scope.cards ++ vs.map m.cardOf := by
  rw [Scope.cards, Scope.cards, hf.axes_eq, List.map_append, List.map_map]
  rfl

/-- A factor that is spread over two lists is the one over the first list, spread over the
second. -/
theorem IsSpread.rest (hf : m.IsSpread us r f) (hh : m.IsSpread (us ++ vs) r h) :
    m.IsSpread vs f h := by
  have haxes : h.scope.axes = f.scope.axes ++ vs.map fun v => ⟨v, m.cardOf v⟩ := by
    rw [hh.axes_eq, hf.axes_eq, List.map_append, List.append_assoc]
  refine ⟨haxes, fun x hx => ?_⟩
  have hxf : InRange f.scope.axes x := fun a ha => hx a (haxes ▸ List.mem_append_left _ ha)
  rw [hh.weight_eq x hx, hf.weight_eq x hxf]
  simp only [List.forall_mem_append]
  by_cases hvs : ∀ v ∈ vs, m.conditioned.get? v = some (x v : Int)
  · exact (if_congr (and_iff_left hvs) rfl rfl).trans (if_pos hvs).symm
  · exact (if_neg fun hall => hvs hall.2).trans (if_neg hvs).symm

variable [LinearOrder W] [ExactScale W] [ExactLog W L]

/-- A factor can be spread over other variables that are observed, unless no table can have all the
states. -/
theorem WellObserved.yields_spread (hm : m.WellObserved) (hr : r.scope.HasStates)
    (hd : (r.names ++ vs).Nodup) (hvs : ∀ v ∈ vs, v ∈ m.conditioned.keys) :
    Yields (fun fault => fault.isTableLimit = true ∧ vs ≠ [] ∧ ¬ m.FitsSpread vs r)
      (fun f => m.IsSpread vs r f ∧ (vs ≠ [] → m.FitsSpread vs r)) (m.spread vs r) := by
  by_cases hne : vs = []
  · subst hne
    exact .of_eq_ok rfl ⟨.refl m r, fun hno => absurd rfl hno⟩
  obtain ⟨state, hstate⟩ := hm.exists_state hvs
  have hpos : ∀ c ∈ r.scope.cards ++ vs.map m.cardOf, 0 < c := by
    refine List.forall_mem_append.2 ⟨List.forall_mem_map.2 hr, List.forall_mem_map.2 fun v hv => ?_⟩
    exact Nat.zero_lt_of_lt (hstate v hv).2.2
  have hpoint := yields_pointMass_of_states (List.nodup_append.1 hd).2.1
    (fun v hv => (hstate v hv).1) (fun v hv => (hstate v hv).2.1) fun v hv => (hstate v hv).2.2
  rw [spread, if_neg fun he => hne (List.isEmpty_iff.1 he)]
  refine (hpoint.imp (fun fault hf => ⟨hf.1, hne, fun hfit : m.FitsSpread vs r => hf.2
    (hfit.of_sublist (List.sublist_append_right _ _) hpos)⟩) fun k hk => hk).bind fun k hk => ?_
  have hnames : (r.scope.axes ++ k.scope.axes).map Axis.name = r.names ++ vs := by
    rw [List.map_append, hk.1, List.map_map]
    exact congrArg (r.names ++ ·) (List.map_id vs)
  have hcards : (r.scope.axes ++ k.scope.axes).map Axis.card
      = r.scope.cards ++ vs.map m.cardOf := by
    rw [List.map_append, hk.1, List.map_map]
    rfl
  have hsome : k.scope.axes ≠ [] := by
    rw [hk.1]
    exact fun hnil => hne (List.map_eq_nil_iff.1 hnil)
  have hproduct := Factor.yields_product (hnames ▸ hd) hsome fun a ha =>
    hpos a.card (hcards ▸ List.mem_map_of_mem ha)
  rw [hcards] at hproduct
  refine hproduct.imp (fun fault hf => ⟨hf.1, hne, hf.2⟩) fun f hf =>
    ⟨⟨hk.1 ▸ hf.2.1, fun x hx => ?_⟩, fun _ => hf.1⟩
  have hxk : InRange k.scope.axes x := fun a ha =>
    hx a (hf.2.1 ▸ List.mem_append_right _ ha)
  rw [hf.2.2 x hx, hk.2 x hxk, mul_ite, mul_one, mul_zero]
  refine if_congr (forall₂_congr fun v hv => ?_) rfl rfl
  rw [(hstate v hv).1, Option.some.injEq, Int.natCast_inj, eq_comm]

omit [Semifield W] [LinearOrder W] [ExactScale W] [ExactLog W L] in
/-- A marginal over free variables is over some of the given names, which have states. -/
theorem mem_names_of_freeMarginal (hpos : ∀ f ∈ m.factors, f.scope.HasStates)
    (hr : m.freeMarginal names = .ok r) : (∀ v ∈ r.names, v ∈ names) ∧ r.scope.HasStates := by
  unfold freeMarginal at hr
  split at hr
  · obtain ⟨w, -, rfl⟩ := map_eq_ok_iff.1 hr
    exact ⟨fun _ hv => absurd hv List.not_mem_nil, fun _ ha => absurd ha List.not_mem_nil⟩
  · cases hsource : m.source? names with
    | none =>
      rw [hsource] at hr
      cases hr
    | some f =>
      have hf : f ∈ m.factors := by
        cases hcovering : m.factors.filter fun f => covers f.names names with
        | nil =>
          rw [source?, hcovering] at hsource
          cases hsource
        | cons first rest =>
          have hfirst : first ∈ m.factors.filter fun f => covers f.names names :=
            hcovering ▸ List.mem_cons_self
          obtain ⟨hin, hcover⟩ := List.mem_filter.1 hfirst
          obtain ⟨k, hk, hsource', -⟩ := exists_source? hin (covers_iff.1 hcover)
          exact Option.some.inj (hsource'.symm.trans hsource) ▸ hk
      rw [hsource] at hr
      have hothers : ∀ v ∈ f.names.filter fun v => !names.contains v, v ∈ f.names :=
        fun v hv => (List.mem_filter.1 hv).1
      have hreduced := Factor.eliminate_eq_reduced .sum (hpos f hf) hothers
      obtain rfl := Except.ok.inj (hreduced.symm.trans hr)
      refine ⟨fun v hv => ?_, Factor.hasStates_reduced .sum (hpos f hf) _⟩
      rw [Factor.names, Factor.scope_reduced, Scope.mem_names_keep] at hv
      by_contra hout
      have hother : v ∈ f.names.filter fun v => !names.contains v :=
        List.mem_filter.2 ⟨hv.1, by simpa using hout⟩
      rw [List.contains_iff_mem.2 hother] at hv
      cases hv.2

omit [Semifield W] [LinearOrder W] [ExactScale W] [ExactLog W L] in
/-- An answer is a marginal over variables that are not observed, spread over different ones that
are. -/
theorem exists_of_marginal (hpos : ∀ f ∈ m.factors, f.scope.HasStates)
    (hf : m.marginal names = .ok f) :
    ∃ r, m.freeMarginal (names.filter fun v => !m.conditioned.contains v) = .ok r ∧
      m.spread (names.filter m.conditioned.contains) r = .ok f ∧ r.scope.HasStates ∧
      (∀ v ∈ r.names, v ∉ m.conditioned.keys) ∧ (names.filter m.conditioned.contains).Nodup := by
  obtain ⟨r, hr, hspread⟩ := bind_eq_ok_iff.1 hf
  obtain ⟨hnames, hstates⟩ := mem_names_of_freeMarginal hpos hr
  refine ⟨r, hr, hspread, hstates, fun v hv hin => ?_, nodup_of_spread hspread⟩
  have hfree := (List.mem_filter.1 (hnames v hv)).2
  rw [(OrderedMap.contains_iff_mem_keys _ _).2 hin] at hfree
  cases hfree

/-- If some names have an answer, then with other observed variables they have it as well, spread
over these variables, unless no table can have all the states. -/
theorem WellObserved.yields_marginal_append (hm : m.WellObserved)
    (hpos : ∀ f ∈ m.factors, f.scope.HasStates) (hf : m.marginal names = .ok f) (hd : vs.Nodup)
    (hvs : ∀ v ∈ vs, v ∈ m.conditioned.keys) (hnew : ∀ v ∈ vs, v ∉ names) :
    Yields (fun fault => fault.isTableLimit = true ∧ vs ≠ [] ∧ ¬ m.FitsSpread vs f)
      (fun h => m.IsSpread vs f h ∧ (vs ≠ [] → m.FitsSpread vs f)) (m.marginal (names ++ vs)) := by
  by_cases hne : vs = []
  · subst hne
    rw [List.append_nil]
    exact .of_eq_ok hf ⟨.refl m f, fun hno => absurd rfl hno⟩
  obtain ⟨r, hr, hspread, hstates, hfree, hown⟩ := exists_of_marginal hpos hf
  have hobserved : ∀ v ∈ names.filter m.conditioned.contains, v ∈ m.conditioned.keys := fun v hv =>
    (OrderedMap.contains_iff_mem_keys _ _).1 (List.mem_filter.1 hv).2
  have hall : ∀ v ∈ names.filter m.conditioned.contains ++ vs, v ∈ m.conditioned.keys :=
    List.forall_mem_append.2 ⟨hobserved, hvs⟩
  have hdall : (names.filter m.conditioned.contains ++ vs).Nodup :=
    List.nodup_append'.2 ⟨hown, hd, fun v hv hin => hnew v hin (List.mem_filter.1 hv).1⟩
  have hdown : ∀ {us : List String}, us.Nodup → (∀ v ∈ us, v ∈ m.conditioned.keys) →
      (r.names ++ us).Nodup := fun hus hkeys =>
    List.nodup_append'.2 ⟨r.scope.distinct, hus, fun v hv hin => hfree v hv (hkeys v hin)⟩
  have hf := ((hm.yields_spread hstates (hdown hown hobserved) hobserved).answer_of_eq_ok
    hspread).1
  have hsize : m.FitsSpread (names.filter m.conditioned.contains ++ vs) r ↔ m.FitsSpread vs f := by
    rw [FitsSpread, FitsSpread, hf.cards_eq, List.map_append, List.append_assoc]
  rw [marginal_append hvs, hr]
  refine (hm.yields_spread hstates (hdown hdall hall) hall).imp (fun fault hfault => ?_)
    fun h hh => ?_
  · exact ⟨hfault.1, hne, fun hfit => hfault.2.2 (hsize.2 hfit)⟩
  · exact ⟨hf.rest hh.1, fun _ => hsize.1 (hh.2 fun hnil => hne (List.append_eq_nil_iff.1 hnil).2)⟩

end MarginalSet

namespace Engine

open MarginalSet

variable [Semifield W] [LinearOrder W] [IsStrictOrderedRing W] [CanonicallyOrderedAdd W]
  [WeightScale W] [WeightScale L] [LogConversion W L] [ExactScale W] [ExactLog W L]
  {g : FactorGraph W L} {e : Engine} {m₀ m : MarginalSet W L}

/-- Attaching observed variables to computed marginals. The free variables of the graph and the
observed ones are covered, and none is both. A call is refused just if one of its variables is
covered, or has no number of states, or has a state that it does not have. Else its variables are
observed in their states; one call does the same as single calls in any order. No sequence of calls
changes the total, an observed state or the answer to a query for variables that were covered. A
query that had an answer is answered with any of the new variables as well: by the same weights at
their states and zero elsewhere, unless no table can have all the states. -/
theorem attaching_conserves (hg : g.Reachable) (h : (e.marginals g).answer = .ok m₀)
    (hm : Extends m₀ m) :
    (∀ v, v ∈ m.names ↔ v ∈ g.freeNames ∨ v ∈ m.conditioned.keys) ∧
    (∀ v ∈ g.freeNames, v ∉ m.conditioned.keys) ∧ m.WellObserved ∧
    (∀ values cards : OrderedMap String Int, values.keys.Nodup →
      ((∃ fault, m.addConditional values cards = .error fault) ↔
        ∃ v s, (v, s) ∈ values.entries ∧ (v ∈ g.freeNames ∨ v ∈ m.conditioned.keys ∨
          cards.get? v = none ∨ ∃ n, cards.get? v = some n ∧ ¬ (0 ≤ s ∧ s < n))) ∧
      (∀ m', m.addConditional values cards = .ok m' →
        (∀ v, m'.conditioned.get? v = (values.get? v).or (m.conditioned.get? v)) ∧
        ∀ v ∈ values.keys, m'.cards.get? v = cards.get? v) ∧
      ∀ es, es.Perm values.entries →
        SameAttached (m.addEach cards es) (m.addConditional values cards)) ∧
    ∀ m', Extends m m' → m'.logTotal = m.logTotal ∧ m'.total = m.total ∧
      (∀ v ∈ m.names, m'.conditioned.get? v = m.conditioned.get? v) ∧
      (∀ names, (∀ v ∈ names, v ∈ m.names) → m'.marginal names = m.marginal names) ∧
      ∀ names f, m.marginal names = .ok f → ∀ vs : List String, vs.Nodup →
        (∀ v ∈ vs, v ∈ m'.names ∧ v ∉ m.names) →
        ((∃ fault, m'.marginal (names ++ vs) = .error fault) ↔
          vs ≠ [] ∧ ¬ m'.FitsSpread vs f) ∧
        (∀ fault, m'.marginal (names ++ vs) = .error fault → fault.isTableLimit = true) ∧
        ∀ h, m'.marginal (names ++ vs) = .ok h → m'.IsSpread vs f h := by
  have hexact := exactFor_of_marginals hg h
  have hkeeps := hm.keeps
  have hwell := hm.wellObserved (hexact.wellObserved hg (cards_of_marginals h))
  have hstates : ∀ f ∈ m.factors, f.scope.HasStates := fun f hf a ha =>
    hg.sound.card_pos a (hexact.within f (hkeeps.factors_eq ▸ hf) a ha)
  have hnames : ∀ v, v ∈ m.names ↔ v ∈ g.freeNames ∨ v ∈ m.conditioned.keys := fun v => by
    rw [MarginalSet.mem_names, hkeeps.factors_eq, hexact.exists_factor_iff]
  refine ⟨hnames, fun v hv hin => ?_, hwell, fun values cards hnodup => ⟨?_, fun m' hm' =>
    get?_of_addConditional hnodup hm', fun es hperm => sameAttached_addEach hnodup hperm⟩,
    fun m' hm' => ⟨hm'.keeps.logTotal_eq, ?_, hm'.keeps.get?_conditioned, fun names =>
      hm'.keeps.marginal_eq, fun names f hf vs hd hvs => ?_⟩⟩
  · have hcovered : v ∈ m₀.names := MarginalSet.mem_names.2 (Or.inl (hexact.exists_factor_iff.2 hv))
    rw [← OrderedMap.contains_iff_mem_keys, OrderedMap.contains, hkeeps.get?_conditioned v hcovered,
      hexact.conditioned_eq, FactorGraph.get?_conditioned hv] at hin
    cases hin
  · rw [addConditional_eq_error_iff, Prod.exists]
    refine exists_congr fun v => exists_congr fun s => and_congr_right' ?_
    rw [not_attachable_iff, hnames, or_assoc]
  · rw [MarginalSet.total, MarginalSet.total, hm'.keeps.logTotal_eq]
  · have hcovered : ∀ v ∈ names, v ∈ m.names := fun v hv =>
      mem_names_of_marginal hf hv
    have hsame := (hm'.keeps.marginal_eq hcovered).trans hf
    have hyields := (hm'.wellObserved hwell).yields_marginal_append
      (fun f hf => hstates f (hm'.keeps.factors_eq ▸ hf)) hsame hd
      (fun v hv => hm'.keeps.mem_conditioned (hvs v hv).1 (hvs v hv).2)
      fun v hv hin => (hvs v hv).2 (hcovered v hin)
    cases hanswer : m'.marginal (names ++ vs) with
    | error fault =>
      obtain ⟨hlimit, hlarge⟩ := hyields.fault_of_eq_error hanswer
      refine ⟨iff_of_true ⟨fault, rfl⟩ hlarge, fun fault' he => ?_, fun h hh => ?_⟩
      · cases he
        exact hlimit
      · cases hh
    | ok h =>
      obtain ⟨hspread, hfits⟩ := hyields.answer_of_eq_ok hanswer
      refine ⟨⟨fun hrefused => ?_, fun hlarge => absurd (hfits hlarge.1) hlarge.2⟩,
        fun fault he => ?_, fun h' hh => ?_⟩
      · obtain ⟨fault, he⟩ := hrefused
        cases he
      · cases he
      · cases hh
        exact hspread

/-- A query for a free, an observed and an attached variable. -/
theorem attaching_conserves_islands :
    ∃ g m m' f h, islands = .ok g ∧ (standard.marginals g).answer = .ok m ∧
      m.addConditional (OrderedMap.ofList [("N", (1 : Int))]) (OrderedMap.ofList [("N", 3)])
        = .ok m' ∧
      m.marginal ["E", "B"] = .ok f ∧ m'.marginal (["E", "B"] ++ ["N"]) = .ok h ∧
      m'.IsSpread ["N"] f h := by
  obtain ⟨m, hrun, hcheck⟩ := exists_of_passes
    (x := islands >>= fun g => (standard.marginals g).answer)
    (fun m => (m.marginal ["E", "B"]).toBool && passes
      (fun m' : MarginalSet ℚ≥0 (FormalLog ℚ≥0) => (m'.marginal (["E", "B"] ++ ["N"])).toBool &&
        decide ("N" ∈ m'.names ∧ "N" ∉ m.names))
      (m.addConditional (OrderedMap.ofList [("N", (1 : Int))]) (OrderedMap.ofList [("N", 3)])))
    (by decide +kernel)
  obtain ⟨g, hg, hm⟩ := bind_eq_ok_iff.1 hrun
  rw [Bool.and_eq_true] at hcheck
  obtain ⟨f, hf⟩ := exists_of_toBool hcheck.1
  obtain ⟨m', hm', hcheck'⟩ := exists_of_passes _ hcheck.2
  rw [Bool.and_eq_true, decide_eq_true_eq] at hcheck'
  obtain ⟨h, hh⟩ := exists_of_toBool hcheck'.1
  obtain ⟨-, -, -, -, hall⟩ := attaching_conserves (reachable_of_islands hg) hm .refl
  obtain ⟨-, -, -, -, hspread⟩ := hall m' (.attach .refl (by decide) hm')
  obtain ⟨-, -, hanswer⟩ := hspread ["E", "B"] f hf ["N"] (List.nodup_singleton "N")
    fun v hv => List.mem_singleton.1 hv ▸ hcheck'.2
  exact ⟨g, m, m', f, h, hg, hm, hm', hf, hh, hanswer h hh⟩

/-- Sixty-five variables with one state each can be attached, but there is no table for all of
them. -/
theorem refused_attached_crowd :
    ∃ (m m' : MarginalSet ℚ≥0 (FormalLog ℚ≥0)) (f : Factor ℚ≥0 (FormalLog ℚ≥0)),
      FactorGraph.Reachable (FactorGraph.empty : FactorGraph ℚ≥0 (FormalLog ℚ≥0)) ∧
      (standard.marginals FactorGraph.empty).answer = .ok m ∧
      m.addConditional (OrderedMap.ofList (crowdNames.map fun v => (v, (0 : Int))))
        (OrderedMap.ofList (crowdNames.map fun v => (v, (1 : Int)))) = .ok m' ∧
      m.marginal [] = .ok f ∧ crowdNames.Nodup ∧ (∀ v ∈ crowdNames, v ∈ m'.names ∧ v ∉ m.names) ∧
      m'.marginal ([] ++ crowdNames) = .error (.tooManyAxes 64 65) := by
  obtain ⟨m, hm, hcheck⟩ := exists_of_passes
    (x := (standard.marginals (FactorGraph.empty : FactorGraph ℚ≥0 (FormalLog ℚ≥0))).answer)
    (fun m => (m.marginal []).toBool && passes
      (fun m' : MarginalSet ℚ≥0 (FormalLog ℚ≥0) =>
        failsWith (.tooManyAxes 64 65) (m'.marginal ([] ++ crowdNames)) &&
          decide (∀ v ∈ crowdNames, v ∈ m'.names ∧ v ∉ m.names))
      (m.addConditional (OrderedMap.ofList (crowdNames.map fun v => (v, (0 : Int))))
        (OrderedMap.ofList (crowdNames.map fun v => (v, (1 : Int)))))) (by decide +kernel)
  rw [Bool.and_eq_true] at hcheck
  obtain ⟨f, hf⟩ := exists_of_toBool hcheck.1
  obtain ⟨m', hm', hcheck'⟩ := exists_of_passes _ hcheck.2
  rw [Bool.and_eq_true, decide_eq_true_eq] at hcheck'
  exact ⟨m, m', f, .empty, hm, hm', hf, by decide +kernel, hcheck'.2,
    eq_error_of_failsWith hcheck'.1⟩

end Engine

end ExactInference
