import ExactInference.Proofs.ExactMarginals
import ExactInference.Proofs.PointMasses

/-!
# Queries for any variables

A query names free and observed variables. A factor that covers the free ones is summed down to
them, and the observed ones enter as a point mass. If the set is exact for a graph, then every
factor that covers the free variables gives the same answer: at every state the joint weights of
all joint states that agree with it, and zero where an observed variable is elsewhere. There are
two reasons to refuse a query: no factor covers the free variables, or there is an observed one
and no table can be made that has an entry for every state of the query.
-/

namespace ExactInference

variable {W L : Type}

namespace MarginalSet

variable {g : FactorGraph W L} {m : MarginalSet W L} {names : List String}

/-- A query takes a factor that covers it, if there is one. -/
theorem exists_source? {f : Factor W L} (hf : f ∈ m.factors) (hcover : ∀ n ∈ names, n ∈ f.names) :
    ∃ k ∈ m.factors, m.source? names = some k ∧ ∀ n ∈ names, n ∈ k.names := by
  have hbest : ∀ (fs : List (Factor W L)) (best : Factor W L),
      fs.foldl (fun best g => if g.names.length < best.names.length then g else best) best
        ∈ best :: fs := by
    intro fs
    induction fs with
    | nil => exact fun best => List.mem_cons_self
    | cons f fs ih =>
      intro best
      rw [List.foldl_cons]
      split
      · exact List.mem_cons_of_mem best (ih f)
      · rcases List.mem_cons.1 (ih best) with he | hin
        · rw [he]
          exact List.mem_cons_self
        · exact List.mem_cons_of_mem best (List.mem_cons_of_mem f hin)
  have hf : f ∈ m.factors.filter fun f => covers f.names names :=
    List.mem_filter.2 ⟨hf, covers_iff.2 hcover⟩
  cases hcovering : m.factors.filter fun f => covers f.names names with
  | nil =>
    rw [hcovering] at hf
    exact absurd hf List.not_mem_nil
  | cons first rest =>
    have hin := hbest rest first
    rw [← hcovering, List.mem_filter, covers_iff] at hin
    exact ⟨_, hin.1, by rw [source?, hcovering], hin.2⟩

variable [Semifield W] [LinearOrder W] [CanonicallyOrderedAdd W] [WeightScale W] [WeightScale L]
  [LogConversion W L] [ExactScale W] [ExactLog W L]

/-- A factor of an exact set is summed down to the marginal over any of its variables. -/
theorem ExactFor.exists_marginalized (h : ExactFor g m) (hg : g.Sound) {k : Factor W L}
    (hk : k ∈ m.factors) (hnames : ∀ n ∈ names, n ∈ k.names) :
    ∃ r, k.marginalize (k.names.filter fun v => !names.contains v) = .ok r ∧
      r.scope.Within g.freeAxes ∧ (∀ n, n ∈ r.names ↔ n ∈ names) ∧
      ∀ x, InRange g.freeAxes x → r.weightAt x = g.marginalOver .sum names.toFinset x := by
  have hin := h.within k hk
  have hothers : ∀ n ∈ k.names.filter fun v => !names.contains v, n ∈ k.names := fun n hn =>
    (List.mem_filter.1 hn).1
  have hreduced := Factor.eliminate_eq_ok .sum hg.card_pos hin hothers
  have hsplit : (k.names.filter fun v => !names.contains v).toFinset
      = k.vars \ names.toFinset := by
    ext n
    simp [Factor.mem_vars]
  generalize k.names.filter (fun v => !names.contains v) = others at hothers hreduced hsplit
  have hkept : ∀ n, n ∈ (k.reduced .sum others).names ↔ n ∈ names := by
    intro n
    have hn : n ∈ others ↔ n ∈ k.names ∧ n ∉ names := by
      rw [← List.mem_toFinset, hsplit, Finset.mem_sdiff, Factor.mem_vars, List.mem_toFinset]
    rw [Factor.names, Factor.scope_reduced, Scope.mem_names_keep]
    simp only [List.contains_eq_mem, Bool.not_eq_true', decide_eq_false_iff_not, hn, not_and,
      not_not]
    exact ⟨fun hn => hn.2 hn.1, fun hn => ⟨hnames n hn, fun _ => hn⟩⟩
  have hvars : k.vars ⊆ g.freeNames.toFinset := fun n hn => by
    rw [List.mem_toFinset, ← FactorGraph.map_name_freeAxes]
    exact hin.mem_names (Factor.mem_vars.1 hn)
  have hfewer : names.toFinset ⊆ k.vars := fun n hn =>
    Factor.mem_vars.2 (hnames n (List.mem_toFinset.1 hn))
  refine ⟨k.reduced .sum others, hreduced, ?_, hkept, fun x hx => ?_⟩
  · rw [Factor.scope_reduced]
    exact hin.keep _
  · rw [Factor.weightAt_reduced .sum hg.freeNames_nodup hin hothers hx, hsplit,
      ← hg.collapse_marginalOver_sdiff .sum hfewer hvars]
    refine Mode.collapse_congr .sum fun y hy => ?_
    have hy := inRange_of_mem_variants hg.freeNames_nodup hx hy
    rw [h.weight_eq k hk y (hin.inRange hy), FactorGraph.jointWeightOver_eq]

end MarginalSet

namespace Engine

open CliqueTree

variable [WeightScale W] [WeightScale L] [LogConversion W L] {g : FactorGraph W L} {e : Engine}

/-- What comes out of a tree was taken out after the messages were passed. -/
theorem exists_of_throughTree {α : Type} {mode : Mode} {last : String}
    {extract : List Int → PassingStep W L α} {a : α}
    (h : (e.throughTree mode last g extract).answer = .ok a) :
    ∃ t roots p q, (ofGraph e.useHint g).answer = .ok t ∧
      Passing.run mode ⟨t, []⟩ = .ok roots p ∧ extract roots ⟨p.tree, []⟩ = .ok a q := by
  cases ht : (ofGraph e.useHint g).answer with
  | error fault =>
    rw [throughTree_of_no_tree ht] at h
    cases h
  | ok t =>
    cases hrun : Passing.run mode ⟨t, []⟩ with
    | error fault p =>
      rw [throughTree_of_no_run ht hrun] at h
      cases h
    | ok roots p =>
      cases hq : extract roots ⟨p.tree, []⟩ with
      | error fault q =>
        rw [throughTree_of_error ht hrun hq] at h
        cases h
      | ok b q =>
        rw [throughTree_of_ok ht hrun hq] at h
        cases h
        exact ⟨t, roots, p, q, rfl, hrun, hq⟩

/-- Assembling marginals passes the numbers of states on. -/
theorem cards_of_assemble {t : CliqueTree W L} {ms : List (Factor W L)} {given : List Int}
    {conditioned cards : OrderedMap String Int} {m : MarginalSet W L}
    (h : Passing.assemble t ms given conditioned cards = .ok m) : m.cards = cards := by
  unfold Passing.assemble at h
  obtain ⟨-, h⟩ := refuse_eq_ok_iff.1 h
  obtain ⟨c, -, h⟩ := bind_eq_ok_iff.1 h
  obtain ⟨-, h⟩ := refuse_eq_ok_iff.1 h
  by_cases hmany : (given.foldl addOnce []).length > 1
  · rw [if_pos hmany] at h
    obtain ⟨fs, -, h⟩ := bind_eq_ok_iff.1 h
    cases h
    rfl
  · rw [if_neg hmany] at h
    cases h
    rfl

/-- The marginals of a graph know the numbers of states of its observed variables. -/
theorem cards_of_marginals {m : MarginalSet W L} (h : (e.marginals g).answer = .ok m) :
    m.cards = observedCards g := by
  by_cases hfree : g.freeNames = []
  · simp only [marginals, hfree, List.isEmpty_nil, if_true, Traced.answer_ofExcept] at h
    obtain ⟨c, -, h⟩ := bind_eq_ok_iff.1 h
    cases h
    rfl
  cases hsole : soleFactor? g with
  | some f =>
    rw [answer_of_sole hfree hsole] at h
    obtain ⟨c, -, h⟩ := bind_eq_ok_iff.1 h
    split at h
    · cases h
    · cases h
      rfl
  | none =>
    rw [marginals_eq_throughTree hfree hsole] at h
    obtain ⟨t, roots, p, q, -, -, hextract⟩ := exists_of_throughTree h
    unfold Passing.extractMarginals at hextract
    cases hms : (Passing.takeMarginals : PassingStep W L _) ⟨p.tree, []⟩ with
    | error fault r =>
      rw [PassingStep.bind_of_error hms] at hextract
      cases hextract
    | ok ms r =>
      rw [PassingStep.bind_of_ok hms] at hextract
      cases hset : Passing.assemble r.tree ms roots g.conditioned (observedCards g) with
      | error fault =>
        rw [PassingStep.inspect_of_error hset] at hextract
        cases hextract
      | ok m' =>
        rw [PassingStep.inspect_of_ok hset] at hextract
        cases hextract
        exact cards_of_assemble hset

end Engine

namespace FactorGraph

variable {g : FactorGraph W L} {names : List String}

/-- The requested names that are not observed. -/
def unobserved (g : FactorGraph W L) (names : List String) : List String :=
  names.filter fun n => !g.conditioned.contains n

/-- The requested names that are observed. -/
def observedOf (g : FactorGraph W L) (names : List String) : List String :=
  names.filter g.conditioned.contains

/-- Whether an observed variable is requested and no table can have all requested states. -/
def TooLarge (g : FactorGraph W L) (names : List String) : Prop :=
  (∃ n ∈ names, n ∈ g.conditioned.keys) ∧ ¬ FitsTable (names.map g.stateCountOf)

/-- What a factor has to be like to answer a request. -/
structure Answers [Semifield W] [WeightScale W] [WeightScale L] [LogConversion W L]
    (g : FactorGraph W L) (names : List String) (f : Factor W L) : Prop where
  /-- Its variables are the requested ones. -/
  names_perm : f.names.Perm names
  /-- They have their numbers of states. -/
  card_eq : ∀ a ∈ f.scope.axes, a.card = g.stateCountOf a.name
  /-- At a state that has every observed variable in its observed state, its weight is that of all
  joint states of the free variables that agree with the state, added up. -/
  weight_eq : ∀ x, InRange f.scope.axes x →
    (∀ n ∈ names, ∀ i, g.conditioned.get? n = some i → i = x n) →
    f.weightAt x = g.jointWeightOver (g.freeAxes.filter fun a => a.name ∉ names) x
  /-- At all other states it is zero. -/
  weight_eq_zero : ∀ x, InRange f.scope.axes x →
    ∀ n ∈ names, ∀ i, g.conditioned.get? n = some i → i ≠ x n → f.weightAt x = 0

theorem mem_unobserved {n : String} :
    n ∈ g.unobserved names ↔ n ∈ names ∧ n ∉ g.conditioned.keys := by
  rw [unobserved, List.mem_filter, ← OrderedMap.contains_iff_mem_keys]
  simp

theorem mem_observedOf {n : String} :
    n ∈ g.observedOf names ↔ n ∈ names ∧ n ∈ g.conditioned.keys := by
  rw [observedOf, List.mem_filter, OrderedMap.contains_iff_mem_keys]

/-- A request consists of its unobserved and its observed names. -/
theorem append_perm (g : FactorGraph W L) (names : List String) :
    (g.unobserved names ++ g.observedOf names).Perm names :=
  List.perm_append_comm.trans (List.filter_append_perm _ names)

/-- A marginal only adds up over the free variables, so observed names make no difference to it. -/
theorem marginalOver_unobserved [Semifield W] [LinearOrder W] [WeightScale W] [WeightScale L]
    [LogConversion W L] [ExactScale W] (g : FactorGraph W L) (names : List String)
    (x : JointState) :
    g.marginalOver .sum (g.unobserved names).toFinset x
      = g.jointWeightOver (g.freeAxes.filter fun a => a.name ∉ names) x := by
  rw [← jointWeightOver_eq]
  refine congrArg (g.jointWeightOver · x) (List.filter_congr fun a ha => decide_eq_decide.2 ?_)
  have hfree := (mem_freeNames.1 (mem_freeAxes.1 ha).1).2
  rw [List.mem_toFinset, mem_unobserved]
  exact not_congr (and_iff_left hfree)

/-- An observed state is a state of its variable. -/
theorem Reachable.exists_observed [WeightScale W] [WeightScale L]
    (hg : g.Reachable) {n : String} (hn : n ∈ g.conditioned.keys) :
    ∃ s : ℕ, g.conditioned.get? n = some (s : Int) ∧ s < g.stateCountOf n ∧ n ∈ g.states.keys := by
  obtain ⟨i, hi⟩ := OrderedMap.exists_get?_of_mem_keys hn
  obtain ⟨labels, hlabels, hlow, hlt⟩ := hg.observed_lt hi
  obtain ⟨s, rfl⟩ := Int.eq_ofNat_of_zero_le hlow
  refine ⟨s, hi, ?_, OrderedMap.mem_keys_of_get? hlabels⟩
  rw [stateCountOf, hlabels]
  exact Int.ofNat_lt.1 hlt

end FactorGraph

namespace MarginalSet

open FactorGraph

variable [WeightScale W] [WeightScale L] [LogConversion W L] {g : FactorGraph W L}
  {m : MarginalSet W L} {names : List String}

/-- Put the point mass of the observed variables to a marginal over the free ones. -/
def withObserved (m : MarginalSet W L) (names : List String) (r : Factor W L) :
    Except Fault (Factor W L) := do
  let observed := names.filter m.conditioned.contains
  if observed.isEmpty then .ok r else r.product (← m.pointMass observed)

/-- A query is answered for the free variables first. -/
theorem marginal_eq (m : MarginalSet W L) (names : List String) :
    m.marginal names = m.freeMarginal (names.filter fun v => !m.conditioned.contains v)
      >>= m.withObserved names := rfl

/-- The set with only one of its factors. -/
def only (m : MarginalSet W L) (k : Factor W L) : MarginalSet W L := { m with factors := [k] }

/-- A marginal of the graph over the unobserved names of a request. -/
structure IsFreePart (g : FactorGraph W L) (names : List String) (r : Factor W L) : Prop where
  /-- Its axes are those of free variables. -/
  within : r.scope.Within g.freeAxes
  /-- Its variables are the unobserved names. -/
  mem_names : ∀ n, n ∈ r.names ↔ n ∈ g.unobserved names
  /-- Its weights are the joint weights of the joint states that agree, added up. -/
  weight_eq : ∀ x, InRange g.freeAxes x →
    r.weightAt x = g.jointWeightOver (g.freeAxes.filter fun a => a.name ∉ names) x

/-- Its names are the unobserved ones. -/
theorem IsFreePart.names_perm {r : Factor W L} (hr : IsFreePart g names r) (hd : names.Nodup) :
    r.names.Perm (g.unobserved names) :=
  (List.perm_ext_iff_of_nodup r.scope.distinct (hd.filter _)).2 hr.mem_names

/-- Every requested variable has a state. -/
theorem IsFreePart.stateCountOf_pos (hg : FactorGraph.Reachable g) {r : Factor W L}
    (hr : IsFreePart g names r) : ∀ n ∈ names, 0 < g.stateCountOf n := by
  intro n hn
  by_cases hc : n ∈ g.conditioned.keys
  · obtain ⟨s, -, -, hdeclared⟩ := hg.exists_observed hc
    exact hg.sound.stateCountOf_pos hdeclared
  · obtain ⟨a, ha, rfl⟩ := List.mem_map.1 ((hr.mem_names n).2 (mem_unobserved.2 ⟨hn, hc⟩))
    rw [← (mem_freeAxes.1 (hr.within a ha)).2]
    exact hg.sound.card_pos a (hr.within a ha)

/-- Whether there are names of which no factor has all. -/
def Uncovered (m : MarginalSet W L) (names : List String) : Prop :=
  names ≠ [] ∧ ∀ f ∈ m.factors, ¬ ∀ n ∈ names, n ∈ f.names

/-- If no factor covers the names, then there is no marginal over them. -/
theorem Uncovered.freeMarginal_eq_error (h : m.Uncovered names) :
    m.freeMarginal names = .error (.notCovered names) := by
  have hnone : m.factors.filter (fun f => covers f.names names) = [] :=
    List.filter_eq_nil_iff.2 fun f hf => fun hc => h.2 f hf (covers_iff.1 hc)
  rw [MarginalSet.freeMarginal, if_neg fun he => h.1 (List.isEmpty_iff.1 he), source?, hnone]

/-- If a factor covers the names, then it is enough for their marginal. -/
theorem freeMarginal_only {k : Factor W L} (hne : names ≠ []) (hcover : ∀ n ∈ names, n ∈ k.names) :
    (m.only k).freeMarginal names = k.marginalize (k.names.filter fun v => !names.contains v) := by
  have hcovers : (m.only k).factors.filter (fun f => covers f.names names) = [k] := by
    simp only [only, List.filter_singleton, covers_iff.2 hcover, cond_true]
  rw [freeMarginal, if_neg fun he => hne (List.isEmpty_iff.1 he), source?, hcovers]
  rfl

theorem ExactFor.unobserved_eq (h : ExactFor g m) :
    (names.filter fun v => !m.conditioned.contains v) = g.unobserved names := by
  rw [h.conditioned_eq]
  rfl

variable [Semifield W]

/-- A point mass of the observed names of a request at their observed states. -/
structure IsPointMass (g : FactorGraph W L) (names : List String) (k : Factor W L) : Prop where
  /-- Its axes are those of the observed names. -/
  axes_eq : k.scope.axes = (g.observedOf names).map fun n => ⟨n, g.stateCountOf n⟩
  /-- Its weight is one where all of them are in their observed states, and zero elsewhere. -/
  weight_eq : ∀ x, InRange k.scope.axes x → k.weightAt x
    = if ∀ n ∈ g.observedOf names, g.conditioned.get? n = some (x n : Int) then 1 else 0

variable [LinearOrder W] [ExactScale W]

/-- The point mass of variables with known states is given, unless no table can have all their
states. -/
theorem yields_pointMass_of_states (hd : names.Nodup) {card state : String → ℕ}
    (hstate : ∀ n ∈ names, m.conditioned.get? n = some (state n : Int))
    (hcard : ∀ n ∈ names, m.cards.get? n = some (card n : Int))
    (hlt : ∀ n ∈ names, state n < card n) :
    Yields (fun fault => fault.isTableLimit = true ∧ ¬ FitsTable (names.map card))
      (fun k => (k.scope.axes = names.map fun n => ⟨n, card n⟩) ∧ ∀ x, InRange k.scope.axes x →
        k.weightAt x = if ∀ n ∈ names, x n = state n then 1 else 0)
      (m.pointMass names) := by
  have hmissing : (names.filter fun n => !m.cards.contains n) = [] := by
    refine List.filter_eq_nil_iff.2 fun n hn => ?_
    simp [OrderedMap.contains, hcard n hn]
  have hcounts : names.filterMap m.cards.get? = names.map fun n => (card n : Int) := by
    rw [List.filterMap_congr hcard]
    exact congrFun List.filterMap_eq_map _
  have hpos : ∀ c ∈ names.map card, 0 < c := fun c hc => by
    obtain ⟨n, hn, rfl⟩ := List.mem_map.1 hc
    exact Nat.zero_lt_of_lt (hlt n hn)
  have hchecked := yields_checkCards hpos
  rw [List.map_map] at hchecked
  rw [pointMass]
  simp only [hmissing, List.isEmpty_nil, if_true, hcounts]
  cases hfit : checkCards (names.map fun n => (card n : Int)) with
  | error fault =>
    have hrefused : Table.indicator names (names.map fun n => (card n : Int)) m.conditioned
        = (.error fault : Except Fault (Table W)) := by
      rw [Table.indicator, hfit]
      rfl
    rw [hrefused]
    exact hchecked.fault_of_eq_error hfit
  | ok _ =>
    obtain ⟨t, ht, haxes, hweight⟩ := Table.indicator_spec (W := W) hd card state hlt hfit
      (a := m.conditioned) hstate
    rw [ht]
    refine ⟨haxes, fun x hx => ?_⟩
    rw [Factor.weightAt_plain, hweight x hx]

/-- The weights of a free part only depend on its own variables. -/
theorem IsFreePart.weightAt_eq (hg : g.Sound) {r : Factor W L} (hr : IsFreePart g names r)
    {x : JointState} (hx : InRange r.scope.axes x) :
    r.weightAt x = g.jointWeightOver (g.freeAxes.filter fun a => a.name ∉ names) x := by
  obtain ⟨y, hy, hyx⟩ := exists_inRange hg.card_pos hg.freeNames_nodup hr.within hx
  have hsame : r.weightAt x = r.weightAt y :=
    r.reads_weightAt x y fun n hn => (hyx n (Factor.mem_vars.1 hn)).symm
  rw [hsame, hr.weight_eq y hy, ← g.marginalOver_unobserved, ← g.marginalOver_unobserved]
  exact hg.reads_marginalOver .sum _ y x fun n hn =>
    hyx n ((hr.mem_names n).2 (List.mem_toFinset.1 hn))

section Joined

variable {r k : Factor W L} (hr : IsFreePart g names r) (hk : IsPointMass g names k)

include hr hk

omit [LinearOrder W] [ExactScale W] in
/-- A free part and a point mass together have the requested names. -/
theorem IsFreePart.joined_perm (hd : names.Nodup) :
    ((r.scope.axes ++ k.scope.axes).map Axis.name).Perm names := by
  have hobserved : k.scope.axes.map Axis.name = g.observedOf names := by
    rw [hk.axes_eq, List.map_map]
    exact List.map_id _
  rw [List.map_append, hobserved]
  exact ((hr.names_perm hd).append_right _).trans (g.append_perm names)

omit [LinearOrder W] [ExactScale W] in
/-- They have the numbers of states of the graph. -/
theorem IsFreePart.joined_card {a : Axis} (ha : a ∈ r.scope.axes ++ k.scope.axes) :
    a.card = g.stateCountOf a.name := by
  rcases List.mem_append.1 ha with ha | ha
  · exact (mem_freeAxes.1 (hr.within a ha)).2
  · rw [hk.axes_eq] at ha
    obtain ⟨n, -, rfl⟩ := List.mem_map.1 ha
    rfl

/-- Their product answers the request. -/
theorem IsFreePart.answers_joined (hg : g.Sound) (hd : names.Nodup) {f : Factor W L}
    (haxes : f.scope.axes = r.scope.axes ++ k.scope.axes)
    (hweight : ∀ x, InRange f.scope.axes x → f.weightAt x = r.weightAt x * k.weightAt x) :
    g.Answers names f := by
  have hparts : ∀ x, InRange f.scope.axes x → InRange r.scope.axes x ∧ InRange k.scope.axes x := by
    intro x hx
    rw [haxes] at hx
    exact ⟨fun a ha => hx a (List.mem_append_left _ ha),
      fun a ha => hx a (List.mem_append_right _ ha)⟩
  refine ⟨?_, fun a ha => hr.joined_card hk (haxes ▸ ha), fun x hx hagree => ?_,
    fun x hx n hn i hi hne => ?_⟩
  · rw [Factor.names, Scope.names, haxes]
    exact hr.joined_perm hk hd
  · obtain ⟨hxr, hxk⟩ := hparts x hx
    have hall : ∀ n ∈ g.observedOf names, g.conditioned.get? n = some (x n : Int) := fun n hn => by
      obtain ⟨hn, hc⟩ := mem_observedOf.1 hn
      obtain ⟨i, hi⟩ := OrderedMap.exists_get?_of_mem_keys hc
      rw [hi, hagree n hn i hi]
    rw [hweight x hx, hk.weight_eq x hxk, if_pos hall, mul_one, hr.weightAt_eq hg hxr]
  · have helse : ¬ ∀ n ∈ g.observedOf names, g.conditioned.get? n = some (x n : Int) := fun hall =>
      hne (Option.some.inj (hi.symm.trans
        (hall n (mem_observedOf.2 ⟨hn, OrderedMap.mem_keys_of_get? hi⟩))))
    rw [hweight x hx, hk.weight_eq x (hparts x hx).2, if_neg helse, mul_zero]

variable [ExactLog W L]

/-- It is given, unless no table can have all the requested states. -/
theorem IsFreePart.yields_joined (hg : FactorGraph.Reachable g) (hd : names.Nodup)
    (hsome : g.observedOf names ≠ []) :
    Yields (fun fault => fault.isTableLimit = true ∧ ¬ FitsTable (names.map g.stateCountOf))
      (fun f => g.Answers names f ∧ FitsTable (names.map g.stateCountOf)) (r.product k) := by
  have hnames := hr.joined_perm hk hd
  have hcard : ∀ a ∈ r.scope.axes ++ k.scope.axes, a.card = g.stateCountOf a.name :=
    fun a ha => hr.joined_card hk ha
  have hsizes : ((r.scope.axes ++ k.scope.axes).map Axis.card).Perm
      (names.map g.stateCountOf) := by
    rw [List.map_congr_left hcard, ← Function.comp_def, ← List.map_map]
    exact hnames.map _
  have hmass : k.scope.axes ≠ [] := by
    rw [hk.axes_eq]
    exact fun he => hsome (List.map_eq_nil_iff.1 he)
  have hpos : ∀ a ∈ r.scope.axes ++ k.scope.axes, 0 < a.card := fun a ha => by
    rw [hcard a ha]
    exact hr.stateCountOf_pos hg a.name (hnames.mem_iff.1 (List.mem_map_of_mem ha))
  refine (Factor.yields_product (hnames.nodup_iff.2 hd) hmass hpos).imp
    (fun fault hf => ⟨hf.1, fun hfit => hf.2 (hfit.perm hsizes)⟩) ?_
  rintro f ⟨hfit, haxes, hweight⟩
  exact ⟨hr.answers_joined hk hg.sound hd haxes hweight, hfit.perm hsizes.symm⟩

end Joined

/-- A free part alone answers a request without observed names. -/
theorem IsFreePart.answers_alone (hg : g.Sound) (hd : names.Nodup) {r : Factor W L}
    (hr : IsFreePart g names r) (hnone : g.observedOf names = []) : g.Answers names r where
  names_perm := by
    have hperm := g.append_perm names
    rw [hnone, List.append_nil] at hperm
    exact (hr.names_perm hd).trans hperm
  card_eq := fun a ha => (mem_freeAxes.1 (hr.within a ha)).2
  weight_eq := fun _ hx _ => hr.weightAt_eq hg hx
  weight_eq_zero := fun _ _ n hn i hi _ => by
    have hobserved := mem_observedOf.2 ⟨hn, OrderedMap.mem_keys_of_get? hi⟩
    rw [hnone] at hobserved
    exact absurd hobserved List.not_mem_nil

variable (h : ExactFor g m)

include h

/-- The total is the marginal over no names. -/
theorem ExactFor.isFreePart_total (hg : g.Sound) (hnone : g.unobserved names = []) :
    m.freeMarginal [] = .ok (.plain (Table.scalar g.partitionFunction)) ∧
      IsFreePart g names (.plain (Table.scalar g.partitionFunction) : Factor W L) := by
  constructor
  · change (fun w => Factor.plain (Table.scalar w)) <$> m.total = _
    rw [h.total_eq]
    rfl
  · refine ⟨fun _ ha => absurd ha List.not_mem_nil, fun n => ?_, fun x _ => ?_⟩
    · rw [hnone]
      rfl
    · have hscalar : (.plain (Table.scalar g.partitionFunction) : Factor W L).weightAt x
          = g.partitionFunction :=
        Table.weightAt_ofFn (fun _ ha => absurd ha List.not_mem_nil) fun _ _ => rfl
      rw [hscalar, ← g.marginalOver_unobserved, hnone, hg.partitionFunction_eq x]
      rfl

/-- The point mass of observed variables is given, unless no table can have all their states. -/
theorem ExactFor.yields_pointMass (hg : FactorGraph.Reachable g)
    (hcards : m.cards = Engine.observedCards g) (hd : names.Nodup) :
    Yields (fun fault => fault.isTableLimit = true ∧
        ¬ FitsTable ((g.observedOf names).map g.stateCountOf))
      (IsPointMass g names) (m.pointMass (g.observedOf names)) := by
  have hobserved : ∀ n ∈ g.observedOf names, n ∈ g.conditioned.keys := fun n hn =>
    (mem_observedOf.1 hn).2
  choose! state hstate hlt hnames using fun n hn => hg.exists_observed (hobserved n hn)
  have hcard : ∀ n ∈ g.observedOf names, m.cards.get? n = some (g.stateCountOf n : Int) := by
    intro n hn
    rw [hcards, Engine.observedCards]
    exact OrderedMap.get?_insertAll_of_mem (hobserved n hn)
  refine (yields_pointMass_of_states (hd.filter _)
    (fun n hn => h.conditioned_eq ▸ hstate n hn) hcard hlt).imp (fun fault hf => hf)
    fun k hk => ⟨hk.1, fun x hx => ?_⟩
  rw [hk.2 x hx]
  refine if_congr (forall₂_congr fun n hn => ?_) rfl rfl
  rw [hstate n hn, Option.some.injEq, Int.natCast_inj, eq_comm]

variable [ExactLog W L]

/-- Together with the observed variables a free part answers the request, unless no table can have
all the requested states. -/
theorem ExactFor.yields_withObserved (hg : FactorGraph.Reachable g)
    (hcards : m.cards = Engine.observedCards g) (hd : names.Nodup) {r : Factor W L}
    (hr : IsFreePart g names r) :
    Yields (fun fault => fault.isTableLimit = true ∧ g.TooLarge names)
      (fun f => g.Answers names f ∧ ¬ g.TooLarge names) (m.withObserved names r) := by
  have hobserved : names.filter m.conditioned.contains = g.observedOf names := by
    rw [h.conditioned_eq]
    rfl
  rw [withObserved, hobserved]
  by_cases hnone : g.observedOf names = []
  · rw [if_pos (List.isEmpty_iff.2 hnone)]
    refine ⟨hr.answers_alone hg.sound hd hnone, ?_⟩
    rintro ⟨⟨n, hn, hc⟩, -⟩
    exact List.ne_nil_of_mem (mem_observedOf.2 ⟨hn, hc⟩) hnone
  · obtain ⟨v, hv⟩ := List.exists_mem_of_ne_nil _ hnone
    have hrequested : ∃ n ∈ names, n ∈ g.conditioned.keys := ⟨v, mem_observedOf.1 hv⟩
    -- What is too large for the point mass is too large for the whole answer.
    have hfewer : FitsTable (names.map g.stateCountOf) →
        FitsTable ((g.observedOf names).map g.stateCountOf) := fun hfit =>
      hfit.of_sublist (List.filter_sublist.map _) fun c hc => by
        obtain ⟨n, hn, rfl⟩ := List.mem_map.1 hc
        exact hr.stateCountOf_pos hg n hn
    rw [if_neg fun he => hnone (List.isEmpty_iff.1 he)]
    refine ((h.yields_pointMass hg hcards hd).imp
      (fun fault hf => ⟨hf.1, hrequested, fun hfit => hf.2 (hfewer hfit)⟩) fun k hk => hk).bind
        fun k hk => ?_
    exact (hr.yields_joined hk hg hd hnone).imp (fun fault hf => ⟨hf.1, hrequested, hf.2⟩)
      fun f hf => ⟨hf.1, fun hlarge => hlarge.2 hf.2⟩

variable [CanonicallyOrderedAdd W]

/-- Any factor that covers the unobserved names is summed down to their marginal. -/
theorem ExactFor.exists_freePart (hg : g.Sound) {k : Factor W L} (hk : k ∈ m.factors)
    (hcover : ∀ n ∈ g.unobserved names, n ∈ k.names) :
    ∃ r, k.marginalize (k.names.filter fun v => !(g.unobserved names).contains v) = .ok r ∧
      IsFreePart g names r := by
  obtain ⟨r, hr, hwithin, hnames, hweight⟩ := h.exists_marginalized hg hk hcover
  exact ⟨r, hr, hwithin, hnames, fun x hx =>
    (hweight x hx).trans (g.marginalOver_unobserved names x)⟩

/-- So a marginal over the unobserved names is given, unless no factor covers them. -/
theorem ExactFor.freeMarginal_eq_ok (hg : g.Sound)
    (hcovered : ¬ m.Uncovered (g.unobserved names)) :
    ∃ r, m.freeMarginal (g.unobserved names) = .ok r ∧ IsFreePart g names r := by
  by_cases hnone : g.unobserved names = []
  · rw [hnone]
    exact ⟨_, h.isFreePart_total hg hnone⟩
  · have hsome : ∃ f ∈ m.factors, ∀ n ∈ g.unobserved names, n ∈ f.names := by
      by_contra hno
      exact hcovered ⟨hnone, fun f hf hc => hno ⟨f, hf, hc⟩⟩
    obtain ⟨f, hf, hc⟩ := hsome
    obtain ⟨k, hk, hsource, hcover⟩ := exists_source? hf hc
    obtain ⟨r, hr, hpart⟩ := h.exists_freePart hg hk hcover
    refine ⟨r, ?_, hpart⟩
    rw [MarginalSet.freeMarginal, if_neg fun he => hnone (List.isEmpty_iff.1 he), hsource]
    exact hr

/-- A request is answered if its unobserved names are covered and a table can have all the requested
states. -/
theorem ExactFor.yields_marginal (hg : FactorGraph.Reachable g)
    (hcards : m.cards = Engine.observedCards g) (hd : names.Nodup)
    (hcovered : ¬ m.Uncovered (g.unobserved names)) :
    Yields (fun fault => fault.isTableLimit = true ∧ g.TooLarge names)
      (fun f => g.Answers names f ∧ ¬ g.TooLarge names) (m.marginal names) := by
  obtain ⟨r, hfree, hr⟩ := h.freeMarginal_eq_ok hg.sound hcovered
  rw [marginal_eq, h.unobserved_eq, hfree]
  exact h.yields_withObserved hg hcards hd hr

/-- So it is from any one of the factors that cover them. -/
theorem ExactFor.yields_marginal_only (hg : FactorGraph.Reachable g)
    (hcards : m.cards = Engine.observedCards g) (hd : names.Nodup) {k : Factor W L}
    (hk : k ∈ m.factors) (hcover : ∀ n ∈ g.unobserved names, n ∈ k.names) :
    Yields (fun fault => fault.isTableLimit = true ∧ g.TooLarge names)
      (fun f => g.Answers names f ∧ ¬ g.TooLarge names) ((m.only k).marginal names) := by
  have hpart : ∃ r, (m.only k).freeMarginal (g.unobserved names) = .ok r ∧
      IsFreePart g names r := by
    by_cases hnone : g.unobserved names = []
    · rw [hnone]
      exact ⟨_, h.isFreePart_total hg.sound hnone⟩
    · rw [freeMarginal_only hnone hcover]
      exact h.exists_freePart hg.sound hk hcover
  obtain ⟨r, hfree, hr⟩ := hpart
  have heq : (m.only k).marginal names
      = (m.only k).freeMarginal (g.unobserved names) >>= m.withObserved names := by
    rw [← h.unobserved_eq]
    rfl
  rw [heq, hfree]
  exact h.yields_withObserved hg hcards hd hr

end MarginalSet

variable [Semifield W] [WeightScale W] [WeightScale L] [LogConversion W L]

/-- There is one answer to a request, up to the order of its variables. -/
theorem FactorGraph.Answers.weightAt_eq {g : FactorGraph W L} {names : List String}
    {f k : Factor W L} (hf : g.Answers names f) (hk : g.Answers names k) {x : JointState}
    (hx : InRange f.scope.axes x) : k.weightAt x = f.weightAt x := by
  have hxk : InRange k.scope.axes x := fun a ha => by
    have hname := (hf.names_perm.trans hk.names_perm.symm).mem_iff.2 (List.mem_map_of_mem ha)
    obtain ⟨b, hb, hba⟩ := List.mem_map.1 hname
    have hlt := hx b hb
    rwa [hf.card_eq b hb, hba, ← hk.card_eq a ha] at hlt
  by_cases hagree : ∀ n ∈ names, ∀ i, g.conditioned.get? n = some i → i = x n
  · rw [hf.weight_eq x hx hagree, hk.weight_eq x hxk hagree]
  · push Not at hagree
    obtain ⟨n, hn, i, hi, hne⟩ := hagree
    rw [hf.weight_eq_zero x hx n hn i hi hne, hk.weight_eq_zero x hxk n hn i hi hne]

namespace Engine

variable [LinearOrder W] [IsStrictOrderedRing W] [CanonicallyOrderedAdd W] [ExactScale W]
  [ExactLog W L] {g : FactorGraph W L} {e : Engine} {m : MarginalSet W L} {names : List String}

/-- Queries to marginals are exact. One is refused just if no factor covers its unobserved names, or
if it has an observed name and no table can have all its states. Any other is answered exactly, and
from every factor that covers its unobserved names by the same weights. -/
theorem queries_exact (hg : g.Reachable) (h : (e.marginals g).answer = .ok m)
    (hd : names.Nodup) :
    ((∃ fault, m.marginal names = .error fault) ↔
        m.Uncovered (g.unobserved names) ∨ g.TooLarge names) ∧
      (∀ fault, m.marginal names = .error fault →
        fault = .notCovered (g.unobserved names) ∨ fault.isTableLimit = true) ∧
      ∀ f, m.marginal names = .ok f → g.Answers names f ∧
        ∀ k ∈ m.factors, (∀ n ∈ g.unobserved names, n ∈ k.names) →
          ∃ f', (m.only k).marginal names = .ok f' ∧ f'.names.Perm f.names ∧
            ∀ x, InRange f.scope.axes x → f'.weightAt x = f.weightAt x := by
  have hexact := exactFor_of_marginals hg h
  have hcards := cards_of_marginals h
  by_cases huncovered : m.Uncovered (g.unobserved names)
  · have hrefused : m.marginal names = .error (.notCovered (g.unobserved names)) := by
      rw [MarginalSet.marginal_eq, hexact.unobserved_eq, huncovered.freeMarginal_eq_error]
      rfl
    rw [hrefused]
    refine ⟨⟨fun _ => .inl huncovered, fun _ => ⟨_, rfl⟩⟩, fun fault he => ?_, fun f hf => ?_⟩
    · cases he
      exact .inl rfl
    · cases hf
  · have hyields := hexact.yields_marginal hg hcards hd huncovered
    cases hanswer : m.marginal names with
    | error fault =>
      obtain ⟨hlimit, hlarge⟩ := hyields.fault_of_eq_error hanswer
      refine ⟨⟨fun _ => .inr hlarge, fun _ => ⟨fault, rfl⟩⟩, fun fault' he => ?_, fun f hf => ?_⟩
      · cases he
        exact .inr hlimit
      · cases hf
    | ok f =>
      obtain ⟨hf, hfits⟩ := hyields.answer_of_eq_ok hanswer
      refine ⟨⟨fun ⟨_, he⟩ => (by cases he), fun hno => (hno.elim huncovered hfits).elim⟩,
        fun fault he => (by cases he), ?_⟩
      rintro f' ⟨⟩
      refine ⟨hf, fun k hk hcover => ?_⟩
      have honly := hexact.yields_marginal_only hg hcards hd hk hcover
      cases hsingle : (m.only k).marginal names with
      | error fault => exact (hfits (honly.fault_of_eq_error hsingle).2).elim
      | ok f' =>
        obtain ⟨hf', -⟩ := honly.answer_of_eq_ok hsingle
        exact ⟨f', rfl, hf'.names_perm.trans hf.names_perm.symm, fun x hx => hf.weightAt_eq hf' hx⟩

/-- A request with an observed name is answered from any factor that covers the other one. -/
theorem queries_exact_islands :
    ∃ g m f, islands = .ok g ∧ (standard.marginals g).answer = .ok m ∧
      m.marginal ["E", "B"] = .ok f ∧ g.Answers ["E", "B"] f ∧
      ∀ k ∈ m.factors, "B" ∈ k.names → ((m.only k).marginal ["E", "B"]).toBool = true := by
  obtain ⟨m, hrun, hcheck⟩ := exists_of_passes
    (x := islands >>= fun g => (standard.marginals g).answer)
    (fun m => (m.marginal ["E", "B"]).toBool &&
      decide ((["E", "B"].filter fun n => !m.conditioned.contains n) = ["B"])) (by decide +kernel)
  obtain ⟨g, hg, hm⟩ := bind_eq_ok_iff.1 hrun
  rw [Bool.and_eq_true, decide_eq_true_eq] at hcheck
  obtain ⟨f, hf⟩ := exists_of_toBool hcheck.1
  have hexact := exactFor_of_marginals (reachable_of_islands hg) hm
  obtain ⟨-, -, hanswer⟩ :=
    queries_exact (reachable_of_islands hg) hm (show ["E", "B"].Nodup by decide)
  obtain ⟨hanswers, honly⟩ := hanswer f hf
  refine ⟨g, m, f, hg, hm, hf, hanswers, fun k hk hcover => ?_⟩
  have hunobserved : g.unobserved ["E", "B"] = ["B"] := hexact.unobserved_eq.symm.trans hcheck.2
  obtain ⟨f', hf', -⟩ := honly k hk (by
    rw [hunobserved]
    exact fun n hn => List.mem_singleton.1 hn ▸ hcover)
  rw [hf']
  rfl

/-- Names of sixty-five variables. -/
def crowdNames : List String := (List.range 65).map fun i => "V" ++ toString i

/-- Sixty-five variables with one state each, all of them observed. -/
def crowd : Except Fault (FactorGraph ℚ≥0 (FormalLog ℚ≥0)) := do
  let g ← crowdNames.foldlM (fun g n => g.addVariable n (.count 1)) FactorGraph.empty
  g.conditional (OrderedMap.ofList (crowdNames.map fun n => (n, (0 : Int))))

theorem reachable_of_crowd {g : FactorGraph ℚ≥0 (FormalLog ℚ≥0)} (h : crowd = .ok g) :
    FactorGraph.Reachable g := by
  obtain ⟨declared, hdeclared, h⟩ := bind_eq_ok_iff.1 h
  exact .conditional (foldlM_invariant hdeclared .empty fun _ _ _ _ hr hadd =>
    .addVariable hr hadd) h

/-- A request for all of them is refused, though none of them has to be covered. -/
theorem refused_crowd :
    ∃ g m, crowd = .ok g ∧ FactorGraph.Reachable g ∧ g.hint = none ∧
      (standard.marginals g).answer = .ok m ∧ crowdNames.Nodup ∧ g.unobserved crowdNames = [] ∧
      m.marginal crowdNames = .error (.tooManyAxes 64 65) := by
  obtain ⟨g, hg, hcheck⟩ := exists_of_passes (x := crowd)
    (fun g => decide (g.hint = none ∧ g.unobserved crowdNames = []) &&
      passes (fun m => failsWith (.tooManyAxes 64 65) (m.marginal crowdNames))
        (standard.marginals g).answer) (by decide +kernel)
  rw [Bool.and_eq_true, decide_eq_true_eq] at hcheck
  obtain ⟨m, hm, hrefused⟩ := exists_of_passes _ hcheck.2
  exact ⟨g, m, hg, reachable_of_crowd hg, hcheck.1.1, hm, by decide +kernel, hcheck.1.2,
    eq_error_of_failsWith hrefused⟩

end Engine

end ExactInference
