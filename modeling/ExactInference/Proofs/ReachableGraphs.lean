import ExactInference.FactorGraph.Minimal
import ExactInference.Proofs.FactorValues
import ExactInference.Proofs.Sequencing

/-!
# Graphs that can be made

A graph is reachable if it is made from nothing by declaring variables, adding factors, observing
variables and attaching schedules, where every step is accepted. All of its factors take their axes
from the free variables, which have different names and at least one state each.
-/

namespace ExactInference

namespace FactorGraph

variable {W L : Type}

/-- A graph whose factors fit its free variables. -/
structure Sound (g : FactorGraph W L) : Prop where
  /-- Variables have different names. -/
  keys_nodup : g.states.keys.Nodup
  /-- Every variable has a state. -/
  states_ne_nil : ∀ {n labels}, g.states.get? n = some labels → labels ≠ []
  /-- The factors are over free variables, with their numbers of states. -/
  within : ∀ f ∈ g.factors, f.scope.Within g.freeAxes

variable {g g' : FactorGraph W L} {n : String}

/-- Declaring a variable gives a new name its labels, of which there is one at least. -/
theorem of_addVariable {states : StateList} (h : g.addVariable n states = .ok g') :
    n ∉ g.states.keys ∧ states.toLabels ≠ [] ∧
      g' = { g with states := g.states.insert n states.toLabels } := by
  unfold FactorGraph.addVariable at h
  split at h
  · cases h
  next hnew =>
    split at h
    · cases h
    next hne =>
      cases h
      refine ⟨fun hin => hnew ((OrderedMap.contains_iff_mem_keys g.states n).2 hin),
        fun he => hne (by simp [he]), rfl⟩

/-- An observation is read if it gives a declared variable one of its states. -/
theorem of_readObservation {σ : Type} [StateValue σ] {e : String × σ} {o : String × Int}
    (h : g.readObservation e = .ok o) :
    o.1 = e.1 ∧ StateValue.toInt e.2 = .ok o.2 ∧
      ∃ labels, g.states.get? e.1 = some labels ∧ 0 ≤ o.2 ∧ o.2 < labels.length := by
  unfold readObservation at h
  split at h
  · cases h
  next labels hlabels =>
    split at h
    · cases h
    · obtain ⟨state, hstate, h⟩ := bind_eq_ok_iff.1 h
      split at h
      next hin =>
        cases h
        exact ⟨rfl, hstate, labels, hlabels, hin⟩
      · cases h

/-- The observations that are read are those of the assignment. -/
theorem keys_of_readObservations {σ : Type} [StateValue σ] {a : OrderedMap String σ}
    {observed : List (String × Int)} (h : a.entries.mapM g.readObservation = .ok observed) :
    observed.map Prod.fst = a.keys := by
  have hnames : ∀ {es : List (String × σ)} {os : List (String × Int)},
      List.Forall₂ (fun e o => g.readObservation e = .ok o) es os →
      os.map Prod.fst = es.map Prod.fst := by
    intro es os hall
    induction hall with
    | nil => rfl
    | cons he _ ih => rw [List.map_cons, List.map_cons, (of_readObservation he).1, ih]
  exact hnames (mapM_eq_ok_iff.1 h)

/-- What holds of the empty graph and is kept by declaring variables and by adding factors holds of
the graph of some factors. -/
theorem ofFactors_invariant {P : FactorGraph W L → Prop} {fs : List (Factor W L)}
    (h : ofFactors fs = .ok g) (base : P empty)
    (hdeclare : ∀ {s t : FactorGraph W L} {v : String} {states : StateList}, P s →
      s.addVariable v states = .ok t → P t)
    (hadd : ∀ {s t : FactorGraph W L} {f : Factor W L}, P s → s.addFactor f = .ok t → P t) :
    P g := by
  obtain ⟨declared, hdeclared, h⟩ := bind_eq_ok_iff.1 h
  have hP : P declared := by
    refine foldlM_invariant hdeclared base fun s f t _ hs hst => ?_
    refine foldlM_invariant hst hs fun s a t _ hs hst => ?_
    split at hst
    · cases hst
      exact hs
    · exact hdeclare hs hst
  exact foldlM_invariant h hP fun s f t _ hs hst => hadd hs hst

theorem mem_freeNames : n ∈ g.freeNames ↔ n ∈ g.states.keys ∧ n ∉ g.conditioned.keys := by
  rw [freeNames, List.mem_filter, ← OrderedMap.contains_iff_mem_keys g.conditioned]
  simp

/-- Nothing is observed of a free variable. -/
theorem get?_conditioned (hn : n ∈ g.freeNames) : g.conditioned.get? n = none := by
  cases hget : g.conditioned.get? n with
  | none => rfl
  | some s => exact absurd (OrderedMap.mem_keys_of_get? hget) (mem_freeNames.1 hn).2

/-- A declared variable of which nothing is observed is free. -/
theorem mem_freeNames_of_get? (hn : n ∈ g.states.keys) (h : g.conditioned.get? n = none) :
    n ∈ g.freeNames := by
  refine mem_freeNames.2 ⟨hn, fun hin => ?_⟩
  rw [← OrderedMap.contains_iff_mem_keys, OrderedMap.contains, h] at hin
  cases hin

theorem map_name_freeAxes (g : FactorGraph W L) : g.freeAxes.map Axis.name = g.freeNames := by
  rw [freeAxes, List.map_map]
  exact List.map_id _

theorem mem_freeAxes {a : Axis} :
    a ∈ g.freeAxes ↔ a.name ∈ g.freeNames ∧ a.card = g.stateCountOf a.name := by
  rw [freeAxes, List.mem_map]
  constructor
  · rintro ⟨n, hn, rfl⟩
    exact ⟨hn, rfl⟩
  · rintro ⟨hn, hc⟩
    exact ⟨a.name, hn, by cases a; simp only at hc; rw [← hc]⟩

/-- A factor over free variables, with their numbers of states, is added. -/
theorem addFactor_eq_ok {f : Factor W L} (hf : f.scope.Within g.freeAxes) :
    g.addFactor f = .ok { g with factors := g.factors ++ [f] } := by
  have hcheck : f.scope.axes.forM g.checkAxis = .ok () := by
    refine forM_eq_ok_iff.2 fun a ha => ?_
    obtain ⟨hname, hcard⟩ := mem_freeAxes.1 (hf a ha)
    obtain ⟨hdeclared, hunobserved⟩ := mem_freeNames.1 hname
    obtain ⟨labels, hlabels⟩ := OrderedMap.exists_get?_of_mem_keys hdeclared
    have hfree : ¬ g.conditioned.contains a.name = true := fun hin =>
      hunobserved ((OrderedMap.contains_iff_mem_keys _ _).1 hin)
    have hlength : ¬ labels.length ≠ a.card := by
      rw [hcard, stateCountOf, hlabels, Option.getD_some]
      exact not_not.2 rfl
    rw [checkAxis, hlabels]
    exact (if_neg hfree).trans (if_neg hlength)
  rw [addFactor, hcheck]
  rfl

namespace Sound

theorem freeNames_nodup (hg : g.Sound) : (g.freeAxes.map Axis.name).Nodup := by
  rw [map_name_freeAxes]
  exact hg.keys_nodup.filter _

/-- A declared variable has a state. -/
theorem stateCountOf_pos (hg : g.Sound) (hn : n ∈ g.states.keys) : 0 < g.stateCountOf n := by
  obtain ⟨labels, hl⟩ := OrderedMap.exists_get?_of_mem_keys hn
  rw [stateCountOf, hl]
  exact List.length_pos_iff.2 (hg.states_ne_nil hl)

theorem card_pos (hg : g.Sound) : ∀ a ∈ g.freeAxes, 0 < a.card := by
  intro a ha
  obtain ⟨hn, hc⟩ := mem_freeAxes.1 ha
  exact hc ▸ hg.stateCountOf_pos (mem_freeNames.1 hn).1

protected theorem empty : (empty : FactorGraph W L).Sound where
  keys_nodup := List.nodup_nil
  states_ne_nil h := by cases h
  within f hf := by simp [FactorGraph.empty] at hf

/-- Declaring a variable keeps all others as they are. -/
theorem addVariable (hg : g.Sound) {states : StateList} (h : g.addVariable n states = .ok g') :
    g'.Sound := by
  obtain ⟨hnew, hne, rfl⟩ := of_addVariable h
  have hother : ∀ {m}, m ∈ g.states.keys → m ≠ n := fun hm he => hnew (he ▸ hm)
  refine ⟨OrderedMap.nodup_keys_insert hg.keys_nodup n _, fun {m labels} hm => ?_,
    fun f hf a ha => ?_⟩
  · by_cases hmn : m = n
    · subst hmn
      rw [OrderedMap.get?_insert_self] at hm
      cases hm
      exact hne
    · rw [OrderedMap.get?_insert_of_ne _ hmn] at hm
      exact hg.states_ne_nil hm
  · obtain ⟨hn, hc⟩ := mem_freeAxes.1 (hg.within f hf a ha)
    obtain ⟨hin, hout⟩ := mem_freeNames.1 hn
    refine mem_freeAxes.2
      ⟨mem_freeNames.2 ⟨OrderedMap.mem_keys_insert.2 (Or.inl hin), hout⟩, ?_⟩
    simp only [hc, stateCountOf, OrderedMap.get?_insert_of_ne g.states (hother hin)]

/-- A factor is only added over free variables, with their numbers of states. -/
theorem addFactor (hg : g.Sound) {f : Factor W L} (h : g.addFactor f = .ok g') : g'.Sound := by
  obtain ⟨⟨⟩, hcheck, hh⟩ := bind_eq_ok_iff.1 h
  cases hh
  refine ⟨hg.keys_nodup, hg.states_ne_nil, fun k hk => ?_⟩
  rcases List.mem_append.1 hk with hk | hk
  · exact hg.within k hk
  · rw [List.mem_singleton.1 hk]
    intro a ha
    have hok := forM_eq_ok_iff.1 hcheck a ha
    unfold checkAxis at hok
    split at hok
    · cases hok
    next labels hl =>
      split at hok
      · cases hok
      next hfree =>
        split at hok
        · cases hok
        next hcard =>
          refine mem_freeAxes.2 ⟨mem_freeNames.2 ⟨?_, fun hin => hfree ?_⟩, ?_⟩
          · exact (OrderedMap.contains_iff_mem_keys g.states a.name).1 (by
              rw [OrderedMap.contains, hl]; rfl)
          · exact (OrderedMap.contains_iff_mem_keys g.conditioned a.name).2 hin
          · rw [stateCountOf, hl]
            exact (not_not.1 hcard).symm

protected theorem ofFactors {fs : List (Factor W L)} (h : ofFactors fs = .ok g) : g.Sound :=
  ofFactors_invariant h Sound.empty (fun hs => hs.addVariable) fun hs => hs.addFactor

theorem withHint (hg : g.Sound) {σ : Type} [StateValue σ] {order : List σ}
    (h : g.withHint order = .ok g') : g'.Sound := by
  obtain ⟨hint, -, h⟩ := bind_eq_ok_iff.1 h
  cases h
  exact ⟨hg.keys_nodup, hg.states_ne_nil, hg.within⟩

end Sound

/-- Nothing is observed of the graph of some factors, and it has no schedule. -/
theorem unobserved_of_ofFactors {fs : List (Factor W L)} (h : ofFactors fs = .ok g) :
    g.conditioned = OrderedMap.empty ∧ g.hint = none := by
  refine ofFactors_invariant (P := fun g => g.conditioned = OrderedMap.empty ∧ g.hint = none) h
    ⟨rfl, rfl⟩ (fun hs hh => ?_) fun hs hh => ?_
  · obtain ⟨-, -, rfl⟩ := of_addVariable hh
    exact hs
  · obtain ⟨⟨⟩, -, hh⟩ := bind_eq_ok_iff.1 hh
    cases hh
    exact hs

variable [WeightScale W] [WeightScale L]

/-- The graphs that can be made by accepted steps. -/
inductive Reachable : FactorGraph W L → Prop
  /-- The graph without variables and factors. -/
  | empty : Reachable empty
  /-- A variable is declared. -/
  | addVariable {g h : FactorGraph W L} {name : String} {states : StateList} :
    Reachable g → g.addVariable name states = .ok h → Reachable h
  /-- A factor is added. -/
  | addFactor {g h : FactorGraph W L} {f : Factor W L} :
    Reachable g → g.addFactor f = .ok h → Reachable h
  /-- The graph of some factors. -/
  | ofFactors {fs : List (Factor W L)} {g : FactorGraph W L} :
    ofFactors fs = .ok g → Reachable g
  /-- Variables are observed. -/
  | conditional {σ : Type} [StateValue σ] {g h : FactorGraph W L} {a : OrderedMap String σ} :
    Reachable g → g.conditional a = .ok h → Reachable h
  /-- A schedule is attached. -/
  | withHint {σ : Type} [StateValue σ] {g h : FactorGraph W L} {order : List σ} :
    Reachable g → g.withHint order = .ok h → Reachable h

variable {g g' : FactorGraph W L} {n : String}

/-- Observing variables restricts every factor to them, notes what was observed, and drops the
schedule. -/
theorem of_conditional {σ : Type} [StateValue σ] {a : OrderedMap String σ}
    (h : g.conditional a = .ok g') :
    ∃ observed factors, a.entries.mapM g.readObservation = .ok observed ∧
      g.factors.mapM (Factor.conditional · a) = .ok factors ∧
      g' = { g with factors, conditioned := g.conditioned.insertAll observed, hint := none } := by
  obtain ⟨observed, hobserved, h⟩ := bind_eq_ok_iff.1 h
  obtain ⟨factors, hfactors, h⟩ := bind_eq_ok_iff.1 h
  cases h
  exact ⟨observed, factors, hobserved, hfactors, rfl⟩

/-- The variables that stay free are those that are not observed. -/
theorem mem_freeNames_conditional {σ : Type} [StateValue σ] {a : OrderedMap String σ}
    (h : g.conditional a = .ok g') : n ∈ g'.freeNames ↔ n ∈ g.freeNames ∧ n ∉ a.keys := by
  obtain ⟨observed, factors, hobserved, -, rfl⟩ := of_conditional h
  rw [mem_freeNames, mem_freeNames, OrderedMap.mem_keys_insertAll,
    keys_of_readObservations hobserved, not_or, and_assoc]

namespace Sound

/-- Observing variables strikes their axes from all factors. -/
theorem conditional (hg : g.Sound) {σ : Type} [StateValue σ] {a : OrderedMap String σ}
    (h : g.conditional a = .ok g') : g'.Sound := by
  have hfree : ∀ {n}, n ∈ g'.freeNames ↔ n ∈ g.freeNames ∧ n ∉ a.keys :=
    mem_freeNames_conditional h
  obtain ⟨observed, factors, -, hfactors, rfl⟩ := of_conditional h
  refine ⟨hg.keys_nodup, hg.states_ne_nil, fun k hk b hb => ?_⟩
  obtain ⟨f, hf, hfk⟩ := exists_of_mem_mapM hfactors hk
  rw [Factor.scope_conditional hfk] at hb
  obtain ⟨hb, hout⟩ := List.mem_filter.1 hb
  obtain ⟨hn, hc⟩ := mem_freeAxes.1 (hg.within f hf b hb)
  refine mem_freeAxes.2 ⟨hfree.2 ⟨hn, fun hmem => ?_⟩, hc⟩
  rw [← OrderedMap.contains_iff_mem_keys] at hmem
  simp [hmem] at hout

end Sound

/-- Every graph that can be made is sound. -/
theorem Reachable.sound (hg : Reachable g) : g.Sound := by
  induction hg with
  | empty => exact Sound.empty
  | addVariable _ h ih => exact ih.addVariable h
  | addFactor _ h ih => exact ih.addFactor h
  | ofFactors h => exact Sound.ofFactors h
  | conditional _ h ih => exact ih.conditional h
  | withHint _ h ih => exact ih.withHint h

/-- An observed variable is declared, and in one of its states. -/
theorem Reachable.observed_lt (hg : Reachable g) {n : String} {i : Int}
    (h : g.conditioned.get? n = some i) :
    ∃ labels, g.states.get? n = some labels ∧ 0 ≤ i ∧ i < labels.length := by
  induction hg with
  | empty => cases h
  | @addVariable _ _ name _ _ hh ih =>
    obtain ⟨hnew, -, rfl⟩ := of_addVariable hh
    obtain ⟨labels, hlabels, hlt⟩ := ih h
    have hne : n ≠ name := fun he => hnew (he ▸ OrderedMap.mem_keys_of_get? hlabels)
    exact ⟨labels, (OrderedMap.get?_insert_of_ne _ hne _).trans hlabels, hlt⟩
  | addFactor _ hh ih =>
    obtain ⟨⟨⟩, -, hh⟩ := bind_eq_ok_iff.1 hh
    cases hh
    exact ih h
  | ofFactors hh =>
    rw [(unobserved_of_ofFactors hh).1] at h
    cases h
  | conditional _ hh ih =>
    obtain ⟨observed, factors, hobserved, -, rfl⟩ := of_conditional hh
    rcases OrderedMap.get?_of_insertAll h with h | h
    · exact ih h
    · obtain ⟨e, -, he⟩ := exists_of_mem_mapM hobserved h
      obtain ⟨hname, -, hlabels⟩ := of_readObservation he
      rwa [← hname] at hlabels
  | withHint _ hh ih =>
    obtain ⟨hint, -, hh⟩ := bind_eq_ok_iff.1 hh
    cases hh
    exact ih h

end FactorGraph

end ExactInference
