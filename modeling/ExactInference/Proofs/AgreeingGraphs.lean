import ExactInference.Engine
import ExactInference.Proofs.AgreeingTrees
import ExactInference.Proofs.ReachableGraphs

/-!
# Graphs that agree

Two graphs agree if they declare, observe and schedule the same and their factors agree one by one.
Then their factors form the same clusters, and the merged factors have the same variables and as
many weights other than zero. So the elimination takes the same steps, the trees agree, and from
there on every step of message passing keeps agreement: an engine answers both graphs alike.
-/

namespace ExactInference

variable {W L : Type} [WeightScale W] [WeightScale L] [LogConversion W L]

/-- Two clusters of the same places, whose factors agree. -/
structure Cluster.Agrees (c d : Cluster W L) : Prop where
  /-- The kept factors come from the same place. -/
  place_eq : c.place = d.place
  /-- They agree. -/
  keeper : c.keeper.Agrees d.keeper
  /-- So do the absorbed factors, and their places are the same. -/
  absorbed : List.Forall₂ (fun e e' => e.1 = e'.1 ∧ e.2.Agrees e'.2) c.absorbed d.absorbed

/-- Two graphs over the same variables, whose factors agree. -/
structure FactorGraph.Agrees (g h : FactorGraph W L) : Prop where
  /-- The same variables are declared. -/
  states_eq : g.states = h.states
  /-- The factors agree one by one. -/
  factors : List.Forall₂ Factor.Agrees g.factors h.factors
  /-- The same was observed. -/
  conditioned_eq : g.conditioned = h.conditioned
  /-- The schedules are the same. -/
  hint_eq : g.hint = h.hint

namespace Cluster

variable [Semifield W] [LinearOrder W] [ExactScale W] [ExactLog W L] {cs ds : List (Cluster W L)}

/-- A factor joins the same cluster. -/
theorem forall₂_absorb {e e' : Factor W L × ℕ} (he : e.1.Agrees e'.1 ∧ e.2 = e'.2)
    (h : List.Forall₂ Agrees cs ds) : List.Forall₂ Agrees (absorb cs e) (absorb ds e') := by
  induction h with
  | nil => exact .cons ⟨he.2, he.1, .nil⟩ .nil
  | cons hcd hrest ih =>
    unfold absorb
    rw [hcd.keeper.names_eq, he.1.names_eq]
    split
    · exact .cons { hcd with absorbed := List.rel_append hcd.absorbed (.cons he.symm .nil) } hrest
    · exact .cons hcd ih

/-- The same clusters are formed. -/
theorem forall₂_ofFactors {fs gs : List (Factor W L)} (h : List.Forall₂ Factor.Agrees fs gs) :
    List.Forall₂ Agrees (ofFactors fs) (ofFactors gs) := by
  unfold ofFactors
  refine forall₂_arrange (fun hcd hcd' => by rw [hcd.place_eq, hcd'.place_eq]) ?_
  refine List.rel_foldl (fun _ _ hcs _ _ he => forall₂_absorb he hcs) .nil ?_
  exact forall₂_arrange (fun he he' => by rw [he.1.names_eq, he'.1.names_eq]) (forall₂_zipIdx h 0)

/-- Clusters that agree are multiplied out alike. -/
theorem Agrees.merged {c d : Cluster W L} (h : c.Agrees d) :
    Parallel Factor.Agrees c.merged d.merged := by
  have hothers : List.Forall₂ (fun e e' => e.1 = e'.1 ∧ e.2.Agrees e'.2)
      (arrange (fun a b => decide (a.1 ≤ b.1)) c.absorbed)
      (arrange (fun a b => decide (a.1 ≤ b.1)) d.absorbed) :=
    forall₂_arrange (fun he he' => by rw [he.1, he'.1]) h.absorbed
  exact h.keeper.productAll (List.rel_map (fun _ _ he => he.2) hothers)

end Cluster

namespace FactorGraph.Agrees

variable {g h : FactorGraph W L}

theorem freeNames_eq (hgh : g.Agrees h) : g.freeNames = h.freeNames := by
  rw [freeNames, freeNames, hgh.states_eq, hgh.conditioned_eq]

theorem outline_eq (hgh : g.Agrees h) : g.outline = h.outline := by
  rw [outline, outline, hgh.freeNames_eq, hgh.factors.length_eq, hgh.conditioned_eq]

theorem stateCountOf_eq (hgh : g.Agrees h) : g.stateCountOf = h.stateCountOf := by
  funext n
  rw [stateCountOf, stateCountOf, hgh.states_eq]

variable [Semifield W] [LinearOrder W] [ExactScale W] [ExactLog W L]

theorem mentions_eq (hgh : g.Agrees h) : g.mentions = h.mentions := by
  have hnames : g.factors.map Factor.names = h.factors.map Factor.names :=
    map_eq_of_forall₂ (fun hfg => hfg.names_eq) hgh.factors
  funext n
  simpa [mentions, List.any_map, Function.comp_def] using
    congrArg (List.any · fun names => names.contains n) hnames

/-- The minimal factors agree. -/
theorem minimalFactors (hgh : g.Agrees h) (hg : g.Sound) :
    Parallel (List.Forall₂ Factor.Agrees) g.minimalFactors h.minimalFactors := by
  unfold FactorGraph.minimalFactors
  rw [hgh.freeNames_eq, hgh.mentions_eq, hgh.stateCountOf_eq]
  refine (Parallel.mapM (Cluster.forall₂_ofFactors hgh.factors) fun _ _ hcd => hcd.merged).bind
    fun fs gs hfs => List.rel_append hfs ?_
  refine List.forall₂_map_left_iff.2 (List.forall₂_map_right_iff.2 (List.forall₂_same.2 ?_))
  intro v hv
  have hfree : v ∈ g.freeNames := hgh.freeNames_eq ▸ (List.mem_filter.1 hv).1
  refine Factor.agrees_self fun a ha => ?_
  rw [List.mem_singleton.1 ha, ← hgh.stateCountOf_eq]
  exact hg.card_pos ⟨v, g.stateCountOf v⟩ (mem_freeAxes.2 ⟨hfree, rfl⟩)

/-- The trees agree, and the same is reported while they are built. -/
theorem ofGraph (hgh : g.Agrees h) (hg : g.Sound) (useHint : Bool) :
    Traced.InStep CliqueTree.Agrees (CliqueTree.ofGraph useHint g)
      (CliqueTree.ofGraph useHint h) := by
  refine (Traced.InStep.of_except (hgh.minimalFactors hg)).bind fun fs gs hfs => ?_
  have hempty : fs.isEmpty = gs.isEmpty := by cases hfs <;> rfl
  have hnames : fs.map Factor.names = gs.map Factor.names :=
    map_eq_of_forall₂ (fun hfg => hfg.names_eq) hfs
  have hsizes : fs.map Factor.size = gs.map Factor.size :=
    map_eq_of_forall₂ (fun hfg => hfg.equivalent.size_eq) hfs
  rw [hempty, hnames, hsizes, hgh.outline_eq, hgh.freeNames_eq, hgh.hint_eq]
  split
  · exact .of_except rfl
  · dsimp only
    split
    · exact (Traced.InStep.of_eq rfl).bind fun _ _ _ => .of_except rfl
    · refine (Traced.InStep.of_eq rfl).bind fun _ _ _ => (Traced.InStep.of_eq rfl).bind ?_
      rintro order _ rfl
      refine (Traced.InStep.of_eq rfl).bind fun _ _ _ => .of_except ?_
      exact CliqueTree.parallel_ofEdges hfs _ _

/-- The joint weights of an assignment are the same. -/
theorem logWeightOf_eq {σ : Type} [StateValue σ] (hgh : g.Agrees h) (a : OrderedMap String σ) :
    g.logWeightOf a = h.logWeightOf a := by
  have hfrom : ∀ {fs gs : List (Factor W L)}, List.Forall₂ Factor.Agrees fs gs → ∀ sum : L,
      logWeightFrom a fs sum = logWeightFrom a gs sum := by
    intro fs gs hfs
    induction hfs with
    | nil => exact fun _ => rfl
    | cons hfg _ ih =>
      intro sum
      simp only [logWeightFrom, hfg.logWeightOf_eq, ih]
  exact hfrom hgh.factors _

end FactorGraph.Agrees

namespace Engine

variable {α β : Type} {R : α → β → Prop} {g h : FactorGraph W L}

theorem inStep_timed (name : String) {x : Traced α} {y : Traced β} (hxy : Traced.InStep R x y) :
    Traced.InStep R (timed name x) (timed name y) :=
  (Traced.InStep.of_eq rfl).bind fun _ _ _ => hxy.bind fun _ _ hab =>
    (Traced.InStep.of_eq rfl).bind fun _ _ _ => .pure hab

/-- Agreeing trees answer alike and stay in agreement. -/
theorem inStep_onTree {t u : CliqueTree W L} (htu : t.Agrees u) {x : PassingStep W L α}
    {y : PassingStep W L β} (hxy : PassingStep.InStep R x y) :
    Traced.InStep (fun a b => R a.1 b.1 ∧ a.2.Agrees b.2) (onTree t x) (onTree u y) := by
  have hrun := hxy ⟨t, []⟩ ⟨u, []⟩ ⟨htu, rfl⟩
  unfold onTree EStateM.run
  cases hx : x ⟨t, []⟩ <;> cases hy : y ⟨u, []⟩ <;> rw [hx, hy] at hrun
  · exact ⟨hrun.2.events_eq, hrun.1, hrun.2.tree⟩
  · exact hrun.elim
  · exact hrun.elim
  · exact ⟨hrun.2.events_eq, hrun.1⟩

variable [Semifield W] [LinearOrder W] [ExactScale W] [ExactLog W L]

theorem inStep_throughTree (e : Engine) (mode : Mode) (last : String) (hgh : g.Agrees h)
    (hg : g.Sound) {extract : List Int → PassingStep W L α}
    {extract' : List Int → PassingStep W L β}
    (hextract : ∀ roots, PassingStep.InStep R (extract roots) (extract' roots)) :
    Traced.InStep R (e.throughTree mode last g extract) (e.throughTree mode last h extract') := by
  refine (inStep_timed _ (hgh.ofGraph hg e.useHint)).bind fun t u htu => ?_
  refine (inStep_timed _ (inStep_onTree htu (Passing.inStep_run mode))).bind ?_
  rintro ⟨roots, t⟩ ⟨_, u⟩ ⟨rfl, htu⟩
  refine (inStep_timed _ (inStep_onTree htu (hextract roots))).bind ?_
  rintro ⟨a, _⟩ ⟨b, _⟩ ⟨hab, -⟩
  have hsize : t.size = u.size := htu.size_eq
  dsimp only
  rw [hsize]
  exact (Traced.InStep.of_eq rfl).bind fun _ _ _ => (Traced.InStep.of_eq rfl).bind fun _ _ _ =>
    .pure hab

/-- Graphs that agree have a single factor both or neither. -/
theorem rel_soleFactor? (hgh : g.Agrees h) :
    Option.Rel Factor.Agrees (soleFactor? g) (soleFactor? h) := by
  unfold soleFactor?
  rw [hgh.freeNames_eq]
  have hfactors := hgh.factors
  generalize g.factors = fs, h.factors = gs at hfactors
  cases hfactors with
  | nil => exact .none
  | cons hfg hrest => cases hrest with
    | nil =>
      dsimp only
      rw [hfg.names_eq]
      split
      · exact .some hfg
      · exact .none
    | cons _ _ => exact .none

omit [Semifield W] [LinearOrder W] [ExactScale W] [ExactLog W L] [LogConversion W L] in
/-- Observed variables have states. -/
theorem observedCards_pos (hg : FactorGraph.Reachable g) {n : String} {c : Int}
    (hc : (observedCards g).get? n = some c) : 0 < c := by
  rcases OrderedMap.get?_of_insertAll hc with hempty | hin
  · cases hempty
  · obtain ⟨v, hv, he⟩ := List.mem_map.1 hin
    cases he
    obtain ⟨i, hi⟩ := OrderedMap.exists_get?_of_mem_keys hv
    obtain ⟨labels, hlabels, h0, hlt⟩ := hg.observed_lt hi
    rw [FactorGraph.stateCountOf, hlabels, Option.getD_some]
    omega

omit [Semifield W] [LinearOrder W] [ExactScale W] [ExactLog W L] in
theorem observedCards_eq (hgh : g.Agrees h) : observedCards g = observedCards h := by
  rw [observedCards, observedCards, hgh.conditioned_eq, hgh.stateCountOf_eq]

/-- Graphs that agree have agreeing marginals. -/
theorem inStep_marginals (e : Engine) (hgh : g.Agrees h) (hg : FactorGraph.Reachable g) :
    Traced.InStep MarginalSet.Agrees (e.marginals g) (e.marginals h) := by
  have hcards : ∀ {n c}, (observedCards h).get? n = some c → 0 < c :=
    observedCards_eq hgh ▸ observedCards_pos hg
  unfold marginals
  rw [hgh.freeNames_eq, observedCards_eq hgh, hgh.conditioned_eq, hgh.logWeightOf_eq]
  dsimp only
  split
  · refine .of_except ((Parallel.of_eq rfl).bind ?_)
    rintro c _ rfl
    exact ⟨.nil, rfl, rfl, rfl, hcards⟩
  · have hsole := rel_soleFactor? hgh
    generalize soleFactor? g = f, soleFactor? h = f' at hsole
    cases hsole with
    | none =>
      exact inStep_throughTree e .sum _ hgh hg.sound fun roots =>
        Passing.inStep_extractMarginals roots _ hcards
    | some hf =>
      refine .of_except ((Parallel.of_eq hf.totalLogWeight_eq).bind ?_)
      rintro c _ rfl
      split
      · rfl
      · exact ⟨.cons hf .nil, rfl, rfl, rfl, hcards⟩

/-- Graphs that agree have agreeing max-marginals. -/
theorem inStep_maxMarginals (e : Engine) (hgh : g.Agrees h) (hg : g.Sound) :
    Traced.InStep MaxMarginalSet.Agrees (e.maxMarginals g) (e.maxMarginals h) := by
  unfold maxMarginals
  rw [hgh.freeNames_eq, hgh.conditioned_eq]
  split
  · exact .pure ⟨.nil, rfl, rfl⟩
  · have hsole := rel_soleFactor? hgh
    generalize soleFactor? g = f, soleFactor? h = f' at hsole
    cases hsole with
    | none =>
      exact inStep_throughTree e .max _ hgh hg fun roots =>
        Passing.inStep_extractMaxMarginals roots _
    | some hf => exact .pure ⟨.cons hf .nil, rfl, rfl⟩

end Engine

end ExactInference
