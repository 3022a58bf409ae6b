import ExactInference.Proofs.Assembly
import ExactInference.Proofs.LeafToRootSweeps

/-!
# What an engine can answer

A graph without free variables and a graph with one factor over its free variables need no tree. Any
other graph is answered through a tree. If the tree delivers all messages, then the max-marginals
are answered, and the marginals as well, unless the total is zero or the ratio of two totals is too
large to be written. None of this depends on the weights.
-/

namespace ExactInference

variable {W L : Type}

/-- The only entry of a table without axes. -/
theorem Table.lookup_scalar {α σ : Type} [WeightScale α] [StateValue σ] {t : Table α}
    (h : t.scope.axes = []) (a : OrderedMap String σ) :
    t.lookup a = .ok (t.weightAt JointState.origin) := by
  have hnames : t.names = [] := by simp [Table.names, Scope.names, h]
  have hcards : t.cards = [] := by simp [Table.cards, Scope.cards, h]
  have hkey : Table.keyFor ([] : List String) a = .ok [] := rfl
  have hresolve : resolveKey [] [] = .ok [] := rfl
  rw [lookup, hnames, hcards, hkey]
  change (resolveKey [] [] >>= fun states =>
    .ok (t.weightAt (JointState.origin.observe (([] : List String).zip states)))) = _
  rw [hresolve]
  rfl

variable [WeightScale W] [WeightScale L] [LogConversion W L]

/-- A scalar factor has one weight. -/
theorem Factor.exists_logWeightOf_scalar {σ : Type} [StateValue σ] {f : Factor W L}
    (h : f.scope.axes = []) (a : OrderedMap String σ) : ∃ c : L, f.logWeightOf a = .ok c := by
  cases f with
  | plain t =>
    refine ⟨LogConversion.logPositive (t.weightAt JointState.origin), ?_⟩
    rw [logWeightOf, Table.lookup_scalar h]
    rfl
  | log t => exact ⟨_, by rw [logWeightOf, Table.lookup_scalar h]⟩

namespace FactorGraph

variable {g : FactorGraph W L}

omit [WeightScale W] [WeightScale L] [LogConversion W L] in
/-- Without free variables all factors are scalar. -/
theorem Sound.axes_eq_nil (hg : g.Sound) (hfree : g.freeNames = []) :
    ∀ f ∈ g.factors, f.scope.axes = [] := by
  intro f hf
  refine List.eq_nil_iff_forall_not_mem.2 fun b hb => ?_
  have hin := hg.within f hf b hb
  rw [freeAxes, hfree] at hin
  exact absurd hin List.not_mem_nil

/-- The weights of scalar factors can be multiplied. -/
theorem exists_logWeightFrom {σ : Type} [StateValue σ] (a : OrderedMap String σ)
    {fs : List (Factor W L)} (hfs : ∀ f ∈ fs, f.scope.axes = []) (sum : L) :
    ∃ c : L, logWeightFrom a fs sum = .ok c := by
  induction fs generalizing sum with
  | nil => exact ⟨sum, rfl⟩
  | cons f fs ih =>
    obtain ⟨w, hw⟩ := Factor.exists_logWeightOf_scalar (hfs f List.mem_cons_self) a
    rw [logWeightFrom, hw]
    change ∃ c : L, (if LogConversion.isBottom W (WeightScale.mul sum w) then _ else _) = _
    split
    · exact ⟨_, rfl⟩
    · exact ih (fun f hf => hfs f (List.mem_cons_of_mem _ hf)) _

end FactorGraph

namespace Engine

open CliqueTree

variable {g : FactorGraph W L} {e : Engine} {t : CliqueTree W L}

/-- A graph without free variables is answered with its total. -/
theorem answer_of_no_names (hfree : g.freeNames = []) :
    (e.marginals g).answer
      = g.logWeightOf (OrderedMap.empty : OrderedMap String Int) >>= fun c =>
        .ok ⟨[], c, g.conditioned, observedCards g⟩ := by
  rw [marginals, hfree]
  rfl

/-- Then there is nothing to maximize over. -/
theorem maxAnswer_of_no_names (hfree : g.freeNames = []) :
    (e.maxMarginals g).answer = .ok (MaxMarginalSet.inOrder [] g.conditioned) := by
  rw [maxMarginals, hfree]
  rfl

omit [WeightScale W] [WeightScale L] [LogConversion W L] in
/-- The only factor of a graph that covers the free variables. -/
theorem soleFactor?_eq_some {f : Factor W L} (h : soleFactor? g = some f) :
    g.factors = [f] ∧ f.vars = g.freeNames.toFinset := by
  unfold soleFactor? at h
  split at h
  next k hk =>
    split at h
    next hcover =>
      cases h
      rw [Bool.and_eq_true, covers_iff, covers_iff] at hcover
      refine ⟨hk, Finset.ext fun n => ?_⟩
      rw [Factor.mem_vars, List.mem_toFinset]
      exact ⟨hcover.2 n, hcover.1 n⟩
    next => cases h
  next => cases h

/-- On the way of a single factor only its total is looked at. -/
theorem answer_of_sole (hfree : g.freeNames ≠ []) {f : Factor W L} (hf : soleFactor? g = some f) :
    (e.marginals g).answer = f.totalLogWeight >>= fun c =>
      if LogConversion.isBottom W c = true then .error .zeroProbability
      else .ok ⟨[f], c, g.conditioned, observedCards g⟩ := by
  have hempty : ¬ g.freeNames.isEmpty = true := fun he => hfree (List.isEmpty_iff.1 he)
  rw [marginals]
  simp only [hempty, hf, Bool.false_eq_true, if_false]
  rfl

/-- A single factor is its own max-marginal. -/
theorem maxAnswer_of_sole (hfree : g.freeNames ≠ []) {f : Factor W L}
    (hf : soleFactor? g = some f) :
    (e.maxMarginals g).answer = .ok (MaxMarginalSet.inOrder [f] g.conditioned) := by
  have hempty : ¬ g.freeNames.isEmpty = true := fun he => hfree (List.isEmpty_iff.1 he)
  rw [maxMarginals]
  simp only [hempty, hf, Bool.false_eq_true, if_false]
  rfl

/-- Any other graph goes through its tree. -/
theorem marginals_eq_throughTree (hfree : g.freeNames ≠ []) (hsole : soleFactor? g = none) :
    e.marginals g = e.throughTree .sum "inference/build_marginals" g fun roots =>
      Passing.extractMarginals roots g.conditioned (observedCards g) := by
  have hempty : ¬ g.freeNames.isEmpty = true := fun he => hfree (List.isEmpty_iff.1 he)
  rw [marginals]
  simp only [hempty, hsole, Bool.false_eq_true, if_false]

/-- So do its max-marginals. -/
theorem maxMarginals_eq_throughTree (hfree : g.freeNames ≠ []) (hsole : soleFactor? g = none) :
    e.maxMarginals g = e.throughTree .max "inference/build_max_marginals" g fun roots =>
      Passing.extractMaxMarginals roots g.conditioned := by
  have hempty : ¬ g.freeNames.isEmpty = true := fun he => hfree (List.isEmpty_iff.1 he)
  rw [maxMarginals]
  simp only [hempty, hsole, Bool.false_eq_true, if_false]

/-- Nothing that an engine needs is missing: it needs no tree, or it has one on which all messages
are delivered. -/
def Equipped (e : Engine) (g : FactorGraph W L) : Prop :=
  g.freeNames = [] ∨ (soleFactor? g).isSome = true ∨
    ∃ t, (ofGraph e.useHint g).answer = .ok t ∧ t.Delivers

/-- If no schedule of its own is followed, a tree is enough, since its schedule delivers all
messages. -/
theorem Equipped.of_ofGraph (hg : g.Sound) (hhint : e.useHint = true → g.hint = none)
    (ht : (ofGraph e.useHint g).answer = .ok t) : e.Equipped g :=
  Or.inr (Or.inr ⟨t, ht, delivers_of_ofGraph ht hhint fun hadj =>
    (built_of_ofGraph hg ht).wellBuilt.forest.lt_size hadj⟩)

/-- An engine that is equipped answers with the max-marginals. -/
theorem Equipped.exists_maxMarginals (h : e.Equipped g) (hg : g.Sound) :
    ∃ m, (e.maxMarginals g).answer = .ok m := by
  by_cases hfree : g.freeNames = []
  · exact ⟨_, maxAnswer_of_no_names hfree⟩
  cases hsole : soleFactor? g with
  | some f => exact ⟨_, maxAnswer_of_sole hfree hsole⟩
  | none =>
    rcases h with h | h | ⟨t, ht, hall⟩
    · exact absurd h hfree
    · rw [hsole] at h
      cases h
    · obtain ⟨roots, p, ms, q, hrun, hms, -⟩ := (built_of_ofGraph hg ht).taken hg .max hall
      have hextract : Passing.extractMaxMarginals roots g.conditioned ⟨p.tree, []⟩
          = .ok ⟨ms, g.conditioned, (q.tree.tracebackOrder roots).map Int.ofNat⟩ q :=
        (PassingStep.bind_of_ok hms).trans (PassingStep.inspect_of_ok rfl)
      rw [maxMarginals_eq_throughTree hfree hsole]
      exact ⟨_, throughTree_of_ok ht hrun hextract⟩

/-- An engine that is equipped answers with the marginals, unless something is wrong with the
totals. -/
theorem Equipped.marginals (h : e.Equipped g) (hg : g.Sound) :
    Yields Fault.IsOfTotals (fun _ => True) (e.marginals g).answer := by
  by_cases hfree : g.freeNames = []
  · obtain ⟨c, hc⟩ := FactorGraph.exists_logWeightFrom
      (OrderedMap.empty : OrderedMap String Int) (hg.axes_eq_nil hfree) WeightScale.one
    rw [answer_of_no_names hfree, FactorGraph.logWeightOf, hc]
    trivial
  cases hsole : soleFactor? g with
  | some f =>
    have hin : f.scope.Within g.freeAxes :=
      hg.within f (by rw [(soleFactor?_eq_some hsole).1]; exact List.mem_singleton_self f)
    obtain ⟨c, hc⟩ := f.exists_totalLogWeight fun a ha => hg.card_pos a (hin a ha)
    rw [answer_of_sole hfree hsole, hc]
    change Yields _ _ (if LogConversion.isBottom W c = true then _ else _)
    split
    · exact Or.inl rfl
    · trivial
  | none =>
    rcases h with h | h | ⟨t, ht, hall⟩
    · exact absurd h hfree
    · rw [hsole] at h
      cases h
    · have hbuilt := built_of_ofGraph hg ht
      obtain ⟨roots, p, ms, q, hrun, hms, hframe, hroots, hcomplete⟩ := hbuilt.taken hg .sum hall
      have hweighable := Passing.weighable_of_isComplete hbuilt.wellBuilt hg.card_pos hcomplete
      have hset : Yields Fault.IsOfTotals (fun _ => True)
          (Passing.assemble q.tree ms roots g.conditioned (observedCards g)) := by
        rw [Passing.assemble_eq_of_frame_eq hframe]
        exact hweighable.assemble hroots hbuilt.wellBuilt hbuilt.size_pos
      rw [marginals_eq_throughTree hfree hsole]
      cases hm : Passing.assemble q.tree ms roots g.conditioned (observedCards g) with
      | ok m =>
        have hextract : Passing.extractMarginals roots g.conditioned (observedCards g) ⟨p.tree, []⟩
            = .ok m q := (PassingStep.bind_of_ok hms).trans (PassingStep.inspect_of_ok hm)
        exact .of_eq_ok (throughTree_of_ok ht hrun hextract) trivial
      | error fault =>
        have hextract : Passing.extractMarginals roots g.conditioned (observedCards g) ⟨p.tree, []⟩
            = .error fault q :=
          (PassingStep.bind_of_ok hms).trans (PassingStep.inspect_of_error hm)
        rw [throughTree_of_error ht hrun hextract]
        exact hset.fault_of_eq_error hm

end Engine

end ExactInference
