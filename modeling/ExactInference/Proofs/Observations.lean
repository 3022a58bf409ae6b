import ExactInference.Proofs.Answers
import ExactInference.Proofs.FillIn

/-!
# Observing variables keeps a tree

Observing variables strikes them from all factors. Which factors are kept is decided anew, so the
cliques are numbered anew, and the new elimination shares nothing with the old one. But every new
clique is what an old one leaves, and what an old clique leaves lies inside a new one. No new clique
lies inside another one, so the new cliques can be reduced because the old ones can, and elimination
finds a tree. On that tree all messages are delivered, since the old schedule is dropped.
-/

namespace ExactInference

variable {W L : Type}

/-- Every scope of a list has a place, and every place has a scope. -/
theorem exists_scopeSets_eq {scopes : List (List String)} {s : List String} (hs : s ∈ scopes) :
    ∃ i ∈ Finset.range scopes.length, scopeSets scopes i = s.toFinset := by
  obtain ⟨i, hi, rfl⟩ := List.mem_iff_getElem.1 hs
  refine ⟨i, Finset.mem_range.2 hi, ?_⟩
  rw [scopeSets, List.getD_eq_getElem?_getD, List.getElem?_eq_getElem hi, Option.getD_some]

theorem exists_eq_scopeSets {scopes : List (List String)} {i : ℕ}
    (hi : i ∈ Finset.range scopes.length) : ∃ s ∈ scopes, scopeSets scopes i = s.toFinset := by
  have hlt := Finset.mem_range.1 hi
  refine ⟨scopes[i], List.getElem_mem hlt, ?_⟩
  rw [scopeSets, List.getD_eq_getElem?_getD, List.getElem?_eq_getElem hlt, Option.getD_some]

/-- Scopes that are apart from each other can be reduced if each of them is what an old scope leaves
when some names are struck, and what an old scope leaves lies inside one of them. -/
theorem reducible_of_struck {old new : List (List String)} {struck : Finset String}
    (h : Reducible (scopeSets old) (Finset.range old.length)) (hnew : new.Pairwise Apart)
    (hfound : ∀ t ∈ new, ∃ s ∈ old, s.toFinset \ struck = t.toFinset)
    (hinside : ∀ s ∈ old, ∃ t ∈ new, s.toFinset \ struck ⊆ t.toFinset) :
    Reducible (scopeSets new) (Finset.range new.length) := by
  refine (h.sdiff struck).of_incomparable (incomparable_of_pairwise hnew) (fun j hj => ?_)
    fun i hi => ?_
  · obtain ⟨t, ht, htj⟩ := exists_eq_scopeSets hj
    obtain ⟨s, hs, hst⟩ := hfound t ht
    obtain ⟨i, hi, hsi⟩ := exists_scopeSets_eq hs
    exact ⟨i, hi, by rw [hsi, hst, htj]⟩
  · obtain ⟨s, hs, hsi⟩ := exists_eq_scopeSets hi
    obtain ⟨t, ht, hst⟩ := hinside s hs
    obtain ⟨j, hj, htj⟩ := exists_scopeSets_eq ht
    exact ⟨j, hj, by rw [hsi, htj]; exact hst⟩

/-- A kept factor that lies inside another one is that one. -/
theorem Cluster.eq_of_keptNames_subset {fs : List (Factor W L)} {c d : Cluster W L}
    (hc : c ∈ ofFactors fs) (hd : d ∈ ofFactors fs) (hsub : c.keptNames ⊆ d.keptNames) :
    c = d := by
  by_contra hne
  have hpairs := List.pairwise_map.1 (pairwise_ofFactors fs)
  have hsymm : Std.Symm fun c d : Cluster W L =>
      ¬ c.keptNames ⊆ d.keptNames ∧ ¬ d.keptNames ⊆ c.keptNames := ⟨fun _ _ h => ⟨h.2, h.1⟩⟩
  exact (hpairs.forall hc hd hne).1 hsub

namespace FactorGraph

variable [WeightScale W] [WeightScale L] {g g' : FactorGraph W L} {σ : Type} [StateValue σ]
  {a : OrderedMap String σ} (h : g.conditional a = .ok g')

include h

/-- Every factor comes from one that may have had observed variables as well. -/
theorem exists_of_mem_factors {k : Factor W L} (hk : k ∈ g'.factors) :
    ∃ f ∈ g.factors, ∀ n, n ∈ k.names ↔ n ∈ f.names ∧ n ∉ a.keys := by
  obtain ⟨observed, factors, -, hfactors, rfl⟩ := of_conditional h
  obtain ⟨f, hf, hfk⟩ := exists_of_mem_mapM hfactors hk
  exact ⟨f, hf, fun n => Factor.mem_names_conditional hfk⟩

/-- Every factor leaves one without the observed variables. -/
theorem exists_left_of_mem_factors {f : Factor W L} (hf : f ∈ g.factors) :
    ∃ k ∈ g'.factors, ∀ n, n ∈ k.names ↔ n ∈ f.names ∧ n ∉ a.keys := by
  obtain ⟨observed, factors, -, hfactors, rfl⟩ := of_conditional h
  obtain ⟨k, hk, hfk⟩ := exists_of_forall₂_left (mapM_eq_ok_iff.1 hfactors) hf
  exact ⟨k, hk, fun n => Factor.mem_names_conditional hfk⟩

/-- A variable that is not observed is mentioned as before. -/
theorem mentions_conditional {n : String} (hn : n ∉ a.keys) :
    g'.mentions n = true ↔ g.mentions n = true := by
  rw [mentions_iff, mentions_iff]
  constructor
  · rintro ⟨k, hk, hnk⟩
    obtain ⟨f, hf, hnames⟩ := exists_of_mem_factors h hk
    exact ⟨f, hf, ((hnames n).1 hnk).1⟩
  · rintro ⟨f, hf, hnf⟩
    obtain ⟨k, hk, hnames⟩ := exists_left_of_mem_factors h hf
    exact ⟨k, hk, (hnames n).2 ⟨hnf, hn⟩⟩

/-- What a kept factor leaves lies inside a factor that is kept now. -/
theorem exists_kept_of_kept {c : Cluster W L} (hc : c ∈ Cluster.ofFactors g.factors) :
    ∃ d ∈ Cluster.ofFactors g'.factors, ∀ n ∈ c.keptNames, n ∉ a.keys → n ∈ d.keptNames := by
  obtain ⟨k, hk, hnames⟩ :=
    exists_left_of_mem_factors h (mem_factors_of_mem_members hc List.mem_cons_self)
  obtain ⟨d, hd, hcovers⟩ := exists_keeper hk
  exact ⟨d, hd, fun n hn hout => hcovers n ((hnames n).2 ⟨hn, hout⟩)⟩

/-- A factor that is kept now is what a kept factor leaves. -/
theorem exists_kept_eq {d : Cluster W L} (hd : d ∈ Cluster.ofFactors g'.factors) :
    ∃ c ∈ Cluster.ofFactors g.factors, ∀ n, n ∈ d.keptNames ↔ n ∈ c.keptNames ∧ n ∉ a.keys := by
  obtain ⟨f, hf, hnames⟩ :=
    exists_of_mem_factors h (mem_factors_of_mem_members hd List.mem_cons_self)
  obtain ⟨c, hc, hcovers⟩ := exists_keeper hf
  obtain ⟨d', hd', hinside⟩ := exists_kept_of_kept h hc
  have hout : ∀ n ∈ d.keptNames, n ∈ c.keptNames ∧ n ∉ a.keys := fun n hn =>
    ⟨hcovers n ((hnames n).1 hn).1, ((hnames n).1 hn).2⟩
  -- The factor lies inside what is left of the one that covered it, and that inside a kept one.
  have hsame : d = d' := Cluster.eq_of_keptNames_subset hd hd' fun n hn =>
    hinside n (hout n hn).1 (hout n hn).2
  exact ⟨c, hc, fun n => ⟨hout n, fun hn => hsame ▸ hinside n hn.1 hn.2⟩⟩

/-- A variable without a factor stays without one, unless it is observed. -/
theorem bare_conditional {v : String} : (v ∈ g'.freeNames ∧ ¬ g'.mentions v = true) ↔
    (v ∈ g.freeNames ∧ ¬ g.mentions v = true) ∧ v ∉ a.keys := by
  rw [mem_freeNames_conditional h]
  constructor
  · rintro ⟨⟨hv, hout⟩, hbare⟩
    exact ⟨⟨hv, fun hm => hbare ((mentions_conditional h hout).2 hm)⟩, hout⟩
  · rintro ⟨⟨hv, hbare⟩, hout⟩
    exact ⟨⟨hv, hout⟩, fun hm => hbare ((mentions_conditional h hout).1 hm)⟩

/-- Every minimal scope is what one leaves when the observed variables are struck. -/
theorem exists_minimalNames_eq {t : List String} (ht : t ∈ g'.minimalNames) :
    ∃ s ∈ g.minimalNames, s.toFinset \ a.keys.toFinset = t.toFinset := by
  rcases mem_minimalNames.1 ht with ⟨d, hd, rfl⟩ | ⟨v, hv, hbare, rfl⟩
  · obtain ⟨c, hc, hnames⟩ := exists_kept_eq h hd
    refine ⟨c.keptNames, mem_minimalNames.2 (Or.inl ⟨c, hc, rfl⟩), Finset.ext fun n => ?_⟩
    rw [Finset.mem_sdiff, List.mem_toFinset, List.mem_toFinset, List.mem_toFinset, hnames]
  · obtain ⟨⟨hv, hbare⟩, hout⟩ := (bare_conditional h).1 ⟨hv, hbare⟩
    refine ⟨[v], mem_minimalNames.2 (Or.inr ⟨v, hv, hbare, rfl⟩), ?_⟩
    rw [Finset.sdiff_eq_self_iff_disjoint, List.toFinset_cons, List.toFinset_nil,
      insert_empty_eq, Finset.disjoint_singleton_left, List.mem_toFinset]
    exact hout

/-- What a minimal scope leaves when the observed variables are struck lies inside one, if there is
one at all. -/
theorem exists_minimalNames_subset (hne : g'.minimalNames ≠ []) {s : List String}
    (hs : s ∈ g.minimalNames) :
    ∃ t ∈ g'.minimalNames, s.toFinset \ a.keys.toFinset ⊆ t.toFinset := by
  rcases mem_minimalNames.1 hs with ⟨c, hc, rfl⟩ | ⟨v, hv, hbare, rfl⟩
  · obtain ⟨d, hd, hinside⟩ := exists_kept_of_kept h hc
    refine ⟨d.keptNames, mem_minimalNames.2 (Or.inl ⟨d, hd, rfl⟩), fun n hn => ?_⟩
    rw [Finset.mem_sdiff, List.mem_toFinset, List.mem_toFinset] at hn
    exact List.mem_toFinset.2 (hinside n hn.1 hn.2)
  · by_cases hout : v ∈ a.keys
    · obtain ⟨t, ht⟩ := List.exists_mem_of_ne_nil _ hne
      refine ⟨t, ht, fun n hn => ?_⟩
      rw [Finset.mem_sdiff, List.mem_toFinset, List.mem_singleton, List.mem_toFinset] at hn
      exact absurd (hn.1 ▸ hout) hn.2
    · obtain ⟨hv, hbare⟩ := (bare_conditional h).2 ⟨⟨hv, hbare⟩, hout⟩
      exact ⟨[v], mem_minimalNames.2 (Or.inr ⟨v, hv, hbare, rfl⟩), Finset.sdiff_subset⟩

end FactorGraph

variable [WeightScale W] [WeightScale L] [LogConversion W L] {g g' : FactorGraph W L} {σ : Type}
  [StateValue σ] {a : OrderedMap String σ} {t : CliqueTree W L} {useHint : Bool}

open CliqueTree

/-- Observing variables keeps a tree, as long as a variable is free. -/
theorem CliqueTree.exists_ofGraph_conditional (hg : g.Sound)
    (ht : (ofGraph useHint g).answer = .ok t) (h : g.conditional a = .ok g')
    (hfree : g'.freeNames ≠ []) (e : Bool) : ∃ t', (ofGraph e g').answer = .ok t' := by
  have hg' := hg.conditional h
  obtain ⟨factors, hfactors, hne⟩ := hg'.exists_minimalFactors_ne_nil hfree
  have hnames := hg'.names_minimalFactors hfactors
  have hne' : g'.minimalNames ≠ [] := by
    rw [← hnames]
    simpa using hne
  have hred : Reducible (scopeSets g'.minimalNames) (Finset.range g'.minimalNames.length) :=
    reducible_of_struck (reducible_of_ofGraph hg ht) hg'.pairwise_apart
      (fun _ hs => FactorGraph.exists_minimalNames_eq h hs)
      fun _ hs => FactorGraph.exists_minimalNames_subset h hne' hs
  have hinc := incomparable_of_pairwise hg'.pairwise_apart
  rw [← hnames] at hred hinc
  obtain ⟨done, hdone⟩ := Elimination.exists_run (rankIn g'.freeNames) (nodup_names factors)
    (by simpa using hne) (factors.map Factor.size) hred hinc
  obtain ⟨observed, fs, -, -, rfl⟩ := FactorGraph.of_conditional h
  exact exists_ofGraph (fun _ => rfl) hfactors hne hdone

namespace Engine

/-- So nothing that an engine needs is missing. -/
theorem equipped_conditional (hg : g.Sound) (ht : (ofGraph useHint g).answer = .ok t)
    (h : g.conditional a = .ok g') (e : Engine) : e.Equipped g' := by
  by_cases hfree : g'.freeNames = []
  · exact Or.inl hfree
  · obtain ⟨t', ht'⟩ := exists_ofGraph_conditional hg ht h hfree e.useHint
    have hnone : g'.hint = none := by
      obtain ⟨observed, fs, -, -, rfl⟩ := FactorGraph.of_conditional h
      rfl
    exact .of_ofGraph (hg.conditional h) (fun _ => hnone) ht'

/-- Observing variables never makes a graph that has a tree unanswerable: no engine lacks a tree for
what is left, whichever variables are observed. -/
theorem constructs_conditional (hg : FactorGraph.Reachable g)
    (ht : (ofGraph useHint g).answer = .ok t) (h : g.conditional a = .ok g') (e : Engine) :
    (∀ fault, (e.marginals g').answer = .error fault → fault.isConstruction = false) ∧
      ∀ fault, (e.maxMarginals g').answer = .error fault → fault.isConstruction = false := by
  have hequipped := equipped_conditional hg.sound ht h e
  have hsound := hg.sound.conditional h
  refine ⟨fun fault hfault => ?_, fun fault hfault => ?_⟩
  · rcases (hequipped.marginals hsound).fault_of_eq_error hfault with rfl | rfl
    · rfl
    · rfl
  · obtain ⟨m, hm⟩ := hequipped.exists_maxMarginals hsound
    cases hfault.symm.trans hm

/-- Three components of which two variables more are observed: one that joined two factors, and one
that no factor mentions. -/
theorem constructs_islands :
    ∃ g t g', islands = .ok g ∧ (ofGraph true g).answer = .ok t ∧
      g.conditional (OrderedMap.ofList [("B", (1 : Int)), ("F", 2)]) = .ok g' ∧
      (∀ fault, (standard.marginals g').answer = .error fault → fault.isConstruction = false) ∧
      ∀ fault, (standard.maxMarginals g').answer = .error fault → fault.isConstruction = false := by
  have hok : (islands >>= fun g => (ofGraph true g).answer >>= fun _ =>
      g.conditional (OrderedMap.ofList [("B", (1 : Int)), ("F", 2)])).toBool = true := by
    decide +kernel
  obtain ⟨g', hrun⟩ := exists_of_toBool hok
  obtain ⟨g, hg, hrun⟩ := bind_eq_ok_iff.1 hrun
  obtain ⟨t, ht, h⟩ := bind_eq_ok_iff.1 hrun
  exact ⟨g, t, g', hg, ht, h, constructs_conditional (reachable_of_islands hg) ht h standard⟩

end Engine

end ExactInference
