import ExactInference.CliqueTree.Extraction
import ExactInference.Proofs.BuiltTrees
import ExactInference.Proofs.Schedule

/-!
# Final marginals

When all messages have been sent, taking the marginals out succeeds, and each of them is the exact
marginal of the tree that its clique belongs to; otherwise the first clique that misses a message
fails. The product of the cliques is the joint weight of the graph and their variables are the free
ones, so a marginal of all cliques is a marginal of the graph.
-/

namespace ExactInference

namespace CliqueTree

open PassingStep

variable {W L : Type} [WeightScale W] [WeightScale L] [LogConversion W L] {t : CliqueTree W L}
  {axes : List Axis} {mode : Mode} {p : Passing W L} {late : ℕ → ℕ → Prop}

/-- A property of coherent trees that holds on when a clique is completed. -/
structure Completes (axes : List Axis) (holds : CliqueTree W L → Prop) : Prop where
  /-- It implies coherence. -/
  coherent : ∀ {t : CliqueTree W L}, holds t → Coherent axes t
  /-- Completing a clique keeps it. -/
  fold : ∀ {p : Passing W L} {i : ℕ} {c : Clique W L} {m : Factor W L}, holds p.tree →
    Completed axes p i c m → holds (p.tree.folding i m c.unfolded)

/-- Being coherent is kept. -/
theorem Coherent.completes (axes : List Axis) : Completes axes (Coherent (W := W) (L := L) axes)
    where
  coherent h := h
  fold _ hdone := hdone.coherent

/-- Whether a factor is the marginal of a clique that has folded in everything, in a tree with some
property. -/
def IsComplete (holds : CliqueTree W L → Prop) (t : CliqueTree W L) (i : ℕ) (m : Factor W L) :
    Prop :=
  ∃ u c, u.frame = t.frame ∧ holds u ∧ u.cliques[i]? = some c ∧ c.marginal = m ∧
    ∀ k, u.graph.Adj i k → (k : Int) ∈ c.folded

variable {holds : CliqueTree W L → Prop}

omit [WeightScale W] [WeightScale L] [LogConversion W L] in
theorem IsComplete.of_frame_eq {u : CliqueTree W L} {i : ℕ} {m : Factor W L}
    (h : IsComplete holds t i m) (hf : t.frame = u.frame) : IsComplete holds u i m := by
  obtain ⟨v, c, hframe, hrest⟩ := h
  exact ⟨v, c, hframe.trans hf, hrest⟩

section Completes

variable (hI : Completes axes holds) (hd : (axes.map Axis.name).Nodup)

include hI hd

/-- All cliques can be completed once all messages have been sent. -/
theorem Completes.mapM_computeMarginal (h : holds p.tree) (hall : p.tree.AllSent) {is : List ℕ}
    (his : ∀ i ∈ is, i < p.tree.size) :
    ∃ ms q, (is.mapM fun (i : ℕ) => Passing.computeMarginal (i : Int)) p = .ok ms q ∧
      q.tree.frame = p.tree.frame ∧ holds q.tree ∧
      List.Forall₂ (IsComplete holds p.tree) is ms := by
  induction is generalizing p with
  | nil => exact ⟨[], p, rfl, rfl, h, List.Forall₂.nil⟩
  | cons i is ih =>
    obtain ⟨c, m, hdone⟩ := (hI.coherent h).exists_completed hd (his i List.mem_cons_self)
      fun k hk => hall k i hk.symm
    have hframe := frame_folding p.tree i m c.unfolded
    have hgraph := graph_eq_of_frame_eq hframe
    obtain ⟨ms, q, hms, hqframe, hqholds, hcomplete⟩ :=
      ih (p := { p with tree := p.tree.folding i m c.unfolded }) (hI.fold h hdone)
        (fun a b hab => by
          change ((p.tree.folding i m c.unfolded).message a b).isSome = true
          rw [message_folding]
          exact hall a b (hgraph ▸ hab))
        (fun j hj => by
          change j < (p.tree.folding i m c.unfolded).size
          rw [size_eq_of_frame_eq hframe]
          exact his j (List.mem_cons_of_mem i hj))
    have hself : IsComplete holds p.tree i m :=
      ⟨_, _, hframe, hI.fold h hdone, hdone.clique_folding, rfl, fun k hk =>
        ((hI.coherent h).mem_folded_append_unfolded hdone.clique k).2 ⟨k, rfl, hgraph ▸ hk⟩⟩
    refine ⟨m :: ms, q, ?_, hqframe.trans hframe, hqholds,
      List.Forall₂.cons hself (hcomplete.imp fun _ _ hf => hf.of_frame_eq hframe)⟩
    rw [List.mapM_cons]
    exact (bind_of_ok hdone.run).trans (bind_of_ok hms)

/-- Taking the marginals out completes all cliques. -/
theorem Completes.takeMarginals (h : holds p.tree) (hall : p.tree.AllSent) :
    ∃ ms q, Passing.takeMarginals p = .ok ms q ∧ q.tree.frame = p.tree.frame ∧
      List.Forall₂ (IsComplete holds p.tree) (List.range p.tree.size) ms := by
  obtain ⟨ms, q, hms, hframe, hholds, hcomplete⟩ :=
    hI.mapM_computeMarginal hd h hall fun i hi => List.mem_range.1 hi
  have hclose : change CliqueTree.markExtracted q
      = .ok () { q with tree := { q.tree with phase := .extracted } } := by
    refine change_of_ok ?_
    rw [markExtracted, checkOpen, if_neg (hI.coherent hholds).isOpen]
    rfl
  refine ⟨ms, { q with tree := { q.tree with phase := .extracted } }, ?_, hframe, hcomplete⟩
  exact (bind_of_ok hms).trans (bind_of_ok hclose)

/-- The first clique that misses a message fails. -/
theorem Completes.mapM_computeMarginal_error {is : List ℕ} (h : holds p.tree)
    (his : ∀ i ∈ is, i < p.tree.size)
    (hsome : ∃ i ∈ is, ∃ k, p.tree.graph.Adj i k ∧ ¬ p.tree.Sent k i) :
    ∃ (k i : ℕ) (q : Passing W L),
      (is.mapM fun (i : ℕ) => Passing.computeMarginal (i : Int)) p
        = .error (.messageMissing k i) q := by
  induction is generalizing p with
  | nil =>
    obtain ⟨i, hi, -⟩ := hsome
    simp at hi
  | cons i is ih =>
    by_cases hready : ∀ k, p.tree.graph.Adj i k → p.tree.Sent k i
    · obtain ⟨c, m, hdone⟩ := (hI.coherent h).exists_completed hd (his i List.mem_cons_self) hready
      have hframe := frame_folding p.tree i m c.unfolded
      have hsent := sent_folding p.tree i m c.unfolded
      obtain ⟨j, hj, k, hjk, hkj⟩ := hsome
      have hj' : j ∈ is := (List.mem_cons.1 hj).resolve_left fun he => by
        subst he
        exact hkj (hready k hjk)
      obtain ⟨k', i', q, hq⟩ :=
        ih (p := { p with tree := p.tree.folding i m c.unfolded }) (hI.fold h hdone)
          (fun l hl => by
            change l < (p.tree.folding i m c.unfolded).size
            rw [size_eq_of_frame_eq hframe]
            exact his l (List.mem_cons_of_mem i hl))
          ⟨j, hj', k, graph_eq_of_frame_eq hframe ▸ hjk, hsent ▸ hkj⟩
      refine ⟨k', i', q, ?_⟩
      rw [List.mapM_cons]
      exact (bind_of_ok hdone.run).trans (bind_of_error hq)
    · push Not at hready
      obtain ⟨k, hk⟩ := (hI.coherent h).computeMarginal_of_missing (his i List.mem_cons_self) hready
      refine ⟨k, i, p, ?_⟩
      rw [List.mapM_cons]
      exact bind_of_error hk

/-- Taking the marginals out fails if a message has not been sent. -/
theorem Completes.takeMarginals_error (h : holds p.tree) (hmissing : ¬ p.tree.AllSent) :
    ∃ (k i : ℕ) (q : Passing W L),
      Passing.takeMarginals p = .error (.messageMissing k i) q := by
  have hsome : ∃ i ∈ List.range p.tree.size, ∃ k, p.tree.graph.Adj i k ∧ ¬ p.tree.Sent k i := by
    simp only [AllSent, not_forall] at hmissing
    obtain ⟨k, i, hki, hunsent⟩ := hmissing
    exact ⟨i, List.mem_range.2 ((hI.coherent h).wired.lt_size hki.symm), k, hki.symm, hunsent⟩
  obtain ⟨k, i, q, hq⟩ :=
    hI.mapM_computeMarginal_error hd h (fun i hi => List.mem_range.1 hi) hsome
  refine ⟨k, i, q, ?_⟩
  change ((List.range p.tree.size).mapM (fun (i : ℕ) => Passing.computeMarginal (i : Int)) >>= _) p
    = _
  exact bind_of_error hq

end Completes

omit [WeightScale W] [WeightScale L] [LogConversion W L] in
/-- The marginal of a complete clique has the axes of the clique's factor. -/
theorem IsComplete.exists_scope_eq {i : ℕ} {m : Factor W L}
    (h : IsComplete (Coherent axes) t i m) :
    ∃ c, t.cliques[i]? = some c ∧ m.scope = c.factor.scope := by
  obtain ⟨u, c, hframe, hcoherent, hc, rfl, -⟩ := h
  obtain ⟨d, hd, hfactor, -⟩ := exists_of_frame_eq hframe hc
  exact ⟨d, hd, by rw [hcoherent.marginal_scope hc, hfactor]⟩

variable [Semifield W] [LinearOrder W]

/-- Whether a factor is the final marginal of a clique. -/
def IsFinal (mode : Mode) (axes : List Axis) (t : CliqueTree W L) (i : ℕ) (m : Factor W L) : Prop :=
  (∃ c, t.cliques[i]? = some c ∧ m.scope = c.factor.scope) ∧
    ∀ x, InRange axes x → m.weightAt x = t.treeMarginal mode axes i x

theorem IsFinal.vars_eq {i : ℕ} {m : Factor W L} (h : IsFinal mode axes t i m) :
    m.vars = t.scopeOf i := by
  obtain ⟨⟨c, hc, hscope⟩, -⟩ := h
  rw [scopeOf_eq hc, Factor.vars_eq_of_scope_eq hscope]

theorem IsFinal.of_frame_eq {u : CliqueTree W L} {i : ℕ} {m : Factor W L}
    (h : IsFinal mode axes t i m) (hf : t.frame = u.frame) : IsFinal mode axes u i m := by
  obtain ⟨⟨c, hc, hscope⟩, hweight⟩ := h
  obtain ⟨d, hd, hfactor, -⟩ := exists_of_frame_eq hf hc
  refine ⟨⟨d, hd, by rw [hscope, hfactor]⟩, fun x hx => ?_⟩
  rw [hweight x hx, treeMarginal_eq_of_frame_eq hf]

variable [ExactScale W] [ExactLog W L]

/-- Being exact is kept when a clique is completed. -/
theorem Progress.completes (mode : Mode) (hd : (axes.map Axis.name).Nodup)
    (late : ℕ → ℕ → Prop) :
    Completes axes fun t : CliqueTree W L => Progress mode axes t late where
  coherent h := h.toCoherent
  fold h hdone := h.folding_completed hd hdone

variable [IsStrictOrderedRing W] [CanonicallyOrderedAdd W]

omit [ExactScale W] [ExactLog W L] in
/-- The marginal of a complete clique is final. -/
theorem IsComplete.isFinal (hd : (axes.map Axis.name).Nodup) {i : ℕ} {m : Factor W L}
    (h : IsComplete (Progress mode axes · late) t i m) : IsFinal mode axes t i m := by
  obtain ⟨u, c, hframe, hprogress, hc, rfl, hfolded⟩ := h
  have hself : IsFinal mode axes u i c.marginal :=
    ⟨⟨c, hc, hprogress.marginal_scope hc⟩, fun x hx =>
      hprogress.marginal_eq_treeMarginal hd hc hfolded hx⟩
  exact hself.of_frame_eq hframe

/-- Taking the marginals out answers with the final marginals of all cliques. -/
theorem Progress.takeMarginals (h : Progress mode axes p.tree late)
    (hd : (axes.map Axis.name).Nodup) (hall : p.tree.AllSent) :
    ∃ ms q, Passing.takeMarginals p = .ok ms q ∧ q.tree.frame = p.tree.frame ∧
      List.Forall₂ (IsFinal mode axes p.tree) (List.range p.tree.size) ms := by
  obtain ⟨ms, q, hms, hframe, hcomplete⟩ :=
    (Progress.completes mode hd late).takeMarginals hd h hall
  exact ⟨ms, q, hms, hframe, hcomplete.imp fun _ _ hm => hm.isFinal hd⟩

omit [IsStrictOrderedRing W] [CanonicallyOrderedAdd W] in
/-- Some clique fails if a message has not been sent. -/
theorem Progress.takeMarginals_error (h : Progress mode axes p.tree late)
    (hd : (axes.map Axis.name).Nodup) (hmissing : ¬ p.tree.AllSent) :
    ∃ (k i : ℕ) (q : Passing W L),
      Passing.takeMarginals p = .error (.messageMissing k i) q :=
  (Progress.completes mode hd late).takeMarginals_error hd h hmissing

end CliqueTree

end ExactInference
