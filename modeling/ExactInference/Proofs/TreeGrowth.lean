import ExactInference.CliqueTree.Extraction
import ExactInference.Proofs.Interleavings

/-!
# Trees only grow

Whatever is asked of a clique tree, in whatever order and however it ends, only adds to it: stored
messages and folded neighbors stay, the factors, separators and the schedule never change, and no
stage comes back. This is shown once for the functions that change the tree, and carried through
sequences, lists and whole runs; a step that fails half way has grown the tree as well.
-/

namespace ExactInference

/-- The place of a stage in the life of a tree. -/
def Phase.place : Phase → ℕ
  | built => 0
  | inProgress => 1
  | extracted => 2
variable {W L α β : Type}

/-- A clique that has the factor and the separators of an earlier one, all its messages, and all the
neighbors that it had folded in. -/
structure Clique.Grows (c d : Clique W L) : Prop where
  /-- The factor and the separators are the same. -/
  frame_eq : d.frame = c.frame
  /-- A stored message is neither replaced nor removed. -/
  message : ∀ {n : Int} {m : Factor W L}, c.messages.get? n = some m → d.messages.get? n = some m
  /-- What was folded in stays folded in. -/
  folded : ∀ {n : Int}, n ∈ c.folded → n ∈ d.folded

theorem Clique.Grows.refl (c : Clique W L) : c.Grows c := ⟨rfl, id, id⟩

/-- A tree that an earlier one can turn into. -/
structure CliqueTree.Grows (t u : CliqueTree W L) : Prop where
  /-- The factors and the separators are the same. -/
  frame_eq : u.frame = t.frame
  /-- So is the schedule. -/
  order_eq : u.order = t.order
  /-- No earlier stage comes back. -/
  place_le : t.phase.place ≤ u.phase.place
  /-- Every clique has grown. -/
  clique : ∀ {i : ℕ} {c d : Clique W L}, t.cliques[i]? = some c → u.cliques[i]? = some d → c.Grows d

theorem mem_addOnce_of_mem {ns : List Int} {n k : Int} (h : n ∈ ns) : n ∈ addOnce ns k := by
  unfold addOnce
  split
  · exact h
  · exact List.mem_append_left _ h

/-- Numbers that are added to a list leave the list in place. -/
theorem mem_foldl_addOnce {ns more : List Int} {n : Int} (h : n ∈ ns) :
    n ∈ more.foldl addOnce ns := by
  induction more generalizing ns with
  | nil => exact h
  | cons k more ih => exact ih (mem_addOnce_of_mem h)

namespace CliqueTree

variable {t u v : CliqueTree W L} {i j a b : Int} {ns : List Int} {c : Clique W L}

namespace Grows

theorem refl (t : CliqueTree W L) : t.Grows t where
  frame_eq := rfl
  order_eq := rfl
  place_le := le_rfl
  clique hc hd := by
    cases hc.symm.trans hd
    exact Clique.Grows.refl _

theorem trans (h : t.Grows u) (h' : u.Grows v) : t.Grows v where
  frame_eq := h'.frame_eq.trans h.frame_eq
  order_eq := h'.order_eq.trans h.order_eq
  place_le := h.place_le.trans h'.place_le
  clique {k c d} hc hd := by
    obtain ⟨e, he, -⟩ := exists_of_frame_eq h.frame_eq.symm hc
    have hce := h.clique hc he
    have hed := h'.clique he hd
    exact ⟨hed.frame_eq.trans hce.frame_eq, fun hm => hed.message (hce.message hm),
      fun hn => hed.folded (hce.folded hn)⟩

/-- The edges are read off the separators. -/
theorem edges_eq (h : t.Grows u) : u.edges = t.edges := edges_eq_of_frame_eq h.frame_eq

/-- Entering a later stage changes nothing else. -/
theorem enter {phase : Phase} (h : t.phase.place ≤ phase.place) :
    t.Grows { t with phase } where
  frame_eq := rfl
  order_eq := rfl
  place_le := h
  clique := (refl t).clique

/-- A tree grows if one of its cliques does. -/
theorem update {place : ℕ} {f : Clique W L → Clique W L} (hframe : ∀ c, (f c).frame = c.frame)
    (hf : ∀ {c}, t.cliques[place]? = some c → c.Grows (f c)) : t.Grows (t.update place f) where
  frame_eq := frame_update hframe
  order_eq := rfl
  place_le := le_rfl
  clique {k c d} hc hd := by
    rw [getElem?_update] at hd
    split at hd
    next hk =>
      subst hk
      rw [hc, Option.map_some, Option.some.injEq] at hd
      exact hd ▸ hf hc
    next =>
      cases hc.symm.trans hd
      exact Clique.Grows.refl _

end Grows

/-- A clique is read at the place that its index stands for. -/
theorem exists_of_cliqueAt (h : t.cliqueAt i = .ok c) :
    ∃ place, resolveIndex t.cliques.length i = .ok place ∧ t.cliques[place]? = some c := by
  obtain ⟨place, hplace, h⟩ := bind_eq_ok_iff.1 h
  split at h
  next hget =>
    cases h
    exact ⟨place, hplace, hget⟩
  next => cases h

/-- It is changed at the same place. -/
theorem exists_of_modifyAt {f : Clique W L → Clique W L} (h : t.modifyAt i f = .ok u) :
    ∃ place, resolveIndex t.cliques.length i = .ok place ∧ u = t.update place f := by
  obtain ⟨place, hplace, h⟩ := bind_eq_ok_iff.1 h
  cases h
  exact ⟨place, hplace, rfl⟩

theorem checkOpen_of_extracted (h : t.phase = .extracted) : t.checkOpen = .error .treeSpent :=
  if_pos h

theorem grows_of_addMessage {m : Factor W L} (h : t.addMessage a b m = .ok u) : t.Grows u := by
  obtain ⟨⟨⟩, -, h⟩ := bind_eq_ok_iff.1 h
  obtain ⟨c, hc, h⟩ := bind_eq_ok_iff.1 h
  obtain ⟨hnew, h⟩ := refuse_eq_ok_iff.1 h
  obtain ⟨place, hplace, rfl⟩ := exists_of_modifyAt h
  refine Grows.update (fun _ => rfl) fun {d} hd => ⟨rfl, fun {n k} hk => ?_, id⟩
  -- The sender is the clique of which it was checked that it has not sent this message.
  obtain ⟨place', hplace', hc⟩ := exists_of_cliqueAt hc
  cases hplace.symm.trans hplace'
  cases hc.symm.trans hd
  have hne : n ≠ b := by
    rintro rfl
    exact hnew (by rw [OrderedMap.contains, hk]; rfl)
  exact (OrderedMap.get?_insert_of_ne _ hne m).trans hk

theorem grows_of_beginPassing (h : t.beginPassing = .ok u) : t.Grows u := by
  obtain ⟨⟨⟩, hopen, h⟩ := bind_eq_ok_iff.1 h
  cases h
  refine Grows.enter ?_
  unfold checkOpen at hopen
  split at hopen
  · cases hopen
  next hphase =>
    cases hp : t.phase with
    | built => decide
    | inProgress => decide
    | extracted => exact absurd hp hphase

theorem grows_of_markExtracted (h : t.markExtracted = .ok u) : t.Grows u := by
  obtain ⟨⟨⟩, -, h⟩ := bind_eq_ok_iff.1 h
  cases h
  refine Grows.enter ?_
  cases t.phase <;> decide

variable [WeightScale W] [WeightScale L] [LogConversion W L]

/-- A fold reads all messages before it changes anything. -/
theorem fold_eq_bind (t : CliqueTree W L) (i : Int) (ns : List Int) :
    t.fold i ns = t.checkOpen >>= fun _ => t.cliqueAt i >>= fun c =>
      (ascending ns).mapM (t.received i) >>= fun messages =>
        if messages.isEmpty then .ok (t, c.marginal)
        else c.marginal.productAll messages >>= fun marginal =>
          t.modifyAt i (fun c => { c with marginal, folded := ns.foldl addOnce c.folded }) >>=
            fun t => .ok (t, marginal) := rfl

theorem grows_of_fold {m : Factor W L} (h : t.fold i ns = .ok (u, m)) : t.Grows u := by
  rw [fold_eq_bind] at h
  obtain ⟨⟨⟩, -, h⟩ := bind_eq_ok_iff.1 h
  obtain ⟨c, hc, h⟩ := bind_eq_ok_iff.1 h
  obtain ⟨messages, -, h⟩ := bind_eq_ok_iff.1 h
  split at h
  · cases h
    exact Grows.refl t
  · obtain ⟨marginal, -, h⟩ := bind_eq_ok_iff.1 h
    obtain ⟨t', ht', h⟩ := bind_eq_ok_iff.1 h
    cases h
    obtain ⟨place, -, rfl⟩ := exists_of_modifyAt ht'
    exact Grows.update (fun _ => rfl) fun _ => ⟨rfl, id, mem_foldl_addOnce⟩

theorem grows_of_computeMarginal {m : Factor W L} (h : t.computeMarginal i = .ok (u, m)) :
    t.Grows u := by
  obtain ⟨c, -, h⟩ := bind_eq_ok_iff.1 h
  exact grows_of_fold h

end CliqueTree

namespace PassingStep

variable {x : PassingStep W L α}

/-- A step after which the tree has grown, whether it fails or not. -/
def Grows (x : PassingStep W L α) : Prop :=
  ∀ p : Passing W L, p.tree.Grows (stateAfter (x p)).tree

namespace Grows

theorem pure (a : α) : Grows (pure a : PassingStep W L α) := fun p => .refl p.tree

theorem bind {f : α → PassingStep W L β} (h : Grows x) (hf : ∀ a, Grows (f a)) :
    Grows (x >>= f) := by
  intro p
  have hx := h p
  cases hxp : x p with
  | ok a q =>
    rw [hxp] at hx
    rw [bind_of_ok hxp]
    exact hx.trans (hf a q)
  | error e q =>
    rw [hxp] at hx
    rw [bind_of_error hxp]
    exact hx

theorem get : Grows (get : PassingStep W L (Passing W L)) := fun p => .refl p.tree

theorem report (e : Event) : Grows (report e : PassingStep W L Unit) := fun p => .refl p.tree

theorem inspect (f : CliqueTree W L → Except Fault α) : Grows (inspect f) := by
  intro p
  cases hf : f p.tree with
  | ok a =>
    rw [inspect_of_ok hf]
    exact .refl p.tree
  | error e =>
    rw [inspect_of_error hf]
    exact .refl p.tree

theorem change {f : CliqueTree W L → Except Fault (CliqueTree W L)}
    (h : ∀ {t u}, f t = .ok u → t.Grows u) : Grows (change f) := by
  intro p
  cases hf : f p.tree with
  | ok t =>
    rw [change_of_ok hf]
    exact h hf
  | error e =>
    rw [change_of_error hf]
    exact .refl p.tree

theorem changing {f : CliqueTree W L → Except Fault (CliqueTree W L × α)}
    (h : ∀ {t u a}, f t = .ok (u, a) → t.Grows u) : Grows (changing f) := by
  intro p
  cases hf : f p.tree with
  | ok r =>
    rw [changing_of_ok hf]
    exact h hf
  | error e =>
    rw [changing_of_error hf]
    exact .refl p.tree

theorem mapM {xs : List β} {f : β → PassingStep W L α} (h : ∀ b, Grows (f b)) :
    Grows (xs.mapM f) := by
  induction xs with
  | nil => exact .pure []
  | cons b xs ih =>
    rw [List.mapM_cons]
    exact (h b).bind fun a => ih.bind fun as => .pure (a :: as)

theorem foldlM {xs : List β} {f : α → β → PassingStep W L α} (h : ∀ a b, Grows (f a b)) (a : α) :
    Grows (xs.foldlM f a) := by
  induction xs generalizing a with
  | nil => exact .pure a
  | cons b xs ih =>
    rw [List.foldlM_cons]
    exact (h a b).bind ih

theorem forM {xs : List β} {f : β → PassingStep W L Unit} (h : ∀ b, Grows (f b)) :
    Grows (xs.forM f) := by
  induction xs with
  | nil => exact .pure ()
  | cons b xs ih => exact (h b).bind fun _ => ih

end Grows

end PassingStep

namespace Passing

open PassingStep

variable [WeightScale W] [WeightScale L] [LogConversion W L]

theorem grows_pass (mode : Mode) (a b : Int) : Grows (pass mode a b : PassingStep W L _) := by
  refine (Grows.report _).bind fun _ => (Grows.inspect _).bind fun s => ?_
  refine (Grows.changing fun h => ?_).bind fun marginal => (Grows.inspect _).bind fun m => ?_
  · obtain ⟨ns, -, h⟩ := bind_eq_ok_iff.1 h
    exact CliqueTree.grows_of_fold h
  · exact (Grows.change CliqueTree.grows_of_addMessage).bind fun _ => .pure m

theorem grows_visit (mode : Mode) (roots : List Int) (i : Int) :
    Grows (visit mode roots i : PassingStep W L _) := by
  refine (Grows.inspect _).bind fun inbound => (Grows.inspect _).bind fun sent => ?_
  refine (Grows.forM fun s => (grows_pass mode _ _).bind fun _ => .pure ()).bind fun _ => ?_
  split
  · exact .pure _
  · exact .pure _

theorem grows_run (mode : Mode) : Grows (run mode : PassingStep W L _) := by
  refine (Grows.change CliqueTree.grows_of_beginPassing).bind fun _ => Grows.get.bind fun p => ?_
  refine (Grows.foldlM (grows_visit mode) []).bind fun roots => ?_
  exact (Grows.report _).bind fun _ => .pure _

theorem grows_computeMarginal (i : Int) : Grows (computeMarginal i : PassingStep W L _) :=
  Grows.changing CliqueTree.grows_of_computeMarginal

theorem grows_takeMarginals : Grows (takeMarginals : PassingStep W L _) := by
  refine Grows.get.bind fun p => (Grows.mapM fun i => grows_computeMarginal _).bind fun ms => ?_
  exact (Grows.change CliqueTree.grows_of_markExtracted).bind fun _ => .pure ms

end Passing

end ExactInference
