import ExactInference.Proofs.PointwiseProducts
import ExactInference.Proofs.TreeGrowth

/-!
# The life of a clique tree

A call that changes the tree at one place leaves it alone if it is refused, and so does a message
for which another one is missing: everything that can fail for a missing message comes before the
first change. Once the marginals have been taken out every call is refused. Together with what only
grows, this describes a tree after any sequence of calls.
-/

namespace ExactInference

/-- Something that is asked of a clique tree, of a scheduler or of an extractor. -/
inductive TreeCall (W L : Type) where
  /-- Store a message. -/
  | addMessage (start stop : Int) (m : Factor W L)
  /-- Multiply messages from neighbors into a marginal. -/
  | fold (i : Int) (neighbors : List Int)
  /-- Compute and store a message. -/
  | pass (mode : Mode) (start stop : Int)
  /-- Compute the marginal of a clique. -/
  | marginal (i : Int)
  /-- Pass all messages along the schedule and back. -/
  | run (mode : Mode)
  /-- Enter the stage of message passing. -/
  | beginPassing
  /-- Close the tree. -/
  | markExtracted
  /-- Take the marginals out. -/
  | extract (mode : Mode) (roots : List Int) (conditioned cards : OrderedMap String Int)

variable {W L α β : Type}

namespace CliqueTree

variable {t : CliqueTree W L} {i a b : Int} {ns : List Int} {c : Clique W L}

/-- Whether a message has to wait for the one of another neighbor. -/
def Awaits (t : CliqueTree W L) (start stop : Int) : Prop :=
  ∃ c, t.cliqueAt start = .ok c ∧ ∃ n ∈ c.unfolded, n ≠ stop ∧ t.message? n start = .ok none

variable [WeightScale W] [WeightScale L] [LogConversion W L]

/-- There is no fold without all its messages. -/
theorem fold_of_missing {n : Int} (hn : n ∈ ns) (hnone : t.message? n i = .ok none) :
    ∃ e, t.fold i ns = .error e := by
  cases hfold : t.fold i ns with
  | error e => exact ⟨e, rfl⟩
  | ok r =>
    rw [fold_eq_bind] at hfold
    obtain ⟨⟨⟩, -, hfold⟩ := bind_eq_ok_iff.1 hfold
    obtain ⟨c, -, hfold⟩ := bind_eq_ok_iff.1 hfold
    obtain ⟨messages, hall, -⟩ := bind_eq_ok_iff.1 hfold
    have hn : n ∈ ascending ns := (arrange_perm _ _).mem_iff.2 hn
    obtain ⟨m, -, hm⟩ := exists_of_forall₂_left (mapM_eq_ok_iff.1 hall) hn
    rw [received, hnone] at hm
    cases hm

/-- Nor is there one for a message that has to wait. -/
theorem Awaits.pending_fold (h : t.Awaits a b) :
    ∃ e, (Passing.pending t a b >>= t.fold a) = .error e := by
  obtain ⟨c, hc, n, hn, hne, hnone⟩ := h
  cases hpending : Passing.pending t a b with
  | error e => exact ⟨e, rfl⟩
  | ok ns =>
    refine fold_of_missing ?_ hnone
    obtain ⟨d, hd, hpending⟩ := bind_eq_ok_iff.1 hpending
    cases hc.symm.trans hd
    obtain ⟨back, -, hpending⟩ := bind_eq_ok_iff.1 hpending
    cases back with
    | some m =>
      cases hpending
      exact hn
    | none =>
      cases hpending
      exact List.mem_filter.2 ⟨hn, decide_eq_true hne⟩

section Spent

variable (h : t.phase = .extracted)
include h

/-- A tree that is spent folds nothing. -/
theorem fold_of_extracted (i : Int) (ns : List Int) : t.fold i ns = .error .treeSpent := by
  rw [fold_eq_bind, checkOpen_of_extracted h]
  rfl

theorem computeMarginal_of_extracted (hc : t.cliqueAt i = .ok c) :
    t.computeMarginal i = .error .treeSpent := by
  rw [computeMarginal, hc]
  exact fold_of_extracted h i c.unfolded

theorem pending_fold_of_extracted (ha : t.cliqueAt a = .ok c) {d : Clique W L}
    (hb : t.cliqueAt b = .ok d) : (Passing.pending t a b >>= t.fold a) = .error .treeSpent := by
  have hmessage : t.message? b a = .ok (d.messages.get? a) := by
    rw [message?, hb]
    rfl
  have hpending : ∃ ns, Passing.pending t a b = .ok ns := by
    rw [Passing.pending, ha, hmessage]
    cases d.messages.get? a with
    | some m => exact ⟨_, rfl⟩
    | none => exact ⟨_, rfl⟩
  obtain ⟨ns, hns⟩ := hpending
  rw [hns]
  exact fold_of_extracted h a ns

end Spent

end CliqueTree

section Faults

variable {t : CliqueTree W L} {n i : Int}

theorem yields_resolveIndex (length : ℕ) (k : Int) :
    Yields (· ≠ .messageMissing n i) (fun _ => True) (resolveIndex length k) := by
  unfold resolveIndex
  split
  · trivial
  · split <;> exact nofun

theorem yields_cliqueAt (t : CliqueTree W L) (k : Int) :
    Yields (· ≠ .messageMissing n i) (fun _ => True) (t.cliqueAt k) :=
  (yields_resolveIndex _ k).bind fun place _ => by
    cases t.cliques[place]? with
    | some c => trivial
    | none => exact nofun

theorem yields_checkOpen (t : CliqueTree W L) :
    Yields (· ≠ .messageMissing n i) (fun _ => True) t.checkOpen := by
  unfold CliqueTree.checkOpen
  split
  · exact nofun
  · trivial

theorem yields_message? (t : CliqueTree W L) (start stop : Int) :
    Yields (· ≠ .messageMissing n i) (fun _ => True) (t.message? start stop) :=
  (yields_cliqueAt t start).bind fun _ _ => trivial

/-- Storing a message needs no other one. -/
theorem yields_addMessage (t : CliqueTree W L) (start stop : Int) (m : Factor W L) :
    Yields (· ≠ .messageMissing n i) (fun _ => True) (t.addMessage start stop m) := by
  refine (yields_checkOpen t).bind fun _ _ => (yields_cliqueAt t start).bind fun c _ => ?_
  exact .refuse nofun ((yields_resolveIndex _ start).bind fun place _ => trivial)

variable [WeightScale W] [WeightScale L] [LogConversion W L]

/-- Multiplying two factors needs no message. -/
theorem yields_product (f g : Factor W L) :
    Yields (· ≠ .messageMissing n i) (fun _ => True) (f.product g) := by
  rw [Factor.product_eq]
  split
  next e he =>
    obtain ⟨a, -, b, -, -, -, rfl⟩ := Scope.namesConflict_of_conflict? he
    exact nofun
  next =>
    refine ((Table.yields_checkGrowth_outgrows f.scope g.scope).imp (fun e he => ?_)
      fun _ h => h).bind fun _ _ => trivial
    rintro rfl
    exact nomatch he.1

omit [LogConversion W L] in
/-- Eliminating variables needs none. -/
theorem yields_eliminate (mode : Mode) {f : Factor W L} {names : List String}
    (hown : ∀ v ∈ names, v ∈ f.names) :
    Yields (· ≠ .messageMissing n i) (fun _ => True) (Passing.eliminate mode f names) := by
  rcases Factor.eliminate_cases mode f hown with hok | ⟨⟨e, he, hlacks⟩, -⟩
  · exact .of_eq_ok hok trivial
  · refine .of_eq_error he ?_
    rcases hlacks with rfl | ⟨k, rfl⟩ <;> exact nofun

/-- Once the marginal is there, a message needs no other one. -/
theorem yields_messageFrom (mode : Mode) (t : CliqueTree W L) (s : Separator) (start stop : Int)
    (f : Factor W L) : Yields (· ≠ .messageMissing n i) (fun _ => True)
      (Passing.messageFrom mode t s start stop f) := by
  refine (yields_eliminate mode fun v hv => List.mem_of_mem_filter hv).bind fun message _ =>
    (yields_cliqueAt t start).bind fun c _ => ?_
  split
  · refine (yields_message? t stop start).bind fun received _ => ?_
    cases received with
    | some m => exact yields_product message m.invert
    | none => exact nofun
  · trivial

end Faults

namespace PassingStep

variable {p q : Passing W L} {x : PassingStep W L α} {e : Fault}

/-- A sequence fails in its first part, or in what comes after it. -/
theorem bind_eq_error {f : α → PassingStep W L β} (h : (x >>= f) p = .error e q) :
    x p = .error e q ∨ ∃ a p', x p = .ok a p' ∧ f a p' = .error e q := by
  cases hx : x p with
  | ok a p' => exact Or.inr ⟨a, p', rfl, (bind_of_ok (f := f) hx).symm.trans h⟩
  | error e' p' =>
    cases (bind_of_error (f := f) hx).symm.trans h
    exact Or.inl rfl

theorem inspect_eq_ok {f : CliqueTree W L → Except Fault α} {a : α} (h : inspect f p = .ok a q) :
    q = p ∧ f p.tree = .ok a := by
  cases hf : f p.tree with
  | ok a' =>
    cases (inspect_of_ok hf).symm.trans h
    exact ⟨rfl, rfl⟩
  | error e' => cases (inspect_of_error hf).symm.trans h

theorem inspect_eq_error {f : CliqueTree W L → Except Fault α} (h : inspect f p = .error e q) :
    q = p ∧ f p.tree = .error e := by
  cases hf : f p.tree with
  | ok a => cases (inspect_of_ok hf).symm.trans h
  | error e' =>
    cases (inspect_of_error hf).symm.trans h
    exact ⟨rfl, rfl⟩

/-- A change that fails has not begun. -/
theorem change_eq_error {f : CliqueTree W L → Except Fault (CliqueTree W L)}
    (h : change f p = .error e q) : q = p ∧ f p.tree = .error e := by
  rcases bind_eq_error h with h | ⟨t, p', -, h⟩
  · exact inspect_eq_error h
  · cases h

theorem changing_eq_error {f : CliqueTree W L → Except Fault (CliqueTree W L × α)}
    (h : changing f p = .error e q) : q = p ∧ f p.tree = .error e := by
  rcases bind_eq_error h with h | ⟨⟨t, a⟩, p', -, h⟩
  · exact inspect_eq_error h
  · cases h

end PassingStep

namespace Passing

open PassingStep

section Pass

variable [WeightScale W] [WeightScale L] [LogConversion W L] {p q : Passing W L} {mode : Mode}
  {a b n i : Int}

/-- A message that fails because another one is missing leaves the tree as it was. -/
theorem tree_eq_of_pass_missing (h : pass mode a b p = .error (.messageMissing n i) q) :
    q.tree = p.tree := by
  rcases bind_eq_error h with h | ⟨⟨⟩, p', hreport, h⟩
  · cases h
  cases hreport
  rcases bind_eq_error h with h | ⟨s, p', hs, h⟩
  · rw [(inspect_eq_error h).1]
  rw [(inspect_eq_ok hs).1] at h
  rcases bind_eq_error h with h | ⟨marginal, p', -, h⟩
  · rw [(changing_eq_error h).1]
  -- The fold has changed the tree, but from here on no message can be missing.
  rcases bind_eq_error h with h | ⟨m, p', -, h⟩
  · exact ((yields_messageFrom ..).fault_of_eq_error (inspect_eq_error h).2 rfl).elim
  rcases bind_eq_error h with h | ⟨⟨⟩, p', -, h⟩
  · exact ((yields_addMessage ..).fault_of_eq_error (change_eq_error h).2 rfl).elim
  · cases h

theorem pass_eq (mode : Mode) (a b : Int) (p : Passing W L) :
    pass mode a b p = (inspect (·.separator a b) >>= fun s =>
      changing (fun t => pending t a b >>= t.fold a) >>= fun marginal =>
        inspect (fun t => messageFrom mode t s a b marginal) >>= fun m =>
          change (·.addMessage a b m) >>= fun _ => Pure.pure m)
      { p with events := p.events ++ [.passing a b] } := rfl

/-- A message that has to wait for another one fails, and the tree stays as it was. -/
theorem pass_of_awaits (h : p.tree.Awaits a b) (mode : Mode) :
    ∃ e q, pass mode a b p = .error e q ∧ q.tree = p.tree := by
  rw [pass_eq]
  cases hs : p.tree.separator a b with
  | error e => exact ⟨e, _, bind_of_error (inspect_of_error hs), rfl⟩
  | ok s =>
    obtain ⟨e, he⟩ := h.pending_fold
    rw [bind_of_ok (inspect_of_ok hs), bind_of_error (changing_of_error he)]
    exact ⟨e, _, rfl, rfl⟩

/-- Every message is refused once the tree is spent. -/
theorem pass_of_extracted (h : p.tree.phase = .extracted) (mode : Mode) (a b : Int) :
    ∃ e q, pass mode a b p = .error e q ∧ q.tree = p.tree ∧
      ((∃ s, p.tree.separator a b = .ok s) ∧ (∃ c, p.tree.cliqueAt b = .ok c) →
        e = .treeSpent) := by
  rw [pass_eq]
  cases hs : p.tree.separator a b with
  | error e =>
    refine ⟨e, _, bind_of_error (inspect_of_error hs), rfl, fun hvalid => ?_⟩
    obtain ⟨⟨s, hs'⟩, -⟩ := hvalid
    cases hs'
  | ok s =>
    rw [bind_of_ok (inspect_of_ok hs)]
    cases hfold : pending p.tree a b >>= p.tree.fold a with
    | error e =>
      refine ⟨e, _, bind_of_error (changing_of_error hfold), rfl, fun hvalid => ?_⟩
      obtain ⟨c, hc, -⟩ := bind_eq_ok_iff.1 hs
      obtain ⟨-, d, hd⟩ := hvalid
      cases hfold.symm.trans (CliqueTree.pending_fold_of_extracted h hc hd)
      rfl
    | ok r =>
      obtain ⟨ns, -, hfold⟩ := bind_eq_ok_iff.1 hfold
      cases (CliqueTree.fold_of_extracted h a ns).symm.trans hfold

/-- So are the marginals of all cliques. -/
theorem takeMarginals_of_extracted (h : p.tree.phase = .extracted) :
    takeMarginals p = .error .treeSpent p := by
  have hstart : takeMarginals p = ((List.range p.tree.size).mapM (fun i : ℕ =>
      computeMarginal (i : Int)) >>= fun ms => change CliqueTree.markExtracted >>= fun _ =>
        Pure.pure ms) p := rfl
  rw [hstart]
  cases hcliques : p.tree.cliques with
  | nil =>
    have hmark : p.tree.markExtracted = .error .treeSpent := by
      rw [CliqueTree.markExtracted, CliqueTree.checkOpen_of_extracted h]
      rfl
    rw [CliqueTree.size, hcliques]
    exact (bind_of_ok (rfl : (Pure.pure [] : PassingStep W L _) p = _)).trans
      (bind_of_error (change_of_error hmark))
  | cons c cliques =>
    have hc : p.tree.cliqueAt (0 : ℕ) = .ok c := elementAt_eq_ok (by rw [hcliques]; rfl)
    rw [CliqueTree.size, hcliques, List.length_cons, List.range_succ_eq_map, List.mapM_cons]
    exact bind_of_error (bind_of_error (changing_of_error
      (CliqueTree.computeMarginal_of_extracted h hc)))

end Pass

end Passing

namespace TreeCall

open PassingStep

/-- Whether a call names cliques that there are, and neighbors where it takes two. -/
def Valid (t : CliqueTree W L) : TreeCall W L → Prop
  | pass _ start stop => (∃ s, t.separator start stop = .ok s) ∧ ∃ c, t.cliqueAt stop = .ok c
  | marginal i => ∃ c, t.cliqueAt i = .ok c
  | _ => True

/-- Whether a call changes the tree once, if at all. -/
def isSingle : TreeCall W L → Bool
  | pass .. | run .. | extract .. => false
  | _ => true

variable [WeightScale W] [WeightScale L] [LogConversion W L] {p q : Passing W L}
  {call : TreeCall W L} {e : Fault}

/-- What a call does. -/
def step : TreeCall W L → PassingStep W L Unit
  | addMessage start stop m => change (·.addMessage start stop m)
  | fold i neighbors => discard (changing (·.fold i neighbors))
  | pass mode start stop => discard (Passing.pass mode start stop)
  | marginal i => discard (Passing.computeMarginal i)
  | run mode => discard (Passing.run mode)
  | beginPassing => change CliqueTree.beginPassing
  | markExtracted => change CliqueTree.markExtracted
  | extract .sum roots conditioned cards =>
    discard (Passing.extractMarginals roots conditioned cards)
  | extract .max roots conditioned _ => discard (Passing.extractMaxMarginals roots conditioned)

/-- The state after some calls, of which any may fail. -/
def after (p : Passing W L) (calls : List (TreeCall W L)) : Passing W L :=
  calls.foldl (fun p call => stateAfter (call.step p)) p

/-- Every call lets the tree grow. -/
theorem grows_step (call : TreeCall W L) : Grows call.step := by
  have hdiscard : ∀ {γ : Type} {x : PassingStep W L γ}, Grows x → Grows (discard x) :=
    fun hx => hx.bind fun _ => .pure ()
  cases call with
  | addMessage start stop m => exact .change CliqueTree.grows_of_addMessage
  | fold i neighbors => exact hdiscard (.changing CliqueTree.grows_of_fold)
  | pass mode start stop => exact hdiscard (Passing.grows_pass mode start stop)
  | marginal i => exact hdiscard (Passing.grows_computeMarginal i)
  | run mode => exact hdiscard (Passing.grows_run mode)
  | beginPassing => exact .change CliqueTree.grows_of_beginPassing
  | markExtracted => exact .change CliqueTree.grows_of_markExtracted
  | extract mode roots conditioned cards =>
    cases mode with
    | sum => exact hdiscard (Passing.grows_takeMarginals.bind fun _ => .inspect _)
    | max => exact hdiscard (Passing.grows_takeMarginals.bind fun _ => .inspect _)

/-- Any number of calls lets it grow. -/
theorem grows_after (p : Passing W L) (calls : List (TreeCall W L)) :
    p.tree.Grows (after p calls).tree := by
  induction calls generalizing p with
  | nil => exact .refl p.tree
  | cons call calls ih => exact (grows_step call p).trans (ih _)

/-- What one call after another does. -/
theorem after_append (p : Passing W L) (before more : List (TreeCall W L)) :
    after p (before ++ more) = after (after p before) more := List.foldl_append

omit [WeightScale W] [WeightScale L] [LogConversion W L] in
theorem eq_error_of_discard {x : PassingStep W L α} (h : discard x p = .error e q) :
    x p = .error e q := by
  rcases bind_eq_error (f := fun _ => pure ()) h with h | ⟨a, p', -, h⟩
  · exact h
  · cases h

/-- A call that would change the tree once has not changed it if it fails. -/
theorem tree_eq_of_isSingle (hsingle : call.isSingle = true) (h : call.step p = .error e q) :
    q.tree = p.tree := by
  cases call with
  | addMessage start stop m => rw [(change_eq_error h).1]
  | fold i neighbors => rw [(changing_eq_error (eq_error_of_discard h)).1]
  | marginal i => rw [(changing_eq_error (eq_error_of_discard h)).1]
  | beginPassing => rw [(change_eq_error h).1]
  | markExtracted => rw [(change_eq_error h).1]
  | pass | run | extract => cases hsingle

/-- Every call to a spent tree is refused. -/
theorem step_of_extracted (h : p.tree.phase = .extracted) (call : TreeCall W L) :
    ∃ e q, call.step p = .error e q ∧ q.tree = p.tree ∧
      (call.Valid p.tree → e = .treeSpent) := by
  have hopen := CliqueTree.checkOpen_of_extracted h
  have hchange : ∀ {f : CliqueTree W L → Except Fault (CliqueTree W L)},
      f p.tree = .error .treeSpent → ∃ e q, change f p = .error e q ∧ q.tree = p.tree ∧
        (call.Valid p.tree → e = .treeSpent) := fun hf =>
    ⟨_, _, change_of_error hf, rfl, fun _ => rfl⟩
  have hbegin : p.tree.beginPassing = .error .treeSpent := by
    rw [CliqueTree.beginPassing, hopen]
    rfl
  cases call with
  | addMessage start stop m =>
    refine hchange ?_
    rw [CliqueTree.addMessage, hopen]
    rfl
  | fold i neighbors =>
    exact ⟨_, _, bind_of_error (changing_of_error (CliqueTree.fold_of_extracted h i neighbors)),
      rfl, fun _ => rfl⟩
  | pass mode start stop =>
    obtain ⟨e, q, hpass, htree, hvalid⟩ := Passing.pass_of_extracted h mode start stop
    exact ⟨e, q, bind_of_error hpass, htree, hvalid⟩
  | marginal i =>
    cases hc : p.tree.cliqueAt i with
    | ok c =>
      exact ⟨_, _, bind_of_error (changing_of_error
        (CliqueTree.computeMarginal_of_extracted h hc)), rfl, fun _ => rfl⟩
    | error e =>
      have hnone : p.tree.computeMarginal i = .error e := by
        rw [CliqueTree.computeMarginal, hc]
        rfl
      refine ⟨e, _, bind_of_error (changing_of_error hnone), rfl, fun hvalid => ?_⟩
      obtain ⟨c, hc'⟩ := hvalid
      cases hc.symm.trans hc'
  | run mode =>
    exact ⟨_, _, bind_of_error (bind_of_error (change_of_error hbegin)), rfl, fun _ => rfl⟩
  | beginPassing => exact hchange hbegin
  | markExtracted =>
    refine hchange ?_
    rw [CliqueTree.markExtracted, hopen]
    rfl
  | extract mode roots conditioned cards =>
    have htake := Passing.takeMarginals_of_extracted h
    cases mode with
    | sum => exact ⟨_, _, bind_of_error (bind_of_error htake), rfl, fun _ => rfl⟩
    | max => exact ⟨_, _, bind_of_error (bind_of_error htake), rfl, fun _ => rfl⟩

/-- No number of calls changes it. -/
theorem tree_after_of_extracted (h : p.tree.phase = .extracted) (calls : List (TreeCall W L)) :
    (after p calls).tree = p.tree := by
  induction calls generalizing p with
  | nil => rfl
  | cons call calls ih =>
    obtain ⟨e, q, hq, htree, -⟩ := step_of_extracted h call
    have hnext : after p (call :: calls) = after q calls := by
      rw [after, List.foldl_cons, hq]
      rfl
    rw [hnext, ih (htree ▸ h), htree]

/-- What holds of a tree after some calls. -/
structure Lifecycle (p : Passing W L) (calls : List (TreeCall W L)) : Prop where
  /-- The tree has grown since any earlier moment. -/
  grows : ∀ {before more : List (TreeCall W L)}, calls = before ++ more →
    (after p before).tree.Grows (after p calls).tree
  /-- It has the edges that it had. -/
  edges_eq : (after p calls).tree.edges = p.tree.edges
  /-- A call that would change the tree once leaves it as it is if it fails. -/
  refused : ∀ {call : TreeCall W L} {e : Fault} {q : Passing W L}, call.isSingle = true →
    call.step (after p calls) = .error e q → q.tree = (after p calls).tree
  /-- So does a message that fails because another one is missing, -/
  missing : ∀ {mode : Mode} {start stop n i : Int} {q : Passing W L},
    (TreeCall.pass mode start stop).step (after p calls) = .error (.messageMissing n i) q →
      q.tree = (after p calls).tree
  /-- and every message that has to wait for another neighbor's fails. -/
  awaiting : ∀ {start stop : Int}, (after p calls).tree.Awaits start stop → ∀ mode : Mode,
    ∃ e q, (TreeCall.pass mode start stop).step (after p calls) = .error e q ∧
      q.tree = (after p calls).tree
  /-- Once the marginals are out every call fails and changes nothing. -/
  spent : (after p calls).tree.phase = .extracted → ∀ call : TreeCall W L,
    ∃ e q, call.step (after p calls) = .error e q ∧ q.tree = (after p calls).tree ∧
      (call.Valid (after p calls).tree → e = .treeSpent)
  /-- The tree then stays what it is for good. -/
  frozen : (after p calls).tree.phase = .extracted → ∀ more : List (TreeCall W L),
    (after p (calls ++ more)).tree = (after p calls).tree

/-- Every tree goes through its life in this way, whatever it is asked. -/
theorem lifecycle (p : Passing W L) (calls : List (TreeCall W L)) : Lifecycle p calls where
  grows {before more} h := by
    rw [h, after_append]
    exact grows_after (after p before) more
  edges_eq := (grows_after p calls).edges_eq
  refused := tree_eq_of_isSingle
  missing h := Passing.tree_eq_of_pass_missing (eq_error_of_discard h)
  awaiting h mode := by
    obtain ⟨e, q, hq, htree⟩ := Passing.pass_of_awaits h mode
    exact ⟨e, q, bind_of_error hq, htree⟩
  spent h := step_of_extracted h
  frozen h more := by
    rw [after_append]
    exact tree_after_of_extracted h more

/-- A refused message, a run and an extraction lead through all stages. -/
example : passes (fun t : CliqueTree ℚ≥0 (FormalLog ℚ≥0) =>
    ((List.range 4).map fun n => (after ⟨t, []⟩ ([.marginal 0, .run .sum,
      .extract .sum [1] OrderedMap.empty OrderedMap.empty].take n)).tree.phase)
      = [.built, .built, .inProgress, .extracted])
    (FactorGraph.ofFactors CliqueTree.pairOfFactors >>= fun g =>
      (CliqueTree.ofGraph false g).answer) = true := by decide +kernel

end TreeCall

end ExactInference