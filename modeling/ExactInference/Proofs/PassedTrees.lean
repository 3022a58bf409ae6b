import ExactInference.Engine
import ExactInference.Proofs.FinalMarginals
import ExactInference.Proofs.GraphMarginals

/-!
# Passing all messages of a built tree

Two sweeps along the schedule of a tree that was just built never fail. Whether they deliver every
message is a question about the edges and the schedule alone. If they do, one clique of every
component is a root and all final marginals are exact; if not, some clique reports the message that
it misses. An engine answers with what its stages answer.
-/

namespace ExactInference

namespace CliqueTree

variable {W L : Type}

/-- The cliques in the order in which a sweep visits them. -/
def visits (t : CliqueTree W L) : List ℕ := t.order.map Int.toNat

/-- Whether two sweeps along the schedule, there and back, send the message of every edge in both
directions. -/
def Delivers (t : CliqueTree W L) : Prop :=
  ∀ a b, t.graph.Adj a b → spreadAll t.graph (fun _ _ => False) (t.visits ++ t.visits.reverse) a b

/-- Cliques that stand for the components, one for each. -/
structure RootsOf (t : CliqueTree W L) (roots : List Int) : Prop where
  /-- Roots are cliques. -/
  lt_size : ∀ {n}, n ∈ roots → ∃ r : ℕ, n = r ∧ r < t.size
  /-- No root is listed twice. -/
  nodup : roots.Nodup
  /-- Every clique is connected with a root. -/
  exists_root : ∀ {i}, i < t.size → ∃ r : ℕ, (r : Int) ∈ roots ∧ t.graph.Reachable r i
  /-- Connected roots are the same. -/
  unique : ∀ {r s : ℕ}, (r : Int) ∈ roots → (s : Int) ∈ roots → t.graph.Reachable r s → r = s

variable [WeightScale W] [WeightScale L] [LogConversion W L] {mode : Mode} {g : FactorGraph W L}
  {t : CliqueTree W L}

namespace Built

/-- Two sweeps never fail, and keep every invariant of message passing. They deliver what spreads
along the schedule. -/
theorem run_sustained (h : Built g t) {holds : Passing W L → (ℕ → ℕ → Prop) → Prop}
    (hI : Sustained mode g.freeAxes holds)
    (hstart : holds ⟨{ t with phase := .inProgress }, []⟩ fun _ _ => False) :
    ∃ roots p late, Passing.run mode ⟨t, []⟩
        = .ok roots { p with events := p.events ++ [.finished roots] } ∧
      p.tree.frame = t.frame ∧ (p.tree.AllSent ↔ t.Delivers) ∧ holds p late ∧
      Rooted p.tree late roots (· < t.size) := by
  obtain ⟨order, horder, hperm⟩ := h.order_perm
  have hmem : ∀ i, i ∈ order ↔ i < t.size := fun i => by rw [hperm.mem_iff, List.mem_range]
  have hopen : t.phase ≠ .extracted := (h.toFresh.tracked h.wellBuilt.toWired).isOpen
  obtain ⟨roots, p, late, hp, hframe, hsent, hholds, hrooted, -⟩ :=
    hI.run hstart hopen h.not_sent horder fun i hi => (hmem i).1 hi
  have hvisited : (· ∈ order) = (· < t.size) := funext fun i => propext (hmem i)
  refine ⟨roots, p, late, hp, hframe, ?_, hholds, hvisited ▸ hrooted⟩
  have hvisits : t.visits = order := by
    rw [visits, horder, List.map_map]
    exact List.map_id order
  rw [AllSent, Delivers, hsent, hvisits, graph_eq_of_frame_eq hframe]

/-- When all messages have been sent, one clique of every component is a root. -/
theorem rootsOf (h : Built g t) {u : CliqueTree W L} {late : ℕ → ℕ → Prop} {roots : List Int}
    (hframe : u.frame = t.frame) (htracked : Tracked g.freeAxes u late) (hsent : u.AllSent)
    (hrooted : Rooted u late roots (· < t.size)) : RootsOf t roots := by
  have hsize : u.size = t.size := size_eq_of_frame_eq hframe
  have hgraph : u.graph = t.graph := graph_eq_of_frame_eq hframe
  have hforest : IsJoinForest u.size u.graph u.scopeOf := by
    rw [hsize, hgraph, scopeOf_eq_of_frame_eq hframe]
    exact h.wellBuilt.forest
  constructor
  case lt_size => exact fun hn => hsize ▸ hrooted.lt_size hn
  case nodup => exact hrooted.nodup
  case exists_root =>
    intro i hi
    obtain ⟨r, hr, hreach⟩ := hrooted.exists_root htracked hforest hsent hi
    exact ⟨r, hr, hgraph ▸ hreach.symm⟩
  case unique =>
    exact fun hr hs hreach =>
      hrooted.root_unique htracked hforest hsent hr hs (hgraph ▸ hreach)

/-- When all messages are delivered, the marginals of all cliques can be taken out, whatever the
weights are. -/
theorem taken (h : Built g t) (hg : g.Sound) (mode : Mode) (hall : t.Delivers) :
    ∃ roots p ms q, Passing.run mode ⟨t, []⟩ = .ok roots p ∧
      Passing.takeMarginals ⟨p.tree, []⟩ = .ok ms q ∧ q.tree.frame = t.frame ∧
      RootsOf t roots ∧
      List.Forall₂ (IsComplete (Coherent g.freeAxes) t) (List.range t.size) ms := by
  have htracked := h.toFresh.tracked h.wellBuilt.toWired
  obtain ⟨roots, p, late, hp, hframe, hiff, ⟨hp', -⟩, hrooted⟩ :=
    h.run_sustained (Sustained.logged mode hg.freeNames_nodup hg.card_pos)
      ⟨htracked.begin, h.toFresh.logged⟩
  have hsent : p.tree.AllSent := hiff.2 hall
  obtain ⟨ms, q, hms, hqframe, hcomplete⟩ := (Coherent.completes g.freeAxes).takeMarginals
    hg.freeNames_nodup (p := ⟨p.tree, []⟩) hp'.toCoherent hsent
  refine ⟨roots, _, ms, q, hp, hms, hqframe.trans hframe, h.rootsOf hframe hp' hsent hrooted, ?_⟩
  rw [← size_eq_of_frame_eq hframe]
  exact hcomplete.imp fun _ _ hm => hm.of_frame_eq hframe

end Built

variable [Semifield W] [LinearOrder W]

/-- What message passing leaves behind when it has delivered all messages. -/
structure Passed (mode : Mode) (axes : List Axis) (t : CliqueTree W L) (roots : List Int)
    (ms : List (Factor W L)) : Prop where
  /-- There is one root for each component. -/
  roots : RootsOf t roots
  /-- The marginals are final. -/
  final : List.Forall₂ (IsFinal mode axes t) (List.range t.size) ms

theorem Passed.marginal {axes : List Axis} {roots : List Int} {ms : List (Factor W L)} {i : ℕ}
    (h : Passed mode axes t roots ms) (hi : i < t.size) :
    ∃ m, ms[i]? = some m ∧ IsFinal mode axes t i m := by
  have hlength : (List.range t.size).length = ms.length := h.final.length_eq
  rw [List.length_range] at hlength
  have hi' : i < ms.length := by omega
  refine ⟨ms.get ⟨i, hi'⟩, List.getElem?_eq_getElem hi', ?_⟩
  have hget := h.final.get (by rwa [List.length_range]) hi'
  rwa [List.get_eq_getElem, List.getElem_range] at hget

theorem Passed.length_eq {axes : List Axis} {roots : List Int} {ms : List (Factor W L)}
    (h : Passed mode axes t roots ms) : ms.length = t.size := by
  rw [← h.final.length_eq, List.length_range]

namespace Built

variable [IsStrictOrderedRing W] [CanonicallyOrderedAdd W] [ExactScale W] [ExactLog W L]

/-- Two sweeps keep all messages exact. -/
theorem run (h : Built g t) (hg : g.Sound) (mode : Mode) :
    ∃ roots p late, Passing.run mode ⟨t, []⟩ = .ok roots p ∧ p.tree.frame = t.frame ∧
      (p.tree.AllSent ↔ t.Delivers) ∧ Progress mode g.freeAxes p.tree late ∧
      Rooted p.tree late roots (· < t.size) := by
  obtain ⟨roots, p, late, hp, hrest⟩ := h.run_sustained
    (Sustained.progress mode hg.freeNames_nodup hg.card_pos) (h.progress mode).begin
  exact ⟨roots, _, late, hp, hrest⟩

/-- When all messages are delivered, the exact marginals of all cliques can be taken out. -/
theorem passed (h : Built g t) (hg : g.Sound) (mode : Mode) (hall : t.Delivers) :
    ∃ roots p ms q, Passing.run mode ⟨t, []⟩ = .ok roots p ∧
      Passing.takeMarginals ⟨p.tree, []⟩ = .ok ms q ∧ q.tree.frame = t.frame ∧
      Passed mode g.freeAxes t roots ms := by
  obtain ⟨roots, p, late, hp, hframe, hiff, hprogress, hrooted⟩ := h.run hg mode
  have hsent : p.tree.AllSent := hiff.2 hall
  obtain ⟨ms, q, hms, hqframe, hfinal⟩ :=
    Progress.takeMarginals (p := ⟨p.tree, []⟩) hprogress hg.freeNames_nodup hsent
  refine ⟨roots, p, ms, q, hp, hms, hqframe.trans hframe,
    h.rootsOf hframe hprogress.toTracked hsent hrooted, ?_⟩
  rw [← size_eq_of_frame_eq hframe]
  exact hfinal.imp fun _ _ hm => hm.of_frame_eq hframe

/-- When a message is not delivered, the marginals cannot be taken out. -/
theorem not_passed (h : Built g t) (hg : g.Sound) (mode : Mode) (hmissing : ¬ t.Delivers) :
    ∃ (roots : List Int) (p : Passing W L) (k i : ℕ) (q : Passing W L),
      Passing.run mode ⟨t, []⟩ = .ok roots p ∧
      Passing.takeMarginals ⟨p.tree, []⟩ = .error (.messageMissing k i) q := by
  obtain ⟨roots, p, late, hp, hframe, hiff, hprogress, hrooted⟩ := h.run hg mode
  obtain ⟨k, i, q, hq⟩ := Progress.takeMarginals_error (p := ⟨p.tree, []⟩) hprogress
    hg.freeNames_nodup fun hall => hmissing (hiff.1 hall)
  exact ⟨roots, p, k, i, q, hp, hq⟩

end Built

end CliqueTree

namespace Engine

open PassingStep CliqueTree

variable {W L α : Type}

theorem answer_onTree_ok {t : CliqueTree W L} {x : PassingStep W L α} {a : α} {p : Passing W L}
    (h : x ⟨t, []⟩ = .ok a p) : (onTree t x).answer = .ok (a, p.tree) := by
  rw [onTree, EStateM.run, h]

theorem answer_onTree_error {t : CliqueTree W L} {x : PassingStep W L α} {e : Fault}
    {p : Passing W L} (h : x ⟨t, []⟩ = .error e p) : (onTree t x).answer = .error e := by
  rw [onTree, EStateM.run, h]

theorem answer_timed (name : String) (x : Traced α) : (timed name x).answer = x.answer := by
  rw [timed, Traced.answer_bind, Traced.answer_report]
  change (x >>= fun a => Traced.report (.timerStopped name) >>= fun _ => pure a).answer = _
  rw [Traced.answer_bind]
  cases x.answer <;> rfl

variable [WeightScale W] [WeightScale L] [LogConversion W L] {e : Engine} {mode : Mode}
  {last : String} {g : FactorGraph W L} {extract : List Int → PassingStep W L α}
  {t : CliqueTree W L} {roots : List Int} {p q : Passing W L}

/-- An engine fails if there is no tree. -/
theorem throughTree_of_no_tree {fault : Fault} (ht : (ofGraph e.useHint g).answer = .error fault) :
    (e.throughTree mode last g extract).answer = .error fault := by
  rw [throughTree, Traced.answer_bind, answer_timed, ht]
  rfl

/-- An engine answers with what is taken out of the tree. -/
theorem throughTree_of_ok {a : α} (ht : (ofGraph e.useHint g).answer = .ok t)
    (hrun : Passing.run mode ⟨t, []⟩ = .ok roots p) (ha : extract roots ⟨p.tree, []⟩ = .ok a q) :
    (e.throughTree mode last g extract).answer = .ok a := by
  rw [throughTree, Traced.answer_bind, answer_timed, ht]
  change (timed "inference/message_passing" (onTree t (Passing.run mode)) >>= _).answer = _
  rw [Traced.answer_bind, answer_timed, answer_onTree_ok hrun]
  change (timed last (onTree p.tree (extract roots)) >>= _).answer = _
  rw [Traced.answer_bind, answer_timed, answer_onTree_ok ha]
  rfl

/-- An engine fails if the messages cannot be passed. -/
theorem throughTree_of_no_run {fault : Fault} (ht : (ofGraph e.useHint g).answer = .ok t)
    (hrun : Passing.run mode ⟨t, []⟩ = .error fault p) :
    (e.throughTree mode last g extract).answer = .error fault := by
  rw [throughTree, Traced.answer_bind, answer_timed, ht]
  change (timed "inference/message_passing" (onTree t (Passing.run mode)) >>= _).answer = _
  rw [Traced.answer_bind, answer_timed, answer_onTree_error hrun]
  rfl

/-- An engine fails if nothing can be taken out of the tree. -/
theorem throughTree_of_error {fault : Fault} (ht : (ofGraph e.useHint g).answer = .ok t)
    (hrun : Passing.run mode ⟨t, []⟩ = .ok roots p)
    (ha : extract roots ⟨p.tree, []⟩ = .error fault q) :
    (e.throughTree mode last g extract).answer = .error fault := by
  rw [throughTree, Traced.answer_bind, answer_timed, ht]
  change (timed "inference/message_passing" (onTree t (Passing.run mode)) >>= _).answer = _
  rw [Traced.answer_bind, answer_timed, answer_onTree_ok hrun]
  change (timed last (onTree p.tree (extract roots)) >>= _).answer = _
  rw [Traced.answer_bind, answer_timed, answer_onTree_error ha]
  rfl

end Engine

end ExactInference
