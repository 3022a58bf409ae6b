import ExactInference.Proofs.BuiltTrees
import ExactInference.Proofs.Gathering
import ExactInference.Proofs.Schedule
import ExactInference.Proofs.Interleavings

/-!
# Runs along any schedule

Cliques may be joined along any edges, with cycles, parallel edges and edges from a clique to
itself, and may be visited in any order, some of them twice and others never. A run never asks for a
message that was not sent and never sends one twice: a visit sends what is due, and nothing else.
All that can go wrong comes from variables without states. If the edges form a forest, then no tree
has two roots, and every visited tree whose messages are all sent has one.

The ends of the edges have to be counted from the front. An end below zero stands for a clique too,
but separators and messages are kept under the index as it is written, so a message that is looked
for under the one index of a clique is not found under the other.
-/

namespace ExactInference

/-- Whether a fault says that messages were asked for in a wrong order. -/
def Fault.isMessageOrder : Fault → Bool
  | .messageExists .. | .messageMissing .. | .treeSpent | .noRoot => true
  | _ => false

/-- Missing states have nothing to do with the order of messages. -/
theorem Fault.LacksStates.not_isMessageOrder {e : Fault} (h : e.LacksStates) :
    e.isMessageOrder = false := by
  rcases h with rfl | ⟨n, rfl⟩ <;> rfl

namespace CliqueTree

variable {W L : Type} {t : CliqueTree W L} {p : Passing W L} {axes : List Axis} {mode : Mode}
  {factors : List (Factor W L)} {edges : List (Int × Int)} {order : List Int} {visits : List ℕ}
  {roots : List Int}

/-- Factors for cliques, edges between any of them, and a schedule that may repeat cliques and leave
cliques out. -/
structure Layout (factors : List (Factor W L)) (edges : List (Int × Int)) (order : List Int) :
    Prop where
  /-- A variable has as many states in all factors. -/
  cards_agree : ∀ f ∈ factors, ∀ g ∈ factors, ∀ a ∈ f.scope.axes, ∀ b ∈ g.scope.axes,
    a.name = b.name → a.card = b.card
  /-- An edge joins two cliques, or a clique to itself; they may be counted from the end. -/
  ends : ∀ e ∈ edges, (placeOf? factors.length e.1).isSome ∧ (placeOf? factors.length e.2).isSome
  /-- Only cliques are scheduled, counted from the front. -/
  scheduled : ∀ i ∈ order, 0 ≤ i ∧ (placeOf? factors.length i).isSome

/-- What holds of a tree after some visits. -/
structure Underway (axes : List Axis) (t : CliqueTree W L) (visits : List ℕ) (roots : List Int)
    (p : Passing W L) : Prop where
  /-- The tree is orderly. -/
  orderly : Orderly axes p.tree
  /-- The messages are logged. -/
  logged : Logged p
  /-- The factors and the separators stay as they are. -/
  frame_eq : p.tree.frame = t.frame
  /-- Messages are sent between neighbors. -/
  sent_borders : ∀ {a b : ℕ}, p.tree.Sent a b → t.Borders a b
  /-- Roots are cliques. -/
  root_lt : ∀ n ∈ roots, ∃ r : ℕ, n = r ∧ r < t.size
  /-- Every root is found once. -/
  nodup : roots.Nodup
  /-- If no clique borders on itself, then the messages spread over the graph. -/
  sent_eq : t.Wired axes → p.tree.Sent = spreadAll t.graph NoneSent visits
  /-- Then the roots are the cliques that gathered on a visit. -/
  root_iff : t.Wired axes → ∀ r : ℕ, (r : Int) ∈ roots ↔ GathersOnVisit t.graph NoneSent visits r

namespace Underway

/-- Before the first visit. -/
theorem start (h : t.Fresh) (hmeshed : t.Meshed axes) :
    Underway axes t [] [] (⟨{ t with phase := .inProgress }, []⟩ : Passing W L) where
  orderly := (h.orderly hmeshed).begin
  logged := h.logged
  frame_eq := rfl
  sent_borders hs := absurd hs (h.not_sent _ _)
  root_lt _ hn := absurd hn List.not_mem_nil
  nodup := List.nodup_nil
  sent_eq _ := funext fun a => funext fun b => propext ⟨h.not_sent a b, False.elim⟩
  root_iff _ _ := ⟨fun hr => absurd hr List.not_mem_nil, fun hr => absurd hr gathersOnVisit_nil⟩

variable [WeightScale W] [WeightScale L] [LogConversion W L]

/-- One more visit. It may fail, but only for want of states. -/
theorem visit {i : ℕ} (h : Underway axes t visits roots p) (hd : (axes.map Axis.name).Nodup)
    (mode : Mode) (hi : i < t.size) :
    PassingStep.Ends (fun e => e.LacksStates ∧ ∃ x ∈ axes, x.card = 0)
      (Underway axes t (visits ++ [i])) (Passing.visit mode roots (i : Int) p) := by
  have hpass : ∀ {q : Passing W L} {b : ℕ}, Orderly axes q.tree ∧ Logged q → q.tree.Due i b →
      PassingStep.Ends (fun e => e.LacksStates ∧ ∃ x ∈ axes, x.card = 0)
        (fun _ u => u.tree.frame = q.tree.frame ∧
          (∀ a w, u.tree.Sent a w ↔ q.tree.Sent a w ∨ a = i ∧ w = b) ∧
          Orderly axes u.tree ∧ Logged u) (Passing.pass mode (i : Int) (b : Int) q) := by
    rintro q b ⟨horderly, hlogged⟩ hdue
    refine (horderly.pass hd mode hdue).imp fun _ u hu => ?_
    obtain ⟨hframe, hevents, hsent, horderly'⟩ := hu
    exact ⟨hframe, hsent, horderly', hlogged.send hevents hsent hdue.2.1⟩
  have hborders := borders_eq_of_frame_eq h.frame_eq
  refine (ends_visit hpass ⟨h.orderly, h.logged⟩ h.orderly
    (size_eq_of_frame_eq h.frame_eq ▸ hi) roots).imp fun roots' q hq => ?_
  obtain ⟨hframe, hsent, ⟨horderly, hlogged⟩, hyes, hno⟩ := hq
  have hmem : ∀ n, n ∈ roots' ↔ n ∈ roots ∨ n = i ∧ p.tree.Gathering i := by
    intro n
    by_cases hgathers : p.tree.Gathering i
    · rw [hyes hgathers, mem_addOnce]
      simp [hgathers]
    · rw [hno hgathers]
      simp [hgathers]
  constructor
  case orderly => exact horderly
  case logged => exact hlogged
  case frame_eq => exact hframe.trans h.frame_eq
  case sent_borders =>
    intro a b hab
    rcases (hsent a b).1 hab with hab | ⟨rfl, hdue⟩
    · exact h.sent_borders hab
    · exact hborders ▸ hdue.1
  case root_lt =>
    intro n hn
    rcases (hmem n).1 hn with hn | ⟨rfl, -⟩
    · exact h.root_lt n hn
    · exact ⟨i, rfl, hi⟩
  case nodup =>
    by_cases hgathers : p.tree.Gathering i
    · rw [hyes hgathers]
      exact nodup_addOnce h.nodup i
    · rw [hno hgathers]
      exact h.nodup
  case sent_eq =>
    intro hwired
    have hcoherent := Coherent.of_orderly h.orderly (hwired.of_frame_eq h.frame_eq.symm)
    rw [hcoherent.spread_eq hsent, h.sent_eq hwired, graph_eq_of_frame_eq h.frame_eq,
      spreadAll_append]
    rfl
  case root_iff =>
    intro hwired r
    have hcoherent := Coherent.of_orderly h.orderly (hwired.of_frame_eq h.frame_eq.symm)
    rw [hmem, h.root_iff hwired, gathersOnVisit_concat, hcoherent.gathering_iff,
      h.sent_eq hwired, graph_eq_of_frame_eq h.frame_eq, Int.natCast_inj]

end Underway

/-- What a run along any schedule leaves behind. -/
structure RunInOrder (t : CliqueTree W L) (order : List Int) (roots : List Int)
    (p : Passing W L) : Prop where
  /-- The factors and the separators stay as they are. -/
  frame_eq : p.tree.frame = t.frame
  /-- The messages that were sent were computed once each, and no others were. -/
  once : ∃ calls : List (ℕ × ℕ),
    p.events = calls.map (fun c => .passing c.1 c.2) ++ [.finished roots] ∧ calls.Nodup ∧
      ∀ a b, (a, b) ∈ calls ↔ p.tree.Sent a b
  /-- Messages are sent between neighbors. -/
  sent_borders : ∀ {a b : ℕ}, p.tree.Sent a b → t.Borders a b
  /-- Roots are cliques. -/
  root_lt : ∀ n ∈ roots, ∃ r : ℕ, n = r ∧ r < t.size
  /-- No root is answered twice. -/
  roots_nodup : roots.Nodup
  /-- No tree of a forest has two roots. -/
  root_unique : (∀ i, ¬ t.Borders i i) → t.graph.IsAcyclic → ∀ {r s : ℕ}, (r : Int) ∈ roots →
    (s : Int) ∈ roots → t.graph.Reachable r s → r = s
  /-- A visited tree of a forest has a root if all of its messages were sent. -/
  existsUnique_root : (∀ i, ¬ t.Borders i i) → t.graph.IsAcyclic → ∀ {i : ℕ},
    (∃ j : ℕ, (j : Int) ∈ order ∧ t.graph.Reachable i j) →
    (∀ a b, t.graph.Reachable i a → t.graph.Adj a b → p.tree.Sent a b) →
    ∃! r : ℕ, (r : Int) ∈ roots ∧ t.graph.Reachable i r

/-- All visits are done, and the roots are brought into order. -/
theorem Underway.runInOrder {roots' : List Int}
    (h : Underway axes t (visits ++ visits.reverse) roots p) (hmeshed : t.Meshed axes)
    (hperm : roots'.Perm roots) :
    RunInOrder t (visits.map Int.ofNat) roots'
      { p with events := p.events ++ [.finished roots'] } where
  frame_eq := h.frame_eq
  once := by
    obtain ⟨calls, hevents, hnodup, hcalls⟩ := h.logged
    exact ⟨calls, by rw [← hevents], hnodup, hcalls⟩
  sent_borders := h.sent_borders
  root_lt n hn := h.root_lt n (hperm.mem_iff.1 hn)
  roots_nodup := hperm.nodup_iff.2 h.nodup
  root_unique hloop _ r s hr hs hreach := by
    have hroot := h.root_iff (.of_meshed hmeshed hloop)
    exact eq_of_gathersOnVisit ((hroot r).1 (hperm.mem_iff.1 hr))
      ((hroot s).1 (hperm.mem_iff.1 hs)) hreach
  existsUnique_root hloop hacyclic i hvisit hall := by
    have hwired := Wired.of_meshed hmeshed hloop
    have hroot : ∀ r : ℕ, (r : Int) ∈ roots' ↔
        GathersOnVisit t.graph NoneSent (visits ++ visits.reverse) r := fun r => by
      rw [hperm.mem_iff, h.root_iff hwired]
    have hsent : ∀ a b,
        p.tree.Sent a b ↔ spreadAll t.graph NoneSent (visits ++ visits.reverse) a b :=
      fun a b => by rw [h.sent_eq hwired]
    obtain ⟨j, hj, hij⟩ := hvisit
    have hj : j ∈ visits := (List.mem_map_of_injective Int.ofNat_injective).1 hj
    obtain ⟨r, hir, hr⟩ := exists_gathersOnVisit (R := Finset.range t.size) hacyclic
      (fun hab => Finset.mem_range.2 (hwired.lt_size hab))
      ⟨j, List.mem_append_left _ hj, hij⟩ fun a b hia hab => (hsent a b).1 (hall a b hia hab)
    refine ⟨r, ⟨(hroot r).2 hr, hir⟩, fun s ⟨hs, his⟩ => ?_⟩
    exact eq_of_gathersOnVisit ((hroot s).1 hs) hr (his.symm.trans hir)

variable [WeightScale W] [WeightScale L] [LogConversion W L]

/-- A run along any schedule of a fresh tree. -/
theorem Fresh.ends_run (h : t.Fresh) (hmeshed : t.Meshed axes) (hd : (axes.map Axis.name).Nodup)
    (horder : t.order = visits.map Int.ofNat) (hlt : ∀ i ∈ visits, i < t.size) (mode : Mode) :
    PassingStep.Ends (fun e => e.LacksStates ∧ ∃ x ∈ axes, x.card = 0)
      (RunInOrder t (visits.map Int.ofNat)) (Passing.run mode ⟨t, []⟩) := by
  have hopen : t.phase ≠ .extracted := by
    rw [h.phase_eq]
    exact fun he => by cases he
  have hchange : PassingStep.change CliqueTree.beginPassing (⟨t, []⟩ : Passing W L)
      = .ok () ⟨{ t with phase := .inProgress }, []⟩ := by
    refine PassingStep.change_of_ok ?_
    rw [beginPassing, checkOpen, if_neg hopen]
    rfl
  have hvisits : t.order ++ t.order.reverse = (visits ++ visits.reverse).map Int.ofNat := by
    rw [horder, List.map_append, List.map_reverse]
  have hvisit : ∀ done i roots q, i ∈ visits ++ visits.reverse → Underway axes t done roots q →
      PassingStep.Ends (fun e => e.LacksStates ∧ ∃ x ∈ axes, x.card = 0)
        (Underway axes t (done ++ [i])) (Passing.visit mode roots (i : Int) q) :=
    fun done i roots q hi hq => hq.visit hd mode (hlt i (by simpa using hi))
  have hfold := PassingStep.Ends.foldlM hvisit (Underway.start h hmeshed)
  rw [Passing.run, PassingStep.bind_of_ok hchange]
  change PassingStep.Ends _ _
    (((t.order ++ t.order.reverse).foldlM (Passing.visit mode) [] >>= _) _)
  rw [hvisits, List.foldlM_map]
  exact hfold.bind fun roots q hq => hq.runInOrder hmeshed (arrange_perm _ roots)

/-- Cliques that are joined along any edges, counted from the front, can be run along any schedule:
the run never fails over the order of messages, and not at all if all variables have states. In a
forest it finds one root for every visited tree whose messages are all sent, and never two for a
tree. -/
theorem ends_in_order (mode : Mode) (h : Layout factors edges order)
    (hfront : ∀ e ∈ edges, 0 ≤ e.1 ∧ 0 ≤ e.2) :
    ∃ t, ofEdges factors edges order = .ok t ∧
      t.cliques.map Clique.factor = factors ∧
      (∀ a b : ℕ, t.Borders a b ↔ ((a : Int), (b : Int)) ∈ edges ∨ ((b : Int), (a : Int)) ∈ edges) ∧
      t.graph = SimpleGraph.fromRel (fun a b : ℕ => ((a : Int), (b : Int)) ∈ edges) ∧
      PassingStep.Ends
        (fun fault => fault.isMessageOrder = false ∧ ∃ f ∈ factors, ∃ a ∈ f.scope.axes, a.card = 0)
        (RunInOrder t order) (Passing.run mode ⟨t, []⟩) := by
  obtain ⟨hagree, hends, hscheduled⟩ := h
  lift edges to List (ℕ × ℕ) using hfront
  lift order to List ℕ using fun i hi => (hscheduled i hi).1
  have hlt : ∀ e ∈ edges, e.1 < factors.length ∧ e.2 < factors.length := by
    intro e he
    obtain ⟨hleft, hright⟩ := hends _ (List.mem_map_of_mem he)
    exact ⟨lt_of_isSome_placeOf? hleft, lt_of_isSome_placeOf? hright⟩
  have hvisits : ∀ i ∈ order, i < factors.length := fun i hi =>
    lt_of_isSome_placeOf? (hscheduled _ (List.mem_map_of_mem hi)).2
  have hcast : Function.Injective (Prod.map Nat.cast Nat.cast : ℕ × ℕ → Int × Int) :=
    Nat.cast_injective.prodMap Nat.cast_injective
  have hmem : ∀ a b : ℕ, ((a : Int), (b : Int)) ∈ edges.map (Prod.map (↑) (↑)) ↔ (a, b) ∈ edges :=
    fun a b => List.mem_map_of_injective hcast (a := (a, b))
  obtain ⟨axes, hd, hwithin, hsource⟩ := Factor.exists_axes hagree
  obtain ⟨t, ht, horder, hjoined⟩ := Joined.exists_ofEdges_of_lt (order.map (↑)) hlt
  rw [← hjoined.size_eq] at hlt hvisits
  refine ⟨t, ht, hjoined.factors_eq, fun a b => ?_, ?_, ?_⟩
  · rw [hmem, hmem]
    exact hjoined.borders_iff hlt
  · simp only [hmem]
    exact hjoined.graph_eq hlt
  · refine (hjoined.toFresh.ends_run (hjoined.meshed hwithin hlt) hd horder hvisits
      mode).imp_fault ?_
    rintro e ⟨hlacks, x, hx, hcard⟩
    obtain ⟨f, hf, hxf⟩ := hsource x hx
    exact ⟨hlacks.not_isMessageOrder, f, hf, x, hxf, hcard⟩

/-- Three factors around a cycle. -/
def ringOfFactors : List (Factor ℚ≥0 (FormalLog ℚ≥0)) :=
  pairOfFactors ++ [pairFactor "C" "A" 4 0 5 1]

/-- Whether a run over joined factors ends with a tree and with roots that pass a check. -/
def runPasses (check : CliqueTree ℚ≥0 (FormalLog ℚ≥0) → List Int → Bool) (mode : Mode)
    (factors : List (Factor ℚ≥0 (FormalLog ℚ≥0))) (edges : List (Int × Int)) (order : List Int) :
    Bool :=
  match ofEdges factors edges order with
  | .error _ => false
  | .ok t =>
    match Passing.run mode ⟨t, []⟩ with
    | .ok roots p => check p.tree roots
    | .error .. => false

theorem exists_of_runPasses {check : CliqueTree ℚ≥0 (FormalLog ℚ≥0) → List Int → Bool} {mode : Mode}
    {factors : List (Factor ℚ≥0 (FormalLog ℚ≥0))} {edges : List (Int × Int)} {order : List Int}
    (h : runPasses check mode factors edges order = true) :
    ∃ t roots p, ofEdges factors edges order = .ok t ∧ Passing.run mode ⟨t, []⟩ = .ok roots p ∧
      check p.tree roots = true := by
  unfold runPasses at h
  split at h
  · cases h
  next t ht =>
    split at h
    next roots p hp => exact ⟨t, roots, p, ht, hp, h⟩
    next => cases h

/-- A single edge makes no cycle. -/
theorem isAcyclic_single_edge :
    (SimpleGraph.fromRel fun a b : ℕ => ((a : Int), (b : Int)) ∈ [(0, 1)]).IsAcyclic := by
  have hedge : (SimpleGraph.fromRel fun a b : ℕ => ((a : Int), (b : Int)) ∈ [(0, 1)])
      = ⊥ ⊔ SimpleGraph.edge 0 1 := by
    ext a b
    simp [SimpleGraph.edge_adj]
    omega
  rw [hedge]
  exact SimpleGraph.isAcyclic_bot.sup_edge_of_not_reachable (by simp)

/-- A cycle with a loop, where one clique is visited twice in a row and another never, and a forest
in which a clique is visited again after its neighbor. -/
theorem ends_in_order_ring :
    (Layout ringOfFactors [(0, 1), (1, 2), (2, 0), (1, 1)] [2, 2, 0] ∧
      ∃ t roots p, ofEdges ringOfFactors [(0, 1), (1, 2), (2, 0), (1, 1)] [2, 2, 0] = .ok t ∧
        Passing.run .max ⟨t, []⟩ = .ok roots p ∧ RunInOrder t [2, 2, 0] roots p) ∧
    Layout ringOfFactors [(0, 1)] [0, 1, 0] ∧
      ∃ t roots p, ofEdges ringOfFactors [(0, 1)] [0, 1, 0] = .ok t ∧
        Passing.run .sum ⟨t, []⟩ = .ok roots p ∧
        ∃! r : ℕ, (r : Int) ∈ roots ∧ t.graph.Reachable 0 r := by
  have hstates : ¬ ∃ f ∈ ringOfFactors, ∃ a ∈ f.scope.axes, a.card = 0 := by decide +kernel
  have hring : Layout ringOfFactors [(0, 1), (1, 2), (2, 0), (1, 1)] [2, 2, 0] :=
    ⟨by decide +kernel, by decide +kernel, by decide +kernel⟩
  have hforest : Layout ringOfFactors [(0, 1)] [0, 1, 0] :=
    ⟨by decide +kernel, by decide +kernel, by decide +kernel⟩
  refine ⟨⟨hring, ?_⟩, hforest, ?_⟩
  · obtain ⟨t, ht, -, -, -, hends⟩ := ends_in_order .max hring (by decide)
    obtain ⟨roots, p, hp, hrun⟩ := (hends.imp_fault fun _ he => hstates he.2).exists_ok
    exact ⟨t, roots, p, ht, hp, hrun⟩
  · obtain ⟨t, ht, -, hborders, hgraph, hends⟩ := ends_in_order .sum hforest (by decide)
    obtain ⟨roots, p, hp, hrun⟩ := (hends.imp_fault fun _ he => hstates he.2).exists_ok
    refine ⟨t, roots, p, ht, hp, hrun.existsUnique_root (fun i hi => ?_)
      (hgraph ▸ isAcyclic_single_edge) ⟨0, by simp, SimpleGraph.Reachable.refl 0⟩
      fun a b _ hab => ?_⟩
    · have he := (hborders i i).1 hi
      simp at he
      omega
    · obtain ⟨t', roots', p', ht', hp', hsent⟩ := exists_of_runPasses
        (by decide +kernel : runPasses
          (fun t _ => (t.message 0 1).isSome && (t.message 1 0).isSome) .sum ringOfFactors
          [(0, 1)] [0, 1, 0] = true)
      obtain rfl : t = t' := Except.ok.inj (ht.symm.trans ht')
      obtain ⟨-, rfl⟩ := EStateM.Result.ok.inj (hp.symm.trans hp')
      rw [Bool.and_eq_true] at hsent
      rw [hgraph, SimpleGraph.fromRel_adj] at hab
      simp only [List.mem_singleton, Prod.mk.injEq, Nat.cast_eq_zero, Nat.cast_eq_one] at hab
      rcases hab.2 with ⟨rfl, rfl⟩ | ⟨rfl, rfl⟩
      · exact hsent.1
      · exact hsent.2

/-- An edge to the last clique as it is counted from the end. When that clique sends along the edge,
it looks for its messages under the index of this edge, and misses the one that came along another
edge. Without other edges nothing is missing, but on its visit the clique does not see the message
to the index below zero, and no root is answered although all messages were sent. -/
theorem not_ends_in_order_from_the_end :
    (Layout ringOfFactors [(0, -1), (1, 2)] [0, 1, 2] ∧
      ∃ t p, ofEdges ringOfFactors [(0, -1), (1, 2)] [0, 1, 2] = .ok t ∧
        Passing.run .sum ⟨t, []⟩ = .error (.messageMissing 1 (-1)) p) ∧
    Layout pairOfFactors [(0, -1)] [0, 1] ∧
      ∃ t p, ofEdges pairOfFactors [(0, -1)] [0, 1] = .ok t ∧
        Passing.run .sum ⟨t, []⟩ = .ok [] p ∧
        p.tree.sentBy 0 = .ok [-1] ∧ p.tree.sentBy 1 = .ok [0] := by
  refine ⟨⟨⟨by decide +kernel, by decide +kernel, by decide +kernel⟩,
    exists_of_faultOf (by decide +kernel)⟩,
    ⟨by decide +kernel, by decide +kernel, by decide +kernel⟩, ?_⟩
  obtain ⟨t, roots, p, ht, hp, hcheck⟩ := exists_of_runPasses
    (by decide +kernel : runPasses
      (fun t roots => decide (roots = [] ∧ t.sentBy 0 = .ok [-1] ∧ t.sentBy 1 = .ok [0])) .sum
      pairOfFactors [(0, -1)] [0, 1] = true)
  obtain ⟨rfl, hfirst, hsecond⟩ := of_decide_eq_true hcheck
  exact ⟨t, p, ht, hp, hfirst, hsecond⟩

end CliqueTree

end ExactInference
