import ExactInference.Proofs.EliminationOrder
import ExactInference.Proofs.Interleavings
import ExactInference.Proofs.PassedTrees

/-!
# Sweeps from the leaves to the roots

If every clique has at most one neighbor that stands after it in the schedule, then on the way there
a clique has heard from all others when it is visited, and sends to that neighbor. So the two sweeps
deliver every message, and the roots are the cliques without a later neighbor. Along a path away
from such a clique the positions descend, which makes it the last one of its tree.
-/

namespace ExactInference

section Order

variable {G : SimpleGraph ℕ} {order : List ℕ} {i r : ℕ}

/-- The elements of a list without repetition stand in the order of their positions. -/
theorem pairwise_idxOf (h : order.Nodup) :
    order.Pairwise fun i j => (order.idxOf i : Int) < order.idxOf j := by
  refine List.pairwise_iff_getElem.2 fun i j hi hj hij => ?_
  rw [h.idxOf_getElem i hi, h.idxOf_getElem j hj]
  exact_mod_cast hij

/-- What stands before an element are those with a lower position. -/
theorem mem_before_iff {before after : List ℕ} (h : order.Nodup)
    (hsplit : order = before ++ r :: after) (hi : i ∈ order) :
    i ∈ before ↔ order.idxOf i < order.idxOf r := by
  have hirrefl : r ∉ before := fun hin => by
    rw [hsplit] at h
    exact (List.nodup_append.1 h).2.2 r hin r List.mem_cons_self rfl
  by_cases hir : i = r
  · subst hir
    simp [hirrefl]
  rcases mem_before_or_after (pairwise_idxOf h) hsplit hi hir with ⟨hin, hlt⟩ | ⟨hin, hlt⟩
  · exact ⟨fun _ => by exact_mod_cast hlt, fun _ => hin⟩
  · refine ⟨fun hbefore => ?_, fun hlt' => absurd hlt' (by exact_mod_cast hlt.asymm)⟩
    rw [hsplit] at h
    exact ((List.nodup_append.1 h).2.2 i hbefore i (List.mem_cons_of_mem r hin) rfl).elim

/-- An element is met for the first time, or was met before. -/
theorem eq_or_append_of_split {before after before' after' : List ℕ}
    (h : before ++ r :: after = before' ++ r :: after') (hr : r ∉ before) :
    before' = before ∨ ∃ mid, before' = before ++ r :: mid := by
  rcases List.append_eq_append_iff.1 h with ⟨mid, rfl, hmid⟩ | ⟨mid, rfl, hmid⟩
  · cases mid with
    | nil => exact Or.inl (List.append_nil _)
    | cons x mid =>
      obtain ⟨rfl, -⟩ := List.cons.inj hmid
      exact Or.inr ⟨mid, rfl⟩
  · cases mid with
    | nil => exact Or.inl (List.append_nil _).symm
    | cons x mid =>
      obtain ⟨rfl, -⟩ := List.cons.inj hmid
      exact absurd (List.mem_append_right _ List.mem_cons_self) hr

/-- No vertex of a tree stands after this one. -/
def LastOfTree (G : SimpleGraph ℕ) (order : List ℕ) (r : ℕ) : Prop :=
  ∀ s, G.Reachable r s → order.idxOf s ≤ order.idxOf r

/-- Everything that an ordered vertex is connected to is ordered. -/
theorem mem_of_reachable (hmem : ∀ {u w}, G.Adj u w → u ∈ order) (hi : i ∈ order)
    (h : G.Reachable i r) : r ∈ order :=
  reachable_induct h hi fun _ _ _ hadj => hmem hadj.symm

/-- Every tree has one last vertex. -/
theorem existsUnique_lastOfTree (hmem : ∀ {u w}, G.Adj u w → u ∈ order) (hi : i ∈ order) :
    ∃! r, G.Reachable i r ∧ LastOfTree G order r := by
  classical
  obtain ⟨r, hr, hmax⟩ := (order.toFinset.filter (G.Reachable i)).exists_max_image order.idxOf
    ⟨i, by simp [hi]⟩
  rw [Finset.mem_filter, List.mem_toFinset] at hr
  have hlast : LastOfTree G order r := fun s hs => by
    refine hmax s (Finset.mem_filter.2 ⟨?_, hr.2.trans hs⟩)
    exact List.mem_toFinset.2 (mem_of_reachable hmem hr.1 hs)
  refine ⟨r, ⟨hr.2, hlast⟩, fun s ⟨hs, hslast⟩ => ?_⟩
  have hsr : G.Reachable s r := hs.symm.trans hr.2
  exact (List.idxOf_inj (mem_of_reachable hmem hi hs)).1
    (le_antisymm (hlast s hsr.symm) (hslast r hsr))

namespace LeafToRoot

variable (h : LeafToRoot G order) (hmem : ∀ {u w}, G.Adj u w → u ∈ order)
include h hmem

/-- Of two neighbors the one that stands later, if the other one is earlier. -/
theorem lt_of_later {a b k : ℕ} (hab : G.Adj a b) (hlt : order.idxOf a < order.idxOf b)
    (hak : G.Adj a k) (hkb : k ≠ b) : order.idxOf k < order.idxOf a := by
  refine lt_of_le_of_ne (not_lt.1 fun hlater => hkb (h a k b hak hab hlater hlt)) fun he => ?_
  exact hak.ne' ((List.idxOf_inj (hmem hak.symm)).1 he)

/-- A path descends if it starts below a later neighbor. -/
theorem descends {u v w : ℕ} (p : G.Walk u v) (hp : p.IsPath) (huw : G.Adj u w)
    (hw : w ∉ p.support) (hlt : order.idxOf u < order.idxOf w) :
    order.idxOf v ≤ order.idxOf u := by
  induction p generalizing w with
  | nil => exact le_rfl
  | @cons u x v hux p ih =>
    obtain ⟨hp, hu⟩ := (SimpleGraph.Walk.cons_isPath_iff hux p).1 hp
    have hxw : x ≠ w := fun he => hw (by
      rw [SimpleGraph.Walk.support_cons, ← he]
      exact List.mem_cons_of_mem u p.start_mem_support)
    have hdown := h.lt_of_later hmem huw hlt hux hxw
    exact (ih hp hux.symm hu hdown).trans hdown.le

/-- A vertex is the last one of its tree if none of its neighbors stands after it. -/
theorem lastOfTree_iff :
    LastOfTree G order r ↔ ∀ k, G.Adj r k → order.idxOf k < order.idxOf r := by
  constructor
  · intro hlast k hk
    refine lt_of_le_of_ne (hlast k hk.reachable) fun he => ?_
    exact hk.ne' ((List.idxOf_inj (hmem hk.symm)).1 he)
  · rintro hall s ⟨p⟩
    classical
    cases hp : p.toPath with
    | mk q hq =>
    cases q with
    | nil => exact le_rfl
    | @cons _ x _ hrx q =>
      obtain ⟨hq, hrq⟩ := (SimpleGraph.Walk.cons_isPath_iff hrx q).1 hq
      exact (h.descends hmem q hq hrx.symm hrq (hall x hrx)).trans (hall x hrx).le

end LeafToRoot

namespace LeafToRoot

variable (h : LeafToRoot G order) (hnodup : order.Nodup) (hmem : ∀ {u w}, G.Adj u w → u ∈ order)
  {S : ℕ → ℕ → Prop} {before after : List ℕ} {a b : ℕ}

include h in
/-- No path is blocked. -/
theorem not_blocked : ¬ Blocked G fun i => (order.idxOf i : Int) := by
  rintro ⟨a, b, c, -, hab, hbc, -, hac, -, hba, hbc'⟩
  exact hac (h b a c hab.symm hbc (Int.ofNat_lt.1 hba) (Int.ofNat_lt.1 hbc'))

include h hnodup hmem

/-- On the way there every clique sends to its later neighbor. -/
theorem sent_to_later (hsplit : order = before ++ a :: after) (hab : G.Adj a b)
    (hlt : order.idxOf a < order.idxOf b) : spreadAll G S (before ++ [a]) a b := by
  refine sent_on_the_way (pairwise_idxOf hnodup) hmem
    (P := fun a b => G.Adj a b ∧ order.idxOf a < order.idxOf b) ?_ hsplit hab ⟨hab, hlt⟩
  rintro a b k ⟨hab, hlt⟩ hak hkb
  have hdown := h.lt_of_later hmem hab hlt hak hkb
  exact ⟨by exact_mod_cast hdown, hak.symm, hdown⟩

/-- A clique gathers on some visit if none of its neighbors stands after it. -/
theorem gathersOnVisit_iff : GathersOnVisit G (fun _ _ => False) (order ++ order.reverse) r ↔
    r ∈ order ∧ ∀ k, G.Adj r k → order.idxOf k < order.idxOf r := by
  constructor
  · rintro ⟨before', after', hvisits, hfirst, hall⟩
    have hr : r ∈ order := by
      have hin : r ∈ order ++ order.reverse := by simp [hvisits]
      simpa using hin
    obtain ⟨before, after, hsplit⟩ := List.append_of_mem hr
    have hbefore := fun {i} => mem_before_iff (i := i) hnodup hsplit
    refine ⟨hr, fun k hk => lt_of_not_ge fun hge => ?_⟩
    have hlt : order.idxOf r < order.idxOf k := lt_of_le_of_ne hge fun he =>
      hk.ne ((List.idxOf_inj hr).1 he)
    have hvisits' : before ++ r :: (after ++ order.reverse) = before' ++ r :: after' := by
      rw [← hvisits, hsplit]
      simp
    rcases eq_or_append_of_split hvisits' fun hin => lt_irrefl _ ((hbefore hr).1 hin) with
      rfl | ⟨mid, rfl⟩
    · -- On the first visit the later neighbor has not been visited.
      exact (mem_of_spreadAll (hall k hk)).elim id fun hin =>
        hlt.asymm ((hbefore (hmem hk.symm)).1 hin)
    · -- On a later visit the clique has sent to its later neighbor.
      refine hfirst k ?_
      rw [List.append_cons]
      exact spreadAll_of_append (h.sent_to_later hnodup hmem hsplit hk hlt) mid
  · rintro ⟨hr, hall⟩
    obtain ⟨before, after, hsplit⟩ := List.append_of_mem hr
    have hbefore := fun {i} => mem_before_iff (i := i) hnodup hsplit
    refine ⟨before, after ++ order.reverse, by rw [hsplit]; simp, fun b hb => ?_, fun k hk => ?_⟩
    · exact (mem_of_spreadAll hb).elim id fun hin => lt_irrefl _ ((hbefore hr).1 hin)
    · have hlt := hall k hk
      obtain ⟨front, back, rfl⟩ := List.append_of_mem ((hbefore (hmem hk.symm)).2 hlt)
      rw [List.append_cons]
      exact spreadAll_of_append (h.sent_to_later hnodup hmem
        (hsplit.trans (by rw [List.append_assoc, List.cons_append])) hk.symm hlt) back

end LeafToRoot

end Order

namespace CliqueTree

variable {W L : Type} {t : CliqueTree W L} {factors : List (Factor W L)} {edges : List (ℕ × ℕ)}
  {order : List ℕ}

/-- Factors for the cliques of a forest, with its edges and a schedule from the leaves to the roots.
Such a schedule only exists if the edges make no cycle. -/
structure Plan (factors : List (Factor W L)) (edges : List (ℕ × ℕ)) (order : List ℕ) : Prop where
  /-- A variable has as many states in all factors. -/
  cards_agree : ∀ f ∈ factors, ∀ g ∈ factors, ∀ a ∈ f.scope.axes, ∀ b ∈ g.scope.axes,
    a.name = b.name → a.card = b.card
  /-- An edge joins two different cliques. -/
  ends : ∀ e ∈ edges, e.1 < factors.length ∧ e.2 < factors.length ∧ e.1 ≠ e.2
  /-- Every clique stands in the schedule once. -/
  order_perm : order.Perm (List.range factors.length)
  /-- A clique has at most one neighbor that stands after it. -/
  leafToRoot : LeafToRoot (SimpleGraph.fromRel fun a b => (a, b) ∈ edges) order

/-- What two sweeps over a forest achieve. -/
structure Swept (t : CliqueTree W L) (order : List ℕ) (roots : List Int) (p : Passing W L) :
    Prop where
  /-- The factors and the separators stay as they are. -/
  frame_eq : p.tree.frame = t.frame
  /-- A message is stored in both directions of every edge. -/
  sent : ∀ {a b}, t.graph.Adj a b → p.tree.Sent a b
  /-- Every message is computed once, and nothing else is. -/
  once : ∃ calls : List (ℕ × ℕ),
    p.events = calls.map (fun c => .passing c.1 c.2) ++ [.finished roots] ∧ calls.Nodup ∧
      ∀ a b, (a, b) ∈ calls ↔ t.graph.Adj a b
  /-- Roots are cliques. -/
  root_lt : ∀ n ∈ roots, ∃ r : ℕ, n = r ∧ r < t.size
  /-- No root is answered twice. -/
  roots_nodup : roots.Nodup
  /-- Every tree has one root. -/
  existsUnique_root : ∀ i < t.size, ∃! r : ℕ, (r : Int) ∈ roots ∧ t.graph.Reachable i r
  /-- It is the clique of the tree that stands last. -/
  last : ∀ {r : ℕ}, (r : Int) ∈ roots → LastOfTree t.graph order r

/-- Axes that agree can be listed without repetition. -/
theorem Plan.exists_axes (h : Plan factors edges order) :
    ∃ axes : List Axis, (axes.map Axis.name).Nodup ∧ (∀ f ∈ factors, f.scope.Within axes) ∧
      ∀ a ∈ axes, ∃ f ∈ factors, a ∈ f.scope.axes :=
  Factor.exists_axes h.cards_agree

variable [WeightScale W] [WeightScale L] [LogConversion W L]

/-- A fresh tree is swept along a schedule from the leaves to the roots. -/
theorem Fresh.swept {axes : List Axis} (h : t.Fresh) (hwired : t.Wired axes)
    (hd : (axes.map Axis.name).Nodup) (hpos : ∀ e ∈ axes, 0 < e.card)
    (horder : t.order = order.map Int.ofNat) (hperm : order.Perm (List.range t.size))
    (hleaf : LeafToRoot t.graph order) (mode : Mode) :
    ∃ roots p, Passing.run mode ⟨t, []⟩ = .ok roots p ∧ Swept t order roots p := by
  have hin : ∀ i, i ∈ order ↔ i < t.size := fun i => by rw [hperm.mem_iff, List.mem_range]
  have hmem : ∀ {u w}, t.graph.Adj u w → u ∈ order := fun hadj =>
    (hin _).2 (hwired.lt_size hadj)
  have hnodup : order.Nodup := hperm.nodup_iff.2 List.nodup_range
  have htracked := h.tracked hwired
  obtain ⟨roots, q, late, hrun, hframe, hsent, ⟨hafter, calls, hevents, hcalls, hiff⟩, hrooted,
      hroots⟩ := (Sustained.logged mode hd hpos).run ⟨htracked.begin, h.logged⟩
    htracked.isOpen h.not_sent horder fun i hi => (hin i).1 hi
  have hall : ∀ {a b}, t.graph.Adj a b → q.tree.Sent a b := by
    intro a b hab
    rw [hsent]
    exact (all_sent_iff (pairwise_idxOf hnodup) hmem).2 hleaf.not_blocked a b hab
  have hgraph : q.tree.graph = t.graph := graph_eq_of_frame_eq hframe
  have hroot : ∀ r : ℕ, (r : Int) ∈ roots ↔ r ∈ order ∧ LastOfTree t.graph order r := by
    intro r
    rw [hroots, hleaf.lastOfTree_iff hmem, ← hleaf.gathersOnVisit_iff hnodup hmem]
    constructor
    · rintro ⟨s, hs, hgathers⟩
      exact (show r = s by exact_mod_cast hs) ▸ hgathers
    · exact fun hgathers => ⟨r, rfl, hgathers⟩
  refine ⟨roots, _, hrun, ?_⟩
  constructor
  case frame_eq => exact hframe
  case sent => exact hall
  case once =>
    refine ⟨calls, by rw [← hevents], hcalls, fun a b => ?_⟩
    rw [hiff]
    exact ⟨fun hs => hgraph ▸ hafter.sent_adj hs, hall⟩
  case root_lt =>
    intro n hn
    obtain ⟨r, rfl, hr⟩ := hrooted.lt_size hn
    exact ⟨r, rfl, size_eq_of_frame_eq hframe ▸ hr⟩
  case roots_nodup => exact hrooted.nodup
  case existsUnique_root =>
    intro i hi
    obtain ⟨r, ⟨hreach, hlast⟩, hunique⟩ := existsUnique_lastOfTree hmem ((hin i).2 hi)
    refine ⟨r, ⟨(hroot r).2 ⟨?_, hlast⟩, hreach⟩, fun s ⟨hs, his⟩ => ?_⟩
    · exact mem_of_reachable hmem ((hin i).2 hi) hreach
    · exact hunique s ⟨his, ((hroot s).1 hs).2⟩
  case last => exact fun hr => ((hroot _).1 hr).2

/-- The schedule that an elimination finds leads from the leaves to the roots. -/
theorem exists_leafToRoot_of_ofGraph {useHint : Bool} {g : FactorGraph W L}
    (ht : (ofGraph useHint g).answer = .ok t) (hhint : useHint = true → g.hint = none) :
    ∃ order, t.order = order.map Int.ofNat ∧ order.Perm (List.range t.size) ∧
      LeafToRoot t.graph order := by
  obtain ⟨factors, done, order, hmade⟩ := exists_madeBy ht
  refine ⟨order, hmade.order_eq, hmade.order_perm, ?_⟩
  have hmerges := Elimination.Merges.run (nodup_names factors) hmade.eliminated
  have hschedule := hmade.schedule
  rw [scheduleFor_of_no_hint hhint] at hschedule
  cases hschedule
  rw [hmade.graph_eq]
  exact hmerges.leafToRoot

/-- So two sweeps along it deliver all messages. -/
theorem delivers_of_ofGraph {useHint : Bool} {g : FactorGraph W L}
    (ht : (ofGraph useHint g).answer = .ok t) (hhint : useHint = true → g.hint = none)
    (hlt : ∀ {a b}, t.graph.Adj a b → a < t.size) : t.Delivers := by
  obtain ⟨order, horder, hperm, hleaf⟩ := exists_leafToRoot_of_ofGraph ht hhint
  have hvisits : t.visits = order := by
    rw [visits, horder, List.map_map]
    exact List.map_id _
  have hnodup : order.Nodup := hperm.nodup_iff.2 List.nodup_range
  rw [Delivers, hvisits]
  exact (all_sent_iff (pairwise_idxOf hnodup) fun hadj =>
    hperm.mem_iff.2 (List.mem_range.2 (hlt hadj))).2 hleaf.not_blocked

/-- A planned forest whose variables all have states can be made and swept in either mode: all
messages are computed, each once, and every tree has one root, the clique that stands last. The
elimination of a graph plans like this, unless a hint replaces its order. -/
theorem swept_of_plan (mode : Mode) :
    (∀ {factors : List (Factor W L)} {edges : List (ℕ × ℕ)} {order : List ℕ},
      Plan factors edges order → (∀ f ∈ factors, ∀ a ∈ f.scope.axes, 0 < a.card) →
      ∃ t roots p, ofEdges factors (edges.map fun e => ((e.1 : Int), (e.2 : Int)))
          (order.map Int.ofNat) = .ok t ∧
        t.cliques.map Clique.factor = factors ∧
        (∀ a b, t.graph.Adj a b ↔ (a, b) ∈ edges ∨ (b, a) ∈ edges) ∧
        Passing.run mode ⟨t, []⟩ = .ok roots p ∧ Swept t order roots p) ∧
    ∀ {useHint : Bool} {g : FactorGraph W L} {t : CliqueTree W L},
      (ofGraph useHint g).answer = .ok t → (useHint = true → g.hint = none) →
      ∃ order, t.order = order.map Int.ofNat ∧ order.Perm (List.range t.size) ∧
        LeafToRoot t.graph order := by
  refine ⟨fun {factors edges order} hplan hpos => ?_, fun {useHint g t} ht hhint => ?_⟩
  · obtain ⟨axes, hd, hwithin, hsource⟩ := hplan.exists_axes
    obtain ⟨t, ht, horder, hjoined⟩ := Joined.exists_ofEdges (order.map Int.ofNat) hplan.ends
    have hsize := hjoined.size_eq
    have hends := hplan.ends
    rw [← hsize] at hends
    have hadj : ∀ a b, t.graph.Adj a b ↔ (a, b) ∈ edges ∨ (b, a) ∈ edges := fun a b =>
      hjoined.graph_adj hends
    have hgraph : t.graph = SimpleGraph.fromRel fun a b => (a, b) ∈ edges := by
      ext a b
      rw [hadj, SimpleGraph.fromRel_adj]
      refine ⟨fun he => ⟨?_, he⟩, fun he => he.2⟩
      exact he.elim (fun he => (hends _ he).2.2) fun he => (hends _ he).2.2.symm
    obtain ⟨roots, p, hp, hswept⟩ := hjoined.toFresh.swept (hjoined.wired hwithin hends) hd
      (fun a ha => by
        obtain ⟨f, hf, hfa⟩ := hsource a ha
        exact hpos f hf a hfa) horder (hsize ▸ hplan.order_perm) (hgraph ▸ hplan.leafToRoot) mode
    exact ⟨t, roots, p, ht, hjoined.factors_eq, hadj, hp, hswept⟩
  · exact exists_leafToRoot_of_ofGraph ht hhint

/-- Along a single edge every schedule leads from the leaves to the roots. -/
theorem leafToRoot_of_single_edge (e : ℕ × ℕ) (order : List ℕ) :
    LeafToRoot (SimpleGraph.fromRel fun a b => (a, b) ∈ [e]) order := by
  rintro i j k ⟨hij, hj⟩ ⟨-, hk⟩ - -
  simp only [List.mem_singleton, Prod.ext_iff] at hj hk
  omega

/-- Two components whose cliques alternate in the schedule. -/
def alternating : List (Factor ℚ≥0 (FormalLog ℚ≥0)) :=
  pairOfFactors ++ [pairFactor "D" "E" 4 0 5 1]

theorem plan_alternating : Plan alternating [(0, 1)] [0, 2, 1] where
  cards_agree := by decide +kernel
  ends := by decide +kernel
  order_perm := by decide +kernel
  leafToRoot := leafToRoot_of_single_edge _ _

/-- A sweep over two components, and an elimination. -/
theorem swept_alternating :
    (∃ t roots p, ofEdges alternating [(0, 1)] [0, 2, 1] = .ok t ∧
      Passing.run .max ⟨t, []⟩ = .ok roots p ∧ Swept t [0, 2, 1] roots p) ∧
    ∃ g t order, FactorGraph.ofFactors pairOfFactors = .ok g ∧ (ofGraph false g).answer = .ok t ∧
      t.order = order.map Int.ofNat ∧ LeafToRoot t.graph order := by
  refine ⟨?_, ?_⟩
  · obtain ⟨t, roots, p, ht, -, -, hp, hswept⟩ :=
      (swept_of_plan .max).1 plan_alternating (by decide +kernel)
    exact ⟨t, roots, p, ht, hp, hswept⟩
  · have hok : (FactorGraph.ofFactors pairOfFactors >>= fun g => (ofGraph false g).answer).toBool
        = true := by decide +kernel
    obtain ⟨t, hrun⟩ := exists_of_toBool hok
    obtain ⟨g, hg, ht⟩ := bind_eq_ok_iff.1 hrun
    obtain ⟨order, horder, -, hleaf⟩ :=
      (swept_of_plan .max).2 ht (fun h : false = true => by cases h)
    exact ⟨g, t, order, hg, ht, horder, hleaf⟩

/-- Two factors that share a variable, the first of which holds one without states. -/
def withoutStates : List (Factor ℚ≥0 (FormalLog ℚ≥0)) :=
  [.plain ⟨⟨[⟨"A", 0⟩, ⟨"B", 2⟩], by decide⟩, #[], rfl⟩, pairFactor "B" "C" 1 2 3 4]

/-- The same with one variable more and stored by logarithms. -/
def withoutStatesLog : List (Factor ℚ≥0 (FormalLog ℚ≥0)) :=
  [.log ⟨⟨[⟨"A", 0⟩, ⟨"D", 2⟩, ⟨"B", 2⟩], by decide⟩, #[], rfl⟩,
    pairFactor "B" "C" 1 2 3 4]

/-- A plan does not make up for variables without states: there is no largest weight over no states,
and logarithms are not summed over two axes of an empty table. -/
theorem not_swept_without_states :
    (Plan withoutStates [(0, 1)] [0, 1] ∧ ∃ t p, ofEdges withoutStates [(0, 1)] [0, 1] = .ok t ∧
      Passing.run .max ⟨t, []⟩ = .error .emptyMaximum p) ∧
    (Plan withoutStatesLog [(0, 1)] [0, 1] ∧
      ∃ t p, ofEdges withoutStatesLog [(0, 1)] [0, 1] = .ok t ∧
        Passing.run .sum ⟨t, []⟩ = .error (.tooManyIndices 1 2) p) := by
  refine ⟨⟨⟨?_, ?_, ?_, leafToRoot_of_single_edge _ _⟩, exists_of_faultOf ?_⟩,
    ⟨?_, ?_, ?_, leafToRoot_of_single_edge _ _⟩, exists_of_faultOf ?_⟩
  all_goals decide +kernel

end CliqueTree

end ExactInference
