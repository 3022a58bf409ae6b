import ExactInference.Proofs.Protocol
import ExactInference.Proofs.TwoSweeps
import ExactInference.Proofs.Visits

/-!
# Sweeps

If all variables have states, no visit fails, and the messages sent after a schedule are those that
spread over the graph along its visits. A clique is counted as a root if
everything had arrived before it sent anything; all of its messages are late, and every other clique
has sent one message that is not late. So once all messages are sent, following the messages that
are not late leads from every clique to the one root of its tree.
-/

namespace ExactInference

namespace CliqueTree

variable {W L : Type} {t : CliqueTree W L} {a b i : ℕ} {c : Clique W L} {axes : List Axis}
  {mode : Mode} {p : Passing W L} {late : ℕ → ℕ → Prop}

open PassingStep

/-- What is due, in terms of the graph. -/
theorem Coherent.due_iff (h : Coherent axes t) : t.Due i b ↔
    t.graph.Adj i b ∧ ¬ t.Sent i b ∧ ∀ k, t.graph.Adj i k → k ≠ b → t.Sent k i := by
  simp only [Due, h.wired.borders_iff]

theorem Coherent.gathering_iff (h : Coherent axes t) :
    t.Gathering i ↔ Gathers t.graph t.Sent i := by
  simp only [Gathering, Gathers, h.wired.borders_iff]

/-- The log of a tree under way tells the messages that were sent, each once. -/
def Logged (p : Passing W L) : Prop :=
  ∃ calls : List (ℕ × ℕ), p.events = calls.map (fun c => .passing c.1 c.2) ∧ calls.Nodup ∧
    ∀ a b, (a, b) ∈ calls ↔ p.tree.Sent a b

/-- A message that is sent for the first time is logged. -/
theorem Logged.send {q : Passing W L} (h : Logged p)
    (hevents : q.events = p.events ++ [.passing a b])
    (hsent : ∀ u w, q.tree.Sent u w ↔ p.tree.Sent u w ∨ u = a ∧ w = b) (hnew : ¬ p.tree.Sent a b) :
    Logged q := by
  obtain ⟨calls, hlog, hnodup, hcalls⟩ := h
  refine ⟨calls ++ [(a, b)], ?_, ?_, fun u w => ?_⟩
  · rw [List.map_append, ← hlog, hevents]
    rfl
  · refine List.nodup_append.2 ⟨hnodup, List.nodup_singleton _, fun c hc d hd he => hnew ?_⟩
    rw [List.mem_singleton.1 hd] at he
    exact (hcalls a b).1 (he ▸ hc)
  · rw [hsent, List.mem_append, hcalls, List.mem_singleton, Prod.mk.injEq]

/-- Nothing is logged before any message. -/
theorem Fresh.logged (h : t.Fresh) :
    Logged (⟨{ t with phase := .inProgress }, []⟩ : Passing W L) :=
  ⟨[], rfl, List.nodup_nil, fun a b => ⟨fun hin => by simp at hin,
    fun hs => absurd hs (h.not_sent a b)⟩⟩

/-- The messages spread by what is due. -/
theorem Coherent.spread_eq {t' : CliqueTree W L} (h : Coherent axes t)
    (hsent : ∀ a b, t'.Sent a b ↔ t.Sent a b ∨ a = i ∧ t.Due i b) :
    t'.Sent = spread t.graph t.Sent i := by
  funext a b
  refine propext ?_
  rw [hsent, h.due_iff, spread]
  constructor
  · rintro (hab | ⟨rfl, hib, -, hall⟩)
    · exact Or.inl hab
    · exact Or.inr ⟨rfl, hib, hall⟩
  · rintro (hab | ⟨rfl, hib, hall⟩)
    · exact Or.inl hab
    · by_cases hab : t.Sent a b
      · exact Or.inl hab
      · exact Or.inr ⟨rfl, hib, hab, hall⟩

/-- The messages that are late after a visit: those that were, and those that answer one. -/
def lateAfter (t t' : CliqueTree W L) (late : ℕ → ℕ → Prop) (i a b : ℕ) : Prop :=
  late a b ∨ a = i ∧ ¬ t.Sent a b ∧ t'.Sent a b ∧ t.Sent b a

section Visit

variable {holds : Passing W L → (ℕ → ℕ → Prop) → Prop}

/-- Which messages are late only matters up to equivalence. -/
theorem holds_of_late_iff {late' : ℕ → ℕ → Prop} (h : holds p late)
    (hiff : ∀ a b, late a b ↔ late' a b) : holds p late' := by
  have he : late = late' := funext fun a => funext fun b => propext (hiff a b)
  exact he ▸ h

end Visit

/-- What the roots found so far stand for. -/
structure Rooted (t : CliqueTree W L) (late : ℕ → ℕ → Prop) (roots : List Int)
    (visited : ℕ → Prop) : Prop where
  /-- Roots are cliques. -/
  lt_size : ∀ {n}, n ∈ roots → ∃ r : ℕ, n = r ∧ r < t.size
  /-- Every root is found once. -/
  nodup : roots.Nodup
  /-- A root had received everything before it sent anything. -/
  root : ∀ {r : ℕ}, (r : Int) ∈ roots →
    (∀ k, t.graph.Adj r k → t.Sent k r) ∧ ∀ b, t.Sent r b → late r b
  /-- Any other sender has sent a message that is not late. -/
  pointer : ∀ {a b : ℕ}, (a : Int) ∉ roots → t.Sent a b → ∃ k, t.Sent a k ∧ ¬ late a k
  /-- A clique without neighbors is a root. -/
  isolated : ∀ {i : ℕ}, visited i → (∀ k, ¬ t.graph.Adj i k) → (i : Int) ∈ roots

theorem mem_addOnce {ns : List Int} {m n : Int} : m ∈ addOnce ns n ↔ m ∈ ns ∨ m = n := by
  unfold addOnce
  split
  · next hn =>
    rw [List.contains_eq_mem, decide_eq_true_eq] at hn
    exact ⟨Or.inl, fun hm => hm.elim id fun he => he ▸ hn⟩
  · simp

theorem nodup_addOnce {ns : List Int} (hns : ns.Nodup) (n : Int) : (addOnce ns n).Nodup := by
  unfold addOnce
  split
  · exact hns
  · next hn =>
    rw [List.contains_eq_mem, decide_eq_true_eq] at hn
    refine List.nodup_append.2 ⟨hns, List.nodup_singleton n, fun m hm k hk he => hn ?_⟩
    rwa [← List.mem_singleton.1 hk, ← he]

/-- Before the first message and the first visit there is no root. -/
theorem Rooted.of_not_sent (hnone : ∀ a b, ¬ t.Sent a b) : Rooted t late [] fun _ => False where
  lt_size hn := absurd hn List.not_mem_nil
  nodup := List.nodup_nil
  root hr := absurd hr List.not_mem_nil
  pointer _ hab := absurd hab (hnone _ _)
  isolated hno := hno.elim

/-- The order of the roots does not matter, and fewer visits say less. -/
theorem Rooted.of_perm {roots roots' : List Int} {visited visited' : ℕ → Prop}
    (hr : Rooted t late roots visited) (hperm : roots'.Perm roots)
    (hvisited : ∀ {i}, visited' i → visited i) : Rooted t late roots' visited' where
  lt_size hn := hr.lt_size (hperm.mem_iff.1 hn)
  nodup := hperm.nodup_iff.2 hr.nodup
  root hin := hr.root (hperm.mem_iff.1 hin)
  pointer hout := hr.pointer fun hin => hout (hperm.mem_iff.2 hin)
  isolated hi hno := hperm.mem_iff.2 (hr.isolated (hvisited hi) hno)

section Visited

variable {t' : CliqueTree W L} {roots : List Int} {visited : ℕ → Prop}
  (h : Tracked axes t late) (hframe : t'.frame = t.frame)
  (hsent : t'.Sent = spread t.graph t.Sent i)

include h hsent

theorem adj_of_spread (hab : t'.Sent a b) : t.graph.Adj a b := by
  rw [hsent] at hab
  rcases hab with hab | ⟨rfl, hab, -⟩
  · exact h.sent_adj hab
  · exact hab

/-- The first message of a clique that has not received everything is not late. -/
theorem not_lateAfter (hgathers : ¬ Gathers t.graph t.Sent i) (hfirst : ∀ k, ¬ t.Sent a k)
    (hab : t'.Sent a b) : ¬ lateAfter t t' late i a b := by
  have hai : a = i := by
    by_contra hai
    exact hfirst b (sent_of_ne hsent hai hab)
  subst hai
  rw [hsent] at hab
  obtain ⟨-, hadj, hall⟩ := hab.resolve_left (hfirst b)
  rintro (hl | ⟨-, -, -, hback⟩)
  · exact hfirst b (h.late_sent hl).1
  · refine hgathers ⟨hfirst, fun k hk => ?_⟩
    by_cases hkb : k = b
    · exact hkb ▸ hback
    · exact hall k hk hkb

include hframe

/-- A clique that received everything first is a root, and all its messages are late. -/
theorem Rooted.of_gathers (hr : Rooted t late roots visited) (hi : i < t.size)
    (hgathers : Gathers t.graph t.Sent i) :
    Rooted t' (lateAfter t t' late i) (addOnce roots i) fun j => visited j ∨ j = i := by
  have hgraph := graph_eq_of_frame_eq hframe
  constructor
  case lt_size =>
    intro n hn
    rw [size_eq_of_frame_eq hframe]
    rcases mem_addOnce.1 hn with hn | rfl
    · exact hr.lt_size hn
    · exact ⟨i, rfl, hi⟩
  case nodup => exact nodup_addOnce hr.nodup i
  case root =>
    intro r hrr
    rw [hgraph]
    by_cases hri : r = i
    · subst hri
      refine ⟨fun k hk => sent_of_spread hsent (hgathers.2 k hk), fun b hb => Or.inr ?_⟩
      exact ⟨rfl, hgathers.1 b, hb, hgathers.2 b (adj_of_spread h hsent hb)⟩
    · have hold : (r : Int) ∈ roots := (mem_addOnce.1 hrr).resolve_right fun he => hri (by
        exact_mod_cast he)
      obtain ⟨hreceived, hlate⟩ := hr.root hold
      exact ⟨fun k hk => sent_of_spread hsent (hreceived k hk),
        fun b hb => Or.inl (hlate b (sent_of_ne hsent hri hb))⟩
  case pointer =>
    intro a b ha hab
    have hai : a ≠ i := fun he => ha (mem_addOnce.2 (Or.inr (by exact_mod_cast he)))
    obtain ⟨k, hk, hlate⟩ := hr.pointer (fun hin => ha (mem_addOnce.2 (Or.inl hin)))
      (sent_of_ne hsent hai hab)
    exact ⟨k, sent_of_spread hsent hk, fun hl => hl.elim hlate fun hs => hai hs.1⟩
  case isolated =>
    rintro j (hj | rfl) hno
    · rw [hgraph] at hno
      exact mem_addOnce.2 (Or.inl (hr.isolated hj hno))
    · exact mem_addOnce.2 (Or.inr rfl)

/-- Any other clique is none. -/
theorem Rooted.of_not_gathers (hr : Rooted t late roots visited)
    (hgathers : ¬ Gathers t.graph t.Sent i) :
    Rooted t' (lateAfter t t' late i) roots fun j => visited j ∨ j = i := by
  have hgraph := graph_eq_of_frame_eq hframe
  constructor
  case lt_size =>
    intro n hn
    rw [size_eq_of_frame_eq hframe]
    exact hr.lt_size hn
  case nodup => exact hr.nodup
  case root =>
    intro r hrr
    rw [hgraph]
    obtain ⟨hreceived, hlate⟩ := hr.root hrr
    refine ⟨fun k hk => sent_of_spread hsent (hreceived k hk), fun b hb => ?_⟩
    by_cases hold : t.Sent r b
    · exact Or.inl (hlate b hold)
    · have hri : r = i := by
        by_contra hri
        exact hold (sent_of_ne hsent hri hb)
      exact Or.inr ⟨hri, hold, hb, hreceived b (adj_of_spread h hsent hb)⟩
  case pointer =>
    intro a b ha hab
    by_cases hfirst : ∀ k, ¬ t.Sent a k
    · exact ⟨b, hab, not_lateAfter h hsent hgathers hfirst hab⟩
    · push Not at hfirst
      obtain ⟨b', hb'⟩ := hfirst
      obtain ⟨k, hk, hlate⟩ := hr.pointer ha hb'
      refine ⟨k, sent_of_spread hsent hk, ?_⟩
      rintro (hl | ⟨-, hnew, -⟩)
      · exact hlate hl
      · exact hnew hk
  case isolated =>
    rintro j (hj | rfl) hnone
    · rw [hgraph] at hnone
      exact hr.isolated hj hnone
    · rw [hgraph] at hnone
      exact absurd ⟨fun b hb => hnone b (h.sent_adj hb), fun k hk => absurd hk (hnone k)⟩ hgathers

end Visited

/-- Whether every message has been sent. -/
def AllSent (t : CliqueTree W L) : Prop := ∀ a b, t.graph.Adj a b → t.Sent a b

namespace Rooted

variable {roots : List Int} {visited : ℕ → Prop} {r s : ℕ}
  (hr : Rooted t late roots visited) (h : Tracked axes t late)
  (hforest : IsJoinForest t.size t.graph t.scopeOf) (hall : t.AllSent)

include hr h hforest hall

/-- Behind a message that is not late there is a root. -/
theorem exists_behind (hadj : t.graph.Adj a b) (hlate : ¬ late a b) :
    ∃ r : ℕ, (r : Int) ∈ roots ∧ OnSide t.graph b a r := by
  refine hforest.edge_induct
    (P := fun b a => ¬ late a b → ∃ r : ℕ, (r : Int) ∈ roots ∧ OnSide t.graph b a r)
    (fun {b a} hadj ih hlate => ?_) hadj.symm hlate
  by_cases hb : (b : Int) ∈ roots
  · exact ⟨b, hb, OnSide.self _ _ _⟩
  · obtain ⟨k, hbk, hfirst⟩ := hr.pointer hb (hall b a hadj)
    have hadj' : t.graph.Adj b k := h.sent_adj hbk
    have hka : k ≠ a := by
      rintro rfl
      exact (h.answered (hall _ _ hadj.symm) hbk).elim hlate hfirst
    obtain ⟨r, hroot, hreach⟩ := ih hadj' hka hfirst
    exact ⟨r, hroot, (OnSide.iff_behind hforest.acyclic hadj).2
      (Or.inr ⟨k, hadj', hka, hreach⟩)⟩

/-- Every tree has a root. -/
theorem exists_root (hi : visited i) : ∃ r : ℕ, (r : Int) ∈ roots ∧ t.graph.Reachable i r := by
  by_cases hin : (i : Int) ∈ roots
  · exact ⟨i, hin, SimpleGraph.Reachable.refl _⟩
  · by_cases hsome : ∃ k, t.graph.Adj i k
    · obtain ⟨k, hik⟩ := hsome
      obtain ⟨b, hib, hlate⟩ := hr.pointer hin (hall i k hik)
      have hadj := h.sent_adj hib
      obtain ⟨r, hroot, hreach⟩ := hr.exists_behind h hforest hall hadj hlate
      exact ⟨r, hroot, hadj.reachable.trans hreach.reachable⟩
    · push Not at hsome
      exact absurd (hr.isolated hi hsome) hin

/-- The messages toward a root are not late. -/
theorem not_late_toward (hroot : (r : Int) ∈ roots) (hadj : t.graph.Adj a b)
    (hside : OnSide t.graph a b r) : ¬ late b a := by
  refine hforest.edge_induct (P := fun a b => OnSide t.graph a b r → ¬ late b a)
    (fun {a b} hadj ih hside => ?_) hadj hside
  rcases (OnSide.iff_behind hforest.acyclic hadj).1 hside with rfl | ⟨k, hak, hkb, hk⟩
  · exact (h.late_sent ((hr.root hroot).2 b (hall _ _ hadj))).2.2
  · exact h.first_before (hall a k hak) (ih hak hkb hk) hadj hkb.symm

/-- No tree has two roots. -/
theorem root_unique (hrr : (r : Int) ∈ roots) (hss : (s : Int) ∈ roots)
    (hreach : t.graph.Reachable r s) : r = s := by
  rcases (OnSide.reachable_iff t.graph r s).1 hreach with rfl | ⟨k, hrk, hside⟩
  · rfl
  · have hlate : late r k := (hr.root hrr).2 k (hall r k hrk)
    exact absurd hlate (hr.not_late_toward h hforest hall hss hrk.symm hside)

end Rooted

variable [WeightScale W] [WeightScale L] [LogConversion W L]

/-- A property of a tree under way that holds on when a due message is sent. The relation tells
which messages are late. -/
structure Sustained (mode : Mode) (axes : List Axis)
    (holds : Passing W L → (ℕ → ℕ → Prop) → Prop) : Prop where
  /-- It implies that the order of messages is known. -/
  tracked : ∀ {p : Passing W L} {late : ℕ → ℕ → Prop}, holds p late → Tracked axes p.tree late
  /-- Sending a due message keeps it. -/
  pass : ∀ {p : Passing W L} {late : ℕ → ℕ → Prop} {a b : ℕ}, holds p late → p.tree.Due a b →
    ∃ m q, Passing.pass mode (a : Int) (b : Int) p = .ok m q ∧ q.tree.frame = p.tree.frame ∧
      (∀ u w, q.tree.Sent u w ↔ p.tree.Sent u w ∨ u = a ∧ w = b) ∧
      holds q fun u w => late u w ∨ u = a ∧ w = b ∧ p.tree.Sent b a

/-- Message passing on a coherent tree logs what it sends. -/
theorem Sustained.logged (mode : Mode) (hd : (axes.map Axis.name).Nodup)
    (hpos : ∀ e ∈ axes, 0 < e.card) :
    Sustained mode axes fun (p : Passing W L) late => Tracked axes p.tree late ∧ Logged p where
  tracked h := h.1
  pass := by
    rintro p late a b ⟨h, hlogged⟩ hdue
    obtain ⟨hadj, hnew, hall⟩ := h.toCoherent.due_iff.1 hdue
    obtain ⟨c, s, ns, m, g, hprep⟩ := h.toCoherent.exists_prepared hd hpos mode hadj hall
    exact ⟨g, _, hprep.pass_of_new hnew, hprep.frame_eq, fun u w => hprep.sent_iff,
      h.sending hadj hall hnew hprep, hlogged.send rfl (fun u w => hprep.sent_iff) hnew⟩

section Visit

variable {holds : Passing W L → (ℕ → ℕ → Prop) → Prop} (hI : Sustained mode axes holds)

include hI

/-- A due message is late if its receiver had sent before the visit. -/
theorem Sustained.pass_of_visit {q : Passing W L} (h : holds q (lateAfter p.tree q.tree late i))
    (hkept : ∀ a b, p.tree.Sent a b → q.tree.Sent a b)
    (honly : ∀ a b, q.tree.Sent a b → p.tree.Sent a b ∨ a = i) (hdue : q.tree.Due i b) :
    ∃ m u, Passing.pass mode (i : Int) (b : Int) q = .ok m u ∧ u.tree.frame = q.tree.frame ∧
      (∀ a w, u.tree.Sent a w ↔ q.tree.Sent a w ∨ a = i ∧ w = b) ∧
      holds u (lateAfter p.tree u.tree late i) := by
  have hbi : b ≠ i := by
    rintro rfl
    exact (hI.tracked h).wired.not_borders_self b hdue.1
  have hback : q.tree.Sent b i ↔ p.tree.Sent b i :=
    ⟨fun hs => (honly b i hs).resolve_right hbi, hkept b i⟩
  have hnew : ¬ p.tree.Sent i b := fun hs => hdue.2.1 (hkept i b hs)
  obtain ⟨m, u, hu, hframe, hsent, hholds⟩ := hI.pass h hdue
  refine ⟨m, u, hu, hframe, hsent, holds_of_late_iff hholds fun a w => ?_⟩
  rw [lateAfter, lateAfter, hsent, hback]
  constructor
  · rintro ((hl | ⟨ha, hold, hs, hs'⟩) | ⟨rfl, rfl, hs⟩)
    · exact Or.inl hl
    · exact Or.inr ⟨ha, hold, Or.inl hs, hs'⟩
    · exact Or.inr ⟨rfl, hnew, Or.inr ⟨rfl, rfl⟩, hs⟩
  · rintro (hl | ⟨ha, hold, hs | ⟨-, rfl⟩, hs'⟩)
    · exact Or.inl (Or.inl hl)
    · exact Or.inl (Or.inr ⟨ha, hold, hs, hs'⟩)
    · exact Or.inr ⟨ha, rfl, ha ▸ hs'⟩

/-- A visit sends what is due, and counts the clique as a root if everything had arrived before it
sent anything. -/
theorem Sustained.visit (h : holds p late) (hi : i < p.tree.size) (roots : List Int) :
    ∃ roots' q, Passing.visit mode roots (i : Int) p = .ok roots' q ∧
      q.tree.frame = p.tree.frame ∧ q.tree.Sent = spread p.tree.graph p.tree.Sent i ∧
      holds q (lateAfter p.tree q.tree late i) ∧
      (Gathers p.tree.graph p.tree.Sent i → roots' = addOnce roots i) ∧
      (¬ Gathers p.tree.graph p.tree.Sent i → roots' = roots) := by
  have hcoherent := (hI.tracked h).toCoherent
  have hpass : ∀ {q : Passing W L} {b : ℕ}, (holds q (lateAfter p.tree q.tree late i) ∧
      (∀ a b, p.tree.Sent a b → q.tree.Sent a b) ∧
      ∀ a b, q.tree.Sent a b → p.tree.Sent a b ∨ a = i) → q.tree.Due i b →
      Ends (fun _ => False) (fun _ u => u.tree.frame = q.tree.frame ∧
        (∀ a w, u.tree.Sent a w ↔ q.tree.Sent a w ∨ a = i ∧ w = b) ∧
        holds u (lateAfter p.tree u.tree late i) ∧
        (∀ a b, p.tree.Sent a b → u.tree.Sent a b) ∧
        ∀ a b, u.tree.Sent a b → p.tree.Sent a b ∨ a = i)
        (Passing.pass mode (i : Int) (b : Int) q) := by
    rintro q b ⟨hq, hkept, honly⟩ hdue
    obtain ⟨m, u, hu, hframe, hsent, hholds⟩ := hI.pass_of_visit hq hkept honly hdue
    rw [hu]
    refine ⟨hframe, hsent, hholds, fun a w hs => (hsent a w).2 (Or.inl (hkept a w hs)),
      fun a w hs => ?_⟩
    exact ((hsent a w).1 hs).elim (honly a w) fun hs => Or.inr hs.1
  have hstart : holds p (lateAfter p.tree p.tree late i) :=
    holds_of_late_iff h fun a b => ⟨Or.inl, fun hl => hl.elim id fun hs => absurd hs.2.2.1 hs.2.1⟩
  obtain ⟨roots', q, hq, hframe, hsent, ⟨hholds, -⟩, hyes, hno⟩ := (ends_visit hpass
    ⟨hstart, fun _ _ => id, fun _ _ => Or.inl⟩ hcoherent.orderly hi roots).exists_ok
  rw [hcoherent.gathering_iff] at hyes hno
  exact ⟨roots', q, hq, hframe, hcoherent.spread_eq hsent, hholds, hyes, hno⟩

end Visit

section Visits

variable {holds : Passing W L → (ℕ → ℕ → Prop) → Prop} (hI : Sustained mode axes holds)
  {roots : List Int} {visited : ℕ → Prop}

include hI

/-- A visit keeps what the roots stand for. -/
theorem Sustained.visit_rooted (h : holds p late) (hi : i < p.tree.size)
    (hr : Rooted p.tree late roots visited) :
    ∃ roots' q late', Passing.visit mode roots (i : Int) p = .ok roots' q ∧
      q.tree.frame = p.tree.frame ∧ q.tree.Sent = spread p.tree.graph p.tree.Sent i ∧
      holds q late' ∧ Rooted q.tree late' roots' (fun j => visited j ∨ j = i) ∧
      ∀ n, n ∈ roots' ↔ n ∈ roots ∨ n = i ∧ Gathers p.tree.graph p.tree.Sent i := by
  have htracked := hI.tracked h
  obtain ⟨roots', q, hq, hframe, hsent, hholds, hyes, hno⟩ := hI.visit h hi roots
  refine ⟨roots', q, _, hq, hframe, hsent, hholds, ?_⟩
  by_cases hgathers : Gathers p.tree.graph p.tree.Sent i
  · rw [hyes hgathers]
    refine ⟨hr.of_gathers htracked hframe hsent hi hgathers, fun n => ?_⟩
    rw [mem_addOnce]
    simp [hgathers]
  · rw [hno hgathers]
    exact ⟨hr.of_not_gathers htracked hframe hsent hgathers, fun n => by simp [hgathers]⟩

/-- A list of visits never fails, and the messages spread along it. The roots are those cliques that
gather on a visit. -/
theorem Sustained.foldlM_visit (h : holds p late) {visits : List ℕ}
    (hvisits : ∀ i ∈ visits, i < p.tree.size) (hr : Rooted p.tree late roots visited) :
    ∃ roots' q late', (visits.map Int.ofNat).foldlM (Passing.visit mode) roots p = .ok roots' q ∧
      q.tree.frame = p.tree.frame ∧ q.tree.Sent = spreadAll p.tree.graph p.tree.Sent visits ∧
      holds q late' ∧ Rooted q.tree late' roots' (fun j => visited j ∨ j ∈ visits) ∧
      ∀ n, n ∈ roots' ↔ n ∈ roots ∨
        ∃ r : ℕ, n = r ∧ GathersOnVisit p.tree.graph p.tree.Sent visits r := by
  induction visits generalizing p late roots visited with
  | nil =>
    refine ⟨roots, p, late, rfl, rfl, rfl, h, by simpa using hr, fun n => ?_⟩
    simp [gathersOnVisit_nil]
  | cons i visits ih =>
    obtain ⟨roots₁, q₁, late₁, hq₁, hframe₁, hsent₁, hholds₁, hr₁, hmem₁⟩ :=
      hI.visit_rooted h (hvisits i List.mem_cons_self) hr
    obtain ⟨roots₂, q₂, late₂, hq₂, hframe₂, hsent₂, hholds₂, hr₂, hmem₂⟩ :=
      ih hholds₁ (fun j hj => by
        rw [size_eq_of_frame_eq hframe₁]
        exact hvisits j (List.mem_cons_of_mem i hj)) hr₁
    rw [hsent₁, graph_eq_of_frame_eq hframe₁] at hsent₂ hmem₂
    refine ⟨roots₂, q₂, late₂, ?_, hframe₂.trans hframe₁, hsent₂, hholds₂, ?_, fun n => ?_⟩
    · rw [List.map_cons, List.foldlM_cons]
      exact (bind_of_ok hq₁).trans hq₂
    · simpa [or_assoc] using hr₂
    · rw [hmem₂, hmem₁, or_assoc]
      refine or_congr_right ?_
      simp only [gathersOnVisit_cons]
      constructor
      · rintro (⟨rfl, hgathers⟩ | ⟨r, hn, hgathers⟩)
        · exact ⟨i, rfl, Or.inl ⟨rfl, hgathers⟩⟩
        · exact ⟨r, hn, Or.inr hgathers⟩
      · rintro ⟨r, rfl, ⟨rfl, hgathers⟩ | hgathers⟩
        · exact Or.inl ⟨rfl, hgathers⟩
        · exact Or.inr ⟨r, rfl, hgathers⟩

/-- A run along any schedule never fails. The messages spread along the schedule and back. -/
theorem Sustained.run (h : holds ⟨{ t with phase := .inProgress }, []⟩ fun _ _ => False)
    (hopen : t.phase ≠ .extracted) (hnone : ∀ a b, ¬ t.Sent a b) {order : List ℕ}
    (horder : t.order = order.map Int.ofNat) (hvalid : ∀ i ∈ order, i < t.size) :
    ∃ roots q late, Passing.run mode ⟨t, []⟩
        = .ok roots { q with events := q.events ++ [.finished roots] } ∧
      q.tree.frame = t.frame ∧
      q.tree.Sent = spreadAll t.graph (fun _ _ => False) (order ++ order.reverse) ∧
      holds q late ∧ Rooted q.tree late roots (· ∈ order) ∧
      ∀ n, n ∈ roots ↔ ∃ r : ℕ, n = r ∧
        GathersOnVisit t.graph (fun _ _ => False) (order ++ order.reverse) r := by
  have hmem : ∀ i, i ∈ order ++ order.reverse ↔ i ∈ order := fun i => by simp
  obtain ⟨roots, q, late, hq, hframe, hsent, hholds, hrooted, hroots⟩ :=
    hI.foldlM_visit h (fun i hi => hvalid i ((hmem i).1 hi)) (Rooted.of_not_sent hnone)
  have hempty : ({ t with phase := .inProgress } : CliqueTree W L).Sent = fun _ _ => False := by
    funext a b
    exact propext ⟨hnone a b, False.elim⟩
  rw [hempty] at hsent hroots
  have hchange : PassingStep.change CliqueTree.beginPassing (⟨t, []⟩ : Passing W L)
      = .ok () ⟨{ t with phase := .inProgress }, []⟩ := by
    refine change_of_ok ?_
    rw [beginPassing, checkOpen, if_neg hopen]
    rfl
  have hlist : t.order ++ t.order.reverse = (order ++ order.reverse).map Int.ofNat := by
    rw [horder, List.map_append, List.map_reverse]
  have hperm : (ascending roots).Perm roots := arrange_perm _ roots
  refine ⟨ascending roots, q, late, ?_, hframe, hsent, hholds,
    hrooted.of_perm hperm fun hi => Or.inr ((hmem _).2 hi), fun n => ?_⟩
  · rw [Passing.run, bind_of_ok hchange]
    change ((t.order ++ t.order.reverse).foldlM (Passing.visit mode) [] >>= _) _ = _
    rw [hlist]
    exact bind_of_ok hq
  · rw [hperm.mem_iff, hroots]
    exact or_iff_right List.not_mem_nil

end Visits

variable [Semifield W] [LinearOrder W]

/-- Beginning to pass messages changes the stage and nothing else. -/
theorem Progress.begin (h : Progress mode axes t late) :
    Progress mode axes { t with phase := .inProgress } late where
  toTracked := h.toTracked.begin
  marginal_weight := h.marginal_weight
  exact_of := h.exact_of
  zero_of := h.zero_of
  forest := h.forest

variable [IsStrictOrderedRing W] [CanonicallyOrderedAdd W] [ExactScale W] [ExactLog W L]

/-- Message passing keeps all messages exact. -/
theorem Sustained.progress (mode : Mode) (hd : (axes.map Axis.name).Nodup)
    (hpos : ∀ e ∈ axes, 0 < e.card) :
    Sustained mode axes fun (p : Passing W L) late => Progress mode axes p.tree late where
  tracked h := h.toTracked
  pass := by
    intro p late a b h hdue
    obtain ⟨hadj, hnew, hall⟩ := h.toCoherent.due_iff.1 hdue
    obtain ⟨c, s, ns, m, g, hprep⟩ := h.toCoherent.exists_prepared hd hpos mode hadj hall
    exact ⟨g, _, hprep.pass_of_new hnew, hprep.frame_eq, fun u w => hprep.sent_iff,
      h.sending_prepared hd hprep hpos hadj hall hnew⟩

end CliqueTree

end ExactInference
