import ExactInference.Proofs.BuiltTrees

/-!
# Messages in any order

Messages and final marginals may be asked for in any order, also where they cannot be computed. A
call that fails may have folded messages before it fails, and nothing else. So every reachable state
of a tree satisfies the invariant of message passing, where the late messages are those whose
receiver's own message had been folded into the sender when they were sent.
-/

namespace ExactInference

/-- Something that is asked of a clique tree. -/
inductive Call where
  /-- Send the message from one clique to another. -/
  | pass (a b : ℕ)
  /-- Compute the marginal of a clique. -/
  | marginal (i : ℕ)
deriving DecidableEq, Repr

/-- The state that a step leaves, whether it fails or not. -/
def stateAfter {W L α : Type} : EStateM.Result Fault (Passing W L) α → Passing W L
  | .ok _ p => p
  | .error _ p => p

namespace Call

variable {W L : Type} [WeightScale W] [WeightScale L] [LogConversion W L]

/-- The state after a call. -/
def apply (mode : Mode) (p : Passing W L) : Call → Passing W L
  | pass a b => stateAfter (Passing.pass mode (a : Int) (b : Int) p)
  | marginal i => stateAfter (Passing.computeMarginal (i : Int) p)

/-- The tree after a list of calls. -/
def treeAfter (mode : Mode) (t : CliqueTree W L) (calls : List Call) : CliqueTree W L :=
  (calls.foldl (apply mode) ⟨t, []⟩).tree

/-- A call that sends a message after the receiver's own message was folded into the sender. -/
def SendsLate (mode : Mode) (t : CliqueTree W L) (before : List Call) (call : Call) (a b : ℕ) :
    Prop :=
  call = pass a b ∧ ¬ (treeAfter mode t before).Sent a b ∧
    (treeAfter mode t (before ++ [call])).Sent a b ∧
    (b : Int) ∈ (treeAfter mode t (before ++ [call])).foldedAt a

/-- A message that was sent by such a call. -/
def Late (mode : Mode) (t : CliqueTree W L) (calls : List Call) (a b : ℕ) : Prop :=
  ∃ before call after, calls = before ++ call :: after ∧ SendsLate mode t before call a b

theorem late_concat {mode : Mode} {t : CliqueTree W L} {calls : List Call} {call : Call} {a b : ℕ} :
    Late mode t (calls ++ [call]) a b ↔
      Late mode t calls a b ∨ SendsLate mode t calls call a b := by
  constructor
  · rintro ⟨before, c, after, he, hlate⟩
    rcases List.eq_nil_or_concat after with rfl | ⟨rest, last, rfl⟩
    · obtain ⟨rfl, hc⟩ := List.append_inj' he rfl
      rw [List.cons.injEq] at hc
      exact Or.inr (hc.1 ▸ hlate)
    · have he' : calls ++ [call] = (before ++ c :: rest) ++ [last] := by simpa using he
      obtain ⟨rfl, -⟩ := List.append_inj' he' rfl
      exact Or.inl ⟨before, c, rest, rfl, hlate⟩
  · rintro (⟨before, c, after, rfl, hlate⟩ | hlate)
    · exact ⟨before, c, after ++ [call], by simp, hlate⟩
    · exact ⟨calls, call, [], rfl, hlate⟩

theorem treeAfter_concat (mode : Mode) (t : CliqueTree W L) (calls : List Call) (call : Call) :
    treeAfter mode t (calls ++ [call])
      = (apply mode (calls.foldl (apply mode) ⟨t, []⟩) call).tree := by
  rw [treeAfter, List.foldl_append]
  rfl

end Call

namespace CliqueTree

variable {W L : Type} {mode : Mode} {axes : List Axis} {p : Passing W L} {late : ℕ → ℕ → Prop}

/-- A message that a call from one tree to another sent late. -/
def NewlyLate (call : Call) (t t' : CliqueTree W L) (a b : ℕ) : Prop :=
  call = .pass a b ∧ ¬ t.Sent a b ∧ t'.Sent a b ∧ (b : Int) ∈ t'.foldedAt a

variable [Semifield W] [LinearOrder W] [WeightScale W] [WeightScale L] [LogConversion W L]

/-- A call that sends nothing makes no message late. -/
theorem Progress.of_message_eq {t t' : CliqueTree W L} (h : Progress mode axes t' late)
    (hmessage : t'.message = t.message) (call : Call) :
    Progress mode axes t' fun a b => late a b ∨ NewlyLate call t t' a b := by
  refine h.congr_late fun a b => ⟨Or.inl, fun hl => hl.elim id fun hs => ?_⟩
  obtain ⟨-, hold, hnew, -⟩ := hs
  exact absurd (by rwa [Sent, hmessage] at hnew) hold

variable [IsStrictOrderedRing W] [CanonicallyOrderedAdd W] [ExactScale W] [ExactLog W L]

section Apply

variable (h : Progress mode axes p.tree late) (hd : (axes.map Axis.name).Nodup)
  (hpos : ∀ e ∈ axes, 0 < e.card)
include h hd hpos

/-- A message that is asked for keeps the invariant. -/
theorem Progress.apply_pass (a b : ℕ) :
    ((Call.pass a b).apply mode p).tree.frame = p.tree.frame ∧
      Progress mode axes ((Call.pass a b).apply mode p).tree fun u w =>
        late u w ∨ NewlyLate (.pass a b) p.tree ((Call.pass a b).apply mode p).tree u w := by
  by_cases hadj : p.tree.graph.Adj a b
  · by_cases hall : ∀ k, p.tree.graph.Adj a k → k ≠ b → p.tree.Sent k a
    · obtain ⟨t, hframe, hmessage, hfolded, hprogress, hdone, hnew⟩ :=
        h.pass_of_arrived hd hpos hadj hall
      by_cases hsent : p.tree.Sent a b
      · rw [Call.apply, hdone hsent]
        exact ⟨hframe, hprogress.of_message_eq hmessage _⟩
      · obtain ⟨m, hpass, hsending⟩ := hnew hsent
        rw [Call.apply, hpass]
        refine ⟨(frame_sending t a b m).trans hframe, hsending.congr_late fun u w => ?_⟩
        refine or_congr_right ⟨?_, ?_⟩
        · rintro ⟨rfl, rfl, hback⟩
          have hsize : u < t.size := by
            rw [size_eq_of_frame_eq hframe]
            exact h.built.forest.lt_size hadj
          refine ⟨rfl, hsent, ?_, ?_⟩
          · simp [stateAfter, Sent, message_sending_self hsize w m]
          · simp only [stateAfter, foldedAt_sending]
            exact hfolded.2 hback
        · rintro ⟨he, -, -, hmem⟩
          cases he
          simp only [stateAfter, foldedAt_sending] at hmem
          exact ⟨rfl, rfl, hfolded.1 hmem⟩
    · push Not at hall
      obtain ⟨k, hk⟩ := h.pass_of_missing hadj hall
      rw [Call.apply, hk]
      exact ⟨rfl, h.of_message_eq rfl _⟩
  · obtain ⟨e, he⟩ := h.pass_of_not_adj hadj
    rw [Call.apply, he]
    exact ⟨rfl, h.of_message_eq rfl _⟩

omit [IsStrictOrderedRing W] [CanonicallyOrderedAdd W] hpos in
/-- A marginal that is asked for keeps the invariant. -/
theorem Progress.apply_marginal (i : ℕ) :
    ((Call.marginal i).apply mode p).tree.frame = p.tree.frame ∧
      Progress mode axes ((Call.marginal i).apply mode p).tree fun u w =>
        late u w ∨ NewlyLate (.marginal i) p.tree ((Call.marginal i).apply mode p).tree u w := by
  by_cases hi : i < p.tree.size
  · by_cases hall : ∀ k, p.tree.graph.Adj i k → p.tree.Sent k i
    · obtain ⟨t, c, hok, hframe, hmessage, -, -, hprogress⟩ :=
        h.computeMarginal_of_arrived hd hi hall
      rw [Call.apply, hok]
      exact ⟨hframe, hprogress.of_message_eq hmessage _⟩
    · push Not at hall
      obtain ⟨k, hk⟩ := h.computeMarginal_of_missing hi hall
      rw [Call.apply, hk]
      exact ⟨rfl, h.of_message_eq rfl _⟩
  · obtain ⟨e, he⟩ := computeMarginal_of_size_le (not_lt.1 hi)
    rw [Call.apply, he]
    exact ⟨rfl, h.of_message_eq rfl _⟩

/-- Every call keeps the factors and the separators, and it keeps the invariant: the messages that
are late afterwards are those that were late before, and the one that the call sent if the
receiver's own message was folded into the sender by then. -/
theorem Progress.apply (call : Call) :
    (call.apply mode p).tree.frame = p.tree.frame ∧
      Progress mode axes (call.apply mode p).tree fun a b =>
        late a b ∨ NewlyLate call p.tree (call.apply mode p).tree a b := by
  cases call with
  | pass a b => exact h.apply_pass hd hpos a b
  | marginal i => exact h.apply_marginal hd i

end Apply

/-- The invariant holds after any list of calls. -/
theorem Progress.treeAfter {t : CliqueTree W L} (h : Progress mode axes t fun _ _ => False)
    (hd : (axes.map Axis.name).Nodup) (hpos : ∀ e ∈ axes, 0 < e.card) (calls : List Call) :
    (Call.treeAfter mode t calls).frame = t.frame ∧
      Progress mode axes (Call.treeAfter mode t calls) (Call.Late mode t calls) := by
  induction calls using List.reverseRecOn with
  | nil =>
    refine ⟨rfl, h.congr_late fun a b => ⟨False.elim, ?_⟩⟩
    rintro ⟨before, call, after, he, -⟩
    simp at he
  | append_singleton calls call ih =>
    obtain ⟨hframe, hprogress⟩ := ih
    obtain ⟨hframe', hprogress'⟩ := hprogress.apply hd hpos call
    rw [← Call.treeAfter_concat] at hframe' hprogress'
    exact ⟨hframe'.trans hframe, hprogress'.congr_late fun a b => Call.late_concat.symm⟩

/-- What is promised of a tree after a list of calls. -/
structure CallsSafe (mode : Mode) (axes : List Axis) (t : CliqueTree W L) (calls : List Call) :
    Prop where
  /-- No factor and no separator has changed. -/
  frame_eq : (Call.treeAfter mode t calls).frame = t.frame
  /-- A running marginal is the clique's factor times the stored messages of the neighbors that were
  folded in, each once. -/
  marginal : ∀ {i : ℕ} {c : Clique W L}, (Call.treeAfter mode t calls).cliques[i]? = some c →
    c.folded.Nodup ∧
    (∀ n ∈ c.folded, ∃ k : ℕ, n = k ∧ t.graph.Adj i k ∧ (Call.treeAfter mode t calls).Sent k i) ∧
    c.marginal.scope = c.factor.scope ∧
    ∀ x, InRange axes x → c.marginal.weightAt x = c.factor.weightAt x
      * (c.folded.map fun n => (Call.treeAfter mode t calls).messageWeight n.toNat i x).prod
  /-- A stored message has the variables of the separator. It is the exact marginal of everything on
  the sender's side; but where the receiver's own message is zero and was folded into the sender
  before, it is zero. -/
  message : ∀ {a b : ℕ} {m : Factor W L}, (Call.treeAfter mode t calls).message a b = some m →
    (∃ s, t.separator (a : Int) (b : Int) = .ok s ∧ ∀ v, v ∈ m.names ↔ v ∈ s.shared) ∧
    ∀ x, InRange axes x →
      (¬ (Call.Late mode t calls a b ∧ (Call.treeAfter mode t calls).messageWeight b a x = 0) →
        m.weightAt x = t.sideMarginal mode axes a b x) ∧
      (Call.Late mode t calls a b ∧ (Call.treeAfter mode t calls).messageWeight b a x = 0 →
        m.weightAt x = 0)
  /-- The running marginal of a clique that has folded in all its neighbors is the exact marginal of
  the whole tree that it belongs to. -/
  complete : ∀ {i : ℕ} {c : Clique W L}, (Call.treeAfter mode t calls).cliques[i]? = some c →
    (∀ k, t.graph.Adj i k → (k : Int) ∈ c.folded) →
    ∀ x, InRange axes x → c.marginal.weightAt x = t.treeMarginal mode axes i x

/-- Message passing on the tree of a graph is safe under every order of calls. -/
theorem callsSafe_of_ofGraph {g : FactorGraph W L} (hg : FactorGraph.Reachable g) {useHint : Bool}
    {t : CliqueTree W L} (ht : (ofGraph useHint g).answer = .ok t) (mode : Mode)
    (calls : List Call) : CallsSafe mode g.freeAxes t calls := by
  have hd := hg.sound.freeNames_nodup
  have hbuilt := built_of_ofGraph hg.sound ht
  obtain ⟨hframe, hprogress⟩ := (hbuilt.progress mode).treeAfter hd hg.sound.card_pos calls
  have hgraph := graph_eq_of_frame_eq hframe
  have hsides : (Call.treeAfter mode t calls).sideMarginal mode g.freeAxes
      = t.sideMarginal mode g.freeAxes := sideMarginal_eq_of_frame_eq hframe
  have htrees : (Call.treeAfter mode t calls).treeMarginal mode g.freeAxes
      = t.treeMarginal mode g.freeAxes := treeMarginal_eq_of_frame_eq hframe
  refine ⟨hframe, fun hc => ⟨hprogress.folded_nodup hc, fun n hn => ?_,
    hprogress.marginal_scope hc, fun x hx => hprogress.marginal_weight hc hx⟩,
    fun {a b m} hm => ⟨?_, fun x hx => ?_⟩, fun hc hfolded x hx => ?_⟩
  · rw [← hgraph]
    exact hprogress.folded_sent hc hn
  · have hadj : t.graph.Adj a b := by
      rw [← hgraph]
      exact hprogress.sent_adj (by simp [Sent, hm])
    obtain ⟨s, hs, -, -, hshared⟩ := hbuilt.wellBuilt.separator_eq_ok hadj
    refine ⟨s, hs, fun v => ?_⟩
    rw [hshared, ← Factor.mem_vars, (hprogress.message_scope hm).2, scopeOf_eq_of_frame_eq hframe]
  · have hsent : (Call.treeAfter mode t calls).Sent a b := by simp [Sent, hm]
    rw [← messageWeight_eq hm, ← hsides]
    exact ⟨hprogress.exact_of hsent hx, fun hl => hprogress.zero_of hl.1 hx hl.2⟩
  · rw [← hgraph] at hfolded
    rw [← htrees]
    exact hprogress.marginal_eq_treeMarginal hd hc hfolded hx

/-- A factor over two variables with two states each. -/
def pairFactor (v w : String) (a b c d : ℕ) : Factor ℚ≥0 (FormalLog ℚ≥0) :=
  .plain (Table.ofFn
    (Scope.join ⟨[⟨v, 2⟩], List.nodup_singleton v⟩ ⟨[⟨w, 2⟩], List.nodup_singleton w⟩)
    fun x => ([a, b, c, d].getD (2 * x v + x w) 0 : ℕ))

/-- Two factors that share a variable; the second one is zero at a state of it. -/
def pairOfFactors : List (Factor ℚ≥0 (FormalLog ℚ≥0)) :=
  [pairFactor "A" "B" 1 0 2 3, pairFactor "B" "C" 0 0 7 11]

/-- The fault of a run over joined factors, if these can be joined and the run fails. -/
def faultOf (mode : Mode) (factors : List (Factor ℚ≥0 (FormalLog ℚ≥0))) (edges : List (Int × Int))
    (order : List Int) : Option Fault :=
  match ofEdges factors edges order with
  | .error _ => none
  | .ok t =>
    match Passing.run mode ⟨t, []⟩ with
    | .ok _ _ => none
    | .error fault _ => some fault

theorem exists_of_faultOf {mode : Mode} {factors : List (Factor ℚ≥0 (FormalLog ℚ≥0))}
    {edges : List (Int × Int)} {order : List Int} {fault : Fault}
    (h : faultOf mode factors edges order = some fault) :
    ∃ t p, ofEdges factors edges order = .ok t ∧ Passing.run mode ⟨t, []⟩ = .error fault p := by
  unfold faultOf at h
  split at h
  · cases h
  next t ht =>
    split at h
    · cases h
    next p hp =>
      cases h
      exact ⟨t, p, ht, hp⟩

/-- A message that answers one with a zero, after two calls that fail. -/
theorem callsSafe_pairOfFactors :
    ∃ g t, FactorGraph.ofFactors pairOfFactors = .ok g ∧ (ofGraph false g).answer = .ok t ∧
      CallsSafe .sum g.freeAxes t
        [.marginal 0, .pass 1 0, .pass 1 0, .pass 0 1, .marginal 1, .marginal 0] := by
  have hok : (FactorGraph.ofFactors pairOfFactors >>= fun g => (ofGraph false g).answer).toBool
      = true := by decide +kernel
  obtain ⟨t, hrun⟩ := exists_of_toBool hok
  obtain ⟨g, hg, ht⟩ := bind_eq_ok_iff.1 hrun
  exact ⟨g, t, hg, ht, callsSafe_of_ofGraph (.ofFactors hg) ht .sum _⟩

end CliqueTree

end ExactInference
