import ExactInference.CliqueTree.Extraction
import ExactInference.Proofs.Expressions

/-!
# Trees that agree

Two clique trees agree if they have the same separators, schedule and stage, and if their factors,
marginals and messages agree place by place. No step of message passing tells them apart: it reports
the same, is refused with the same fault or ends in agreeing answers, and leaves trees that agree
again. So the marginals that are taken out in the end agree as well.
-/

namespace ExactInference

variable {W L : Type} [WeightScale W] [WeightScale L] [LogConversion W L]

/-- Two cliques with the same neighbors, whose factors agree. -/
structure Clique.Agrees (c d : Clique W L) : Prop where
  /-- The factors that they were made from agree. -/
  factor : c.factor.Agrees d.factor
  /-- The marginals agree. -/
  marginal : c.marginal.Agrees d.marginal
  /-- The same messages were folded in. -/
  folded_eq : c.folded = d.folded
  /-- They have the same separators. -/
  separators_eq : c.separators = d.separators
  /-- The messages that they have sent agree. -/
  messages : c.messages.Related Factor.Agrees d.messages

/-- Two trees whose cliques agree. -/
structure CliqueTree.Agrees (t u : CliqueTree W L) : Prop where
  /-- The cliques agree in every place. -/
  cliques : List.Forall₂ Clique.Agrees t.cliques u.cliques
  /-- They have the same schedule. -/
  order_eq : t.order = u.order
  /-- They are in the same stage. -/
  phase_eq : t.phase = u.phase

theorem Clique.Agrees.neighbors_eq {c d : Clique W L} (h : c.Agrees d) :
    c.neighbors = d.neighbors := by
  rw [neighbors, neighbors, h.separators_eq]

theorem Clique.Agrees.unfolded_eq {c d : Clique W L} (h : c.Agrees d) :
    c.unfolded = d.unfolded := by
  rw [unfolded, unfolded, h.folded_eq, h.neighbors_eq]

namespace CliqueTree

namespace Agrees

variable {t u : CliqueTree W L} (h : t.Agrees u)
include h

theorem size_eq : t.size = u.size := h.cliques.length_eq

theorem edges_eq : t.edges = u.edges := by
  unfold edges
  rw [List.flatMap_def, List.flatMap_def]
  refine congrArg List.flatten (map_eq_of_forall₂ (fun hde => ?_) (forall₂_zipIdx h.cliques 0))
  rw [hde.1.neighbors_eq, hde.2]

theorem components_eq : t.components = u.components := by
  rw [components, components, h.size_eq, h.edges_eq]

theorem tracebackOrder_eq (roots : List Int) : t.tracebackOrder roots = u.tracebackOrder roots := by
  have hadjacent : t.adjacent = u.adjacent := funext fun i => by rw [adjacent, adjacent, h.edges_eq]
  rw [tracebackOrder, tracebackOrder, h.components_eq, h.size_eq, hadjacent]

theorem cliqueAt (i : Int) : Parallel Clique.Agrees (t.cliqueAt i) (u.cliqueAt i) :=
  parallel_elementAt h.cliques i

theorem modifyAt (i : Int) {f g : Clique W L → Clique W L}
    (hfg : ∀ c d, c.Agrees d → (f c).Agrees (g d)) :
    Parallel Agrees (t.modifyAt i f) (u.modifyAt i g) := by
  unfold CliqueTree.modifyAt
  rw [h.cliques.length_eq]
  refine (Parallel.of_eq rfl).bind ?_
  rintro place _ rfl
  exact ⟨forall₂_modify hfg h.cliques place, h.order_eq, h.phase_eq⟩

theorem separator (a b : Int) : Parallel Eq (t.separator a b) (u.separator a b) := by
  refine (h.cliqueAt a).bind fun c d hcd => ?_
  rw [hcd.separators_eq]
  exact .of_eq rfl

theorem message? (a b : Int) :
    Parallel (Option.Rel Factor.Agrees) (t.message? a b) (u.message? a b) :=
  (h.cliqueAt a).bind fun _ _ hcd => hcd.messages.get? b

theorem inbound (i : Int) :
    Parallel (OrderedMap.Related (Option.Rel Factor.Agrees)) (t.inbound i) (u.inbound i) := by
  refine (h.cliqueAt i).bind fun c d hcd => ?_
  rw [hcd.neighbors_eq, hcd.separators_eq]
  -- neighbors without a separator leave no entry, so the entries are related as options
  refine (Parallel.mapM_same
    (S := Option.Rel fun e e' => e.1 = e'.1 ∧ Option.Rel Factor.Agrees e.2 e'.2) fun n => ?_).bind
    fun es es' he => OrderedMap.related_ofList (List.rel_filterMap (fun _ _ he => he) he)
  refine (h.message? n i).bind fun m m' hm => ?_
  cases d.separators.get? n with
  | none => exact Option.Rel.none
  | some s => exact Option.Rel.some ⟨rfl, hm⟩

theorem sentBy (i : Int) : Parallel Eq (t.sentBy i) (u.sentBy i) :=
  (h.cliqueAt i).bind fun _ _ hcd => hcd.messages.keys_eq

theorem checkOpen_eq : t.checkOpen = u.checkOpen := by
  rw [checkOpen, checkOpen, h.phase_eq]

theorem beginPassing : Parallel Agrees t.beginPassing u.beginPassing :=
  (Parallel.of_eq h.checkOpen_eq).bind fun _ _ _ => ⟨h.cliques, h.order_eq, rfl⟩

theorem markExtracted : Parallel Agrees t.markExtracted u.markExtracted :=
  (Parallel.of_eq h.checkOpen_eq).bind fun _ _ _ => ⟨h.cliques, h.order_eq, rfl⟩

theorem addMessage (a b : Int) {m n : Factor W L} (hmn : m.Agrees n) :
    Parallel Agrees (t.addMessage a b m) (u.addMessage a b n) := by
  refine (Parallel.of_eq h.checkOpen_eq).bind fun _ _ _ => (h.cliqueAt a).bind fun c d hcd => ?_
  rw [hcd.messages.contains_eq]
  split
  · rfl
  · exact h.modifyAt a fun c d hcd => { hcd with messages := hcd.messages.insert b hmn }

variable [Semifield W] [LinearOrder W] [ExactScale W] [ExactLog W L]

theorem fold (i : Int) (neighbors : List Int) :
    Parallel (fun a b => a.1.Agrees b.1 ∧ a.2.Agrees b.2) (t.fold i neighbors)
      (u.fold i neighbors) := by
  refine (Parallel.of_eq h.checkOpen_eq).bind fun _ _ _ => (h.cliqueAt i).bind fun c d hcd => ?_
  refine (Parallel.mapM_same (S := Factor.Agrees) fun n => ?_).bind fun ms ms' hms => ?_
  · refine (h.message? n i).bind fun m m' hm => ?_
    cases hm with
    | none => rfl
    | some hm => exact hm
  · have hempty : ms.isEmpty = ms'.isEmpty := by cases hms <;> rfl
    rw [hempty]
    split
    · exact ⟨h, hcd.marginal⟩
    · refine (hcd.marginal.productAll hms).bind fun m m' hm => ?_
      refine (h.modifyAt i fun c d hcd => ?_).bind fun t u htu => ⟨htu, hm⟩
      exact { hcd with marginal := hm, folded_eq := by rw [hcd.folded_eq] }

theorem computeMarginal (i : Int) :
    Parallel (fun a b => a.1.Agrees b.1 ∧ a.2.Agrees b.2) (t.computeMarginal i)
      (u.computeMarginal i) :=
  (h.cliqueAt i).bind fun _ _ hcd => hcd.unfolded_eq ▸ h.fold i _

/-- An edge is entered alike. -/
theorem join (e : Int × Int) : Parallel Agrees (t.join e) (u.join e) := by
  refine (h.cliqueAt e.1).bind fun c c' hc => (h.cliqueAt e.2).bind fun d d' hd => ?_
  rw [hc.factor.names_eq, hd.factor.names_eq]
  refine (h.modifyAt e.1 fun c d hcd => ?_).bind fun t u htu => htu.modifyAt e.2 fun c d hcd => ?_
  · exact { hcd with separators_eq := by rw [hcd.separators_eq] }
  · exact { hcd with separators_eq := by rw [hcd.separators_eq] }

end Agrees

variable [Semifield W] [LinearOrder W] [ExactScale W] [ExactLog W L]

/-- Trees over factors that agree are built alike. -/
theorem parallel_ofEdges {fs gs : List (Factor W L)} (h : List.Forall₂ Factor.Agrees fs gs)
    (edges : List (Int × Int)) (order : List Int) :
    Parallel Agrees (ofEdges fs edges order) (ofEdges gs edges order) := by
  have hcliques : List.Forall₂ Clique.Agrees (fs.map Clique.ofFactor) (gs.map Clique.ofFactor) :=
    List.rel_map (fun _ _ hfg => ⟨hfg, hfg, rfl, rfl, OrderedMap.related_empty⟩) h
  exact Parallel.foldlM_same (fun h => h.join) ⟨hcliques, rfl, rfl⟩

end CliqueTree

namespace PassingStep

variable {α β γ δ : Type} {R : α → β → Prop} {S : γ → δ → Prop}

/-- Two states of message passing whose trees agree, after the same events. -/
structure Agrees (p q : Passing W L) : Prop where
  /-- The trees agree. -/
  tree : p.tree.Agrees q.tree
  /-- The same events were reported. -/
  events_eq : p.events = q.events

/-- Two results are related answers or the same fault, in states that agree. -/
def Alike (R : α → β → Prop) :
    EStateM.Result Fault (Passing W L) α → EStateM.Result Fault (Passing W L) β → Prop
  | .ok a p, .ok b q => R a b ∧ Agrees p q
  | .error e p, .error e' q => e = e' ∧ Agrees p q
  | _, _ => False

/-- Two steps end alike from any states that agree. -/
def InStep (R : α → β → Prop) (x : PassingStep W L α) (y : PassingStep W L β) : Prop :=
  ∀ p q, Agrees p q → Alike R (x p) (y q)

theorem InStep.pure {a : α} {b : β} (h : R a b) :
    InStep R (pure a : PassingStep W L α) (pure b) := fun _ _ hpq => ⟨h, hpq⟩

theorem InStep.bind {x : PassingStep W L α} {y : PassingStep W L β} {f : α → PassingStep W L γ}
    {g : β → PassingStep W L δ} (h : InStep R x y) (hfg : ∀ a b, R a b → InStep S (f a) (g b)) :
    InStep S (x >>= f) (y >>= g) := by
  intro p q hpq
  have hxy := h p q hpq
  cases hx : x p <;> cases hy : y q <;> rw [hx, hy] at hxy
  · rw [bind_of_ok hx, bind_of_ok hy]
    exact hfg _ _ hxy.1 _ _ hxy.2
  · exact hxy.elim
  · exact hxy.elim
  · rw [bind_of_error hx, bind_of_error hy]
    exact hxy

theorem InStep.mapM {xs : List α} {f : α → PassingStep W L γ} {g : α → PassingStep W L δ}
    (hfg : ∀ a, InStep S (f a) (g a)) : InStep (List.Forall₂ S) (xs.mapM f) (xs.mapM g) := by
  induction xs with
  | nil => exact .pure .nil
  | cons x xs ih =>
    rw [List.mapM_cons, List.mapM_cons]
    exact (hfg x).bind fun a b hab => ih.bind fun as bs habs => .pure (.cons hab habs)

theorem InStep.foldlM {xs : List α} {f : γ → α → PassingStep W L γ}
    {g : δ → α → PassingStep W L δ} (hfg : ∀ {s t}, S s t → ∀ a, InStep S (f s a) (g t a)) {s : γ}
    {t : δ} (hst : S s t) : InStep S (xs.foldlM f s) (xs.foldlM g t) := by
  induction xs generalizing s t with
  | nil => exact .pure hst
  | cons x xs ih =>
    rw [List.foldlM_cons, List.foldlM_cons]
    exact (hfg hst x).bind fun s t hst => ih hst

/-- A list of steps without answers. -/
theorem InStep.forM {xs : List α} {f g : α → PassingStep W L Unit}
    (hfg : ∀ a, InStep Eq (f a) (g a)) : InStep Eq (xs.forM f) (xs.forM g) := by
  induction xs with
  | nil => exact .pure rfl
  | cons x xs ih => exact (hfg x).bind fun _ _ _ => ih

/-- What is read from states that agree are these states. -/
theorem inStep_get : InStep Agrees (get : PassingStep W L (Passing W L)) get :=
  fun _ _ hpq => ⟨hpq, hpq⟩

theorem inStep_report (e : Event) : InStep Eq (report e : PassingStep W L Unit) (report e) :=
  fun _ _ hpq => ⟨rfl, hpq.tree, congrArg (· ++ [e]) hpq.events_eq⟩

theorem inStep_inspect {f : CliqueTree W L → Except Fault α} {g : CliqueTree W L → Except Fault β}
    (h : ∀ t u, t.Agrees u → Parallel R (f t) (g u)) : InStep R (inspect f) (inspect g) := by
  intro p q hpq
  have hfg := h _ _ hpq.tree
  cases hf : f p.tree <;> cases hg : g q.tree <;> rw [hf, hg] at hfg
  · rw [inspect_of_error hf, inspect_of_error hg]
    exact ⟨hfg, hpq⟩
  · exact hfg.elim
  · exact hfg.elim
  · rw [inspect_of_ok hf, inspect_of_ok hg]
    exact ⟨hfg, hpq⟩

theorem inStep_change {f g : CliqueTree W L → Except Fault (CliqueTree W L)}
    (h : ∀ t u, t.Agrees u → Parallel CliqueTree.Agrees (f t) (g u)) :
    InStep Eq (change f) (change g) :=
  (inStep_inspect h).bind fun _ _ htu _ _ hpq => ⟨rfl, htu, hpq.events_eq⟩

theorem inStep_changing {f : CliqueTree W L → Except Fault (CliqueTree W L × α)}
    {g : CliqueTree W L → Except Fault (CliqueTree W L × β)}
    (h : ∀ t u, t.Agrees u → Parallel (fun a b => a.1.Agrees b.1 ∧ R a.2 b.2) (f t) (g u)) :
    InStep R (changing f) (changing g) :=
  (inStep_inspect h).bind fun _ _ hab _ _ hpq => ⟨hab.2, hab.1, hpq.events_eq⟩

end PassingStep

namespace Passing

open PassingStep

variable [Semifield W] [LinearOrder W] [ExactScale W] [ExactLog W L] {t u : CliqueTree W L}

theorem parallel_eliminate (mode : Mode) {f g : Factor W L} (h : f.Agrees g)
    (names : List String) :
    Parallel Factor.Agrees (eliminate mode f names) (eliminate mode g names) := by
  cases mode with
  | sum => exact h.marginalize names
  | max => exact h.maxMarginalize names

omit [Semifield W] [LinearOrder W] [ExactScale W] [ExactLog W L] in
theorem parallel_pending (h : t.Agrees u) (a b : Int) :
    Parallel Eq (pending t a b) (pending u a b) := by
  refine (h.cliqueAt a).bind fun c d hcd => (h.message? b a).bind fun m m' hm => ?_
  rw [hcd.unfolded_eq]
  cases hm <;> rfl

theorem parallel_messageFrom (mode : Mode) (h : t.Agrees u) (s : Separator) (a b : Int)
    {m n : Factor W L} (hmn : m.Agrees n) :
    Parallel Factor.Agrees (messageFrom mode t s a b m) (messageFrom mode u s a b n) := by
  unfold messageFrom
  rw [hmn.names_eq]
  refine (parallel_eliminate mode hmn _).bind fun m n hmn => ?_
  refine (h.cliqueAt a).bind fun c d hcd => ?_
  rw [hcd.folded_eq]
  split
  · refine (h.message? b a).bind fun r r' hr => ?_
    cases hr with
    | none => rfl
    | some hr => exact hmn.product hr.invert
  · exact hmn

/-- Agreeing trees send agreeing messages. -/
theorem inStep_pass (mode : Mode) (a b : Int) :
    InStep Factor.Agrees (pass mode a b : PassingStep W L _) (pass mode a b) := by
  refine (inStep_report _).bind fun _ _ _ => ?_
  refine (inStep_inspect fun t u h => h.separator a b).bind ?_
  rintro s _ rfl
  refine (inStep_changing (R := Factor.Agrees) fun t u h => ?_).bind fun m n hmn => ?_
  · refine (parallel_pending h a b).bind ?_
    rintro ns _ rfl
    exact h.fold a ns
  · refine (inStep_inspect fun t u h => parallel_messageFrom mode h s a b hmn).bind
      fun m n hmn => ?_
    exact (inStep_change fun t u h => h.addMessage a b hmn).bind fun _ _ _ => .pure hmn

omit [Semifield W] [LinearOrder W] [ExactScale W] [ExactLog W L] in
/-- What can be sent depends on what has arrived, and not on the messages themselves. -/
theorem computableOutbound_eq {es es' : List (Separator × Option (Factor W L))}
    (h : List.Forall₂ (fun e e' => e.1 = e'.1 ∧ Option.Rel Factor.Agrees e.2 e'.2) es es') :
    computableOutbound es = computableOutbound es' := by
  have hmissing := List.rel_filter (p := fun e => e.2.isNone) (q := fun e => e.2.isNone)
    (fun e e' he => by
      simp only [← Option.not_isSome, Bool.not_eq_true', isSome_eq_of_rel he.2]) h
  -- none, one or more messages are missing, in both lists
  unfold computableOutbound
  generalize es.filter _ = ms, es'.filter _ = ms' at hmissing
  cases hmissing with
  | nil => exact map_eq_of_forall₂ (fun he => he.1) h
  | cons he hrest => cases hrest with
    | nil => exact congrArg (fun s => [s]) he.1
    | cons _ _ => rfl

/-- Agreeing trees are visited alike, with the same roots. -/
theorem inStep_visit (mode : Mode) (roots : List Int) (i : Int) :
    InStep Eq (visit mode roots i : PassingStep W L _) (visit mode roots i) := by
  refine (inStep_inspect fun t u h => h.inbound i).bind fun inbound inbound' hin => ?_
  refine (inStep_inspect fun t u h => h.sentBy i).bind ?_
  rintro sent _ rfl
  -- a root is told by which messages have arrived and which were sent, not by their weights
  have harrived : inbound.values.map Option.isSome = inbound'.values.map Option.isSome :=
    map_eq_of_forall₂ isSome_eq_of_rel hin.values
  have hall : inbound.values.all Option.isSome = inbound'.values.all Option.isSome := by
    simpa [List.all_map] using congrArg (List.all · id) harrived
  rw [computableOutbound_eq hin, hall]
  refine (InStep.forM fun s => (inStep_pass mode _ _).bind fun _ _ _ => .pure rfl).bind
    fun _ _ _ => ?_
  split
  · exact .pure rfl
  · exact .pure rfl

/-- So are they along a whole run. -/
theorem inStep_run (mode : Mode) : InStep Eq (run mode : PassingStep W L _) (run mode) := by
  refine (inStep_change fun t u h => h.beginPassing).bind fun _ _ _ => ?_
  refine inStep_get.bind fun p q hpq => ?_
  rw [hpq.tree.order_eq]
  refine (InStep.foldlM (S := Eq) ?_ rfl).bind ?_
  · rintro roots _ rfl i
    exact inStep_visit mode roots i
  · rintro roots _ rfl
    exact (inStep_report _).bind fun _ _ _ => .pure rfl

theorem inStep_takeMarginals :
    InStep (List.Forall₂ Factor.Agrees) (takeMarginals : PassingStep W L _) takeMarginals := by
  refine inStep_get.bind fun p q hpq => ?_
  rw [hpq.tree.size_eq]
  refine (InStep.mapM (S := Factor.Agrees) fun i => ?_).bind fun ms ns hmn => ?_
  · exact inStep_changing fun t u h => h.computeMarginal i
  · exact (inStep_change fun t u h => h.markExtracted).bind fun _ _ _ => .pure hmn

variable {ms ns : List (Factor W L)}

theorem parallel_logTotalOf (h : List.Forall₂ Factor.Agrees ms ns) (roots : List Int) :
    Parallel Eq (logTotalOf ms roots : Except Fault L) (logTotalOf ns roots) := by
  refine Parallel.foldlM_same ?_ rfl
  rintro sum _ rfl root
  refine (parallel_elementAt h root).bind fun m n hmn => ?_
  rw [hmn.totalLogWeight_eq]
  exact .of_eq rfl

theorem parallel_rescaleComponent (logTotal : L) (roots : List Int)
    (h : List.Forall₂ Factor.Agrees ms ns) (component : List Nat) :
    Parallel (List.Forall₂ Factor.Agrees) (rescaleComponent logTotal roots ms component)
      (rescaleComponent logTotal roots ns component) := by
  unfold rescaleComponent
  cases CliqueTree.rootIn? roots component with
  | none => rfl
  | some root =>
    refine (parallel_elementAt h (root : Int)).bind fun m n hmn => ?_
    refine (Parallel.of_eq hmn.totalLogWeight_eq).bind ?_
    rintro own _ rfl
    refine Parallel.foldlM_same (fun {ms ns} hmn i => ?_) h
    refine (parallel_elementAt hmn (i : Int)).bind fun m n h => ?_
    exact (h.scaleLog _).bind fun m n h => forall₂_set hmn h i

end Passing

/-- Two sets of marginals with the same total, whose factors agree. -/
structure MarginalSet.Agrees (m n : MarginalSet W L) : Prop where
  /-- The marginals agree. -/
  factors : List.Forall₂ Factor.Agrees m.factors n.factors
  /-- The totals are the same. -/
  logTotal_eq : m.logTotal = n.logTotal
  /-- The same was observed. -/
  conditioned_eq : m.conditioned = n.conditioned
  /-- The observed variables have the same numbers of states. -/
  cards_eq : m.cards = n.cards
  /-- They have states. -/
  cards_pos : ∀ {v : String} {c : Int}, m.cards.get? v = some c → 0 < c

/-- Two sets of max-marginals that are decoded in the same order, whose factors agree. -/
structure MaxMarginalSet.Agrees (m n : MaxMarginalSet W L) : Prop where
  /-- The max-marginals agree. -/
  factors : List.Forall₂ Factor.Agrees m.factors n.factors
  /-- The same was observed. -/
  conditioned_eq : m.conditioned = n.conditioned
  /-- They are decoded in the same order. -/
  order_eq : m.order = n.order

namespace Passing

open PassingStep

variable [Semifield W] [LinearOrder W] [ExactScale W] [ExactLog W L] {ms ns : List (Factor W L)}
  {t u : CliqueTree W L}

theorem parallel_assemble (h : t.Agrees u) (hmn : List.Forall₂ Factor.Agrees ms ns)
    (given : List Int) (conditioned : OrderedMap String Int) {cards : OrderedMap String Int}
    (hcards : ∀ {v c}, cards.get? v = some c → 0 < c) :
    Parallel MarginalSet.Agrees (assemble t ms given conditioned cards)
      (assemble u ns given conditioned cards) := by
  unfold assemble
  rw [h.components_eq]
  dsimp only
  split
  · rfl
  · refine (parallel_logTotalOf hmn _).bind ?_
    rintro logTotal _ rfl
    -- from here on the branches compare the common total, and not the marginals
    split
    · rfl
    · split
      · refine (Parallel.foldlM_same (fun h => ?_) hmn).bind fun ms ns hmn =>
          ⟨hmn, rfl, rfl, rfl, hcards⟩
        exact parallel_rescaleComponent logTotal _ h
      · exact ⟨hmn, rfl, rfl, rfl, hcards⟩

/-- Agreeing trees have agreeing marginals. -/
theorem inStep_extractMarginals (roots : List Int) (conditioned : OrderedMap String Int)
    {cards : OrderedMap String Int} (hcards : ∀ {v c}, cards.get? v = some c → 0 < c) :
    InStep MarginalSet.Agrees (extractMarginals roots conditioned cards : PassingStep W L _)
      (extractMarginals roots conditioned cards) :=
  inStep_takeMarginals.bind fun _ _ hmn =>
    inStep_inspect fun _ _ h => parallel_assemble h hmn roots conditioned hcards

/-- They have agreeing max-marginals, which are decoded in the same order. -/
theorem inStep_extractMaxMarginals (roots : List Int) (conditioned : OrderedMap String Int) :
    InStep MaxMarginalSet.Agrees (extractMaxMarginals roots conditioned : PassingStep W L _)
      (extractMaxMarginals roots conditioned) :=
  inStep_takeMarginals.bind fun _ _ hmn =>
    inStep_inspect fun _ _ h => ⟨hmn, rfl, by rw [h.tracebackOrder_eq]⟩

end Passing

end ExactInference
