import ExactInference.Proofs.Posteriors

/-!
# The probability of evidence

If the rows of all tables sum to one, then all joint weights add up to one: a node has no child
among the nodes that arrived before it, so the nodes can be summed out in the opposite order of
their arrival. The probability of the evidence is the weight of the joint states that agree with
the evidence, whatever the order in which a clique tree adds these up. So it obeys the laws of
probability.
-/

namespace ExactInference

variable {W L : Type}

namespace BeliefNetwork

open JointState

variable {n : BeliefNetwork W} {g bare : FactorGraph W L} {e : Engine} {name : String}
  {node : Node W}

/-- A node is none of the nodes before it. -/
theorem Sound.notMem_before (hn : n.Sound) {es rest : List (String × Node W)}
    {d : String × Node W} (h : n.nodes.entries = es ++ d :: rest) : d.1 ∉ es.map Prod.fst := by
  have hkeys : (es.map Prod.fst ++ d.1 :: rest.map Prod.fst).Nodup := by
    rw [← List.map_cons, ← List.map_append, ← h]
    exact hn.keys_nodup
  exact fun hin => (List.nodup_append.1 hkeys).2.2 d.1 hin d.1 List.mem_cons_self rfl

/-- The parents of a node are among the nodes before it. -/
theorem Sound.parents_subset (hn : n.Sound) {es rest : List (String × Node W)}
    {d : String × Node W} (h : n.nodes.entries = es ++ d :: rest) :
    ∀ p ∈ d.2.parents, p ∈ es.map Prod.fst := by
  intro p hp
  have hkeys : n.nodes.keys = es.map Prod.fst ++ d.1 :: rest.map Prod.fst := by
    rw [OrderedMap.keys, h, List.map_append, List.map_cons]
  have hd : n.nodes.get? d.1 = some d.2 :=
    (OrderedMap.mem_entries_iff hn.keys_nodup).1 (h ▸ List.mem_append_right es List.mem_cons_self)
  obtain ⟨-, hlt⟩ := hn.parents_before hd p hp
  by_contra hout
  rw [hkeys, List.idxOf_append_of_notMem hout, List.idxOf_append_of_notMem (hn.notMem_before h),
    List.idxOf_cons_self] at hlt
  omega

variable [Semifield W]

/-- Whether every row of every table sums to one: whatever states the parents have, the entries at
the states of the node add up to one. -/
def RowsSumToOne (n : BeliefNetwork W) : Prop :=
  ∀ e ∈ n.nodes.entries,
    ∀ x ∈ completions (e.2.parents.map fun p => ⟨p, n.cardOf p⟩) origin,
      ((List.range (n.cardOf e.1)).map fun s => n.entryAt e.1 e.2 (x.set e.1 s)).sum = 1

instance [LinearOrder W] (n : BeliefNetwork W) : Decidable n.RowsSumToOne := by
  unfold RowsSumToOne
  infer_instance

/-- A row sums to one at every joint state. -/
theorem RowsSumToOne.sum_eq_one (hrows : n.RowsSumToOne) (hnode : (name, node) ∈ n.nodes.entries)
    (hnodup : (node.parents ++ [name]).Nodup) {y : JointState}
    (hy : ∀ p ∈ node.parents, y p < n.cardOf p) :
    ((List.range (n.cardOf name)).map fun s => n.entryAt name node (y.set name s)).sum = 1 := by
  let x : JointState := fun v => if v ∈ node.parents then y v else 0
  have hnames : (node.parents.map fun p => (⟨p, n.cardOf p⟩ : Axis)).map Axis.name
      = node.parents := by
    rw [List.map_map]
    exact List.map_id _
  have hx : x ∈ completions (node.parents.map fun p => ⟨p, n.cardOf p⟩) origin := by
    refine (mem_completions ?_).2 ⟨fun v hv => ?_, fun a ha => ?_⟩
    · rw [hnames]
      exact (List.nodup_append.1 hnodup).1
    · rw [hnames] at hv
      exact if_neg hv
    · obtain ⟨p, hp, rfl⟩ := List.mem_map.1 ha
      rw [show x p = y p from if_pos hp]
      exact hy p hp
  rw [← hrows _ hnode x hx]
  refine congrArg List.sum (List.map_congr_left fun s _ => entryAt_congr fun v hv => ?_)
  rcases List.mem_append.1 hv with hv | hv
  · have hne : v ≠ name := fun he =>
      (List.nodup_append.1 hnodup).2.2 v hv name (List.mem_singleton_self name) he
    rw [set_of_ne _ hne, set_of_ne _ hne]
    exact (if_pos hv).symm
  · rw [List.mem_singleton.1 hv, set_self, set_self]

/-- If parents stand before their children, then the product does not depend on the states of nodes
that are not listed. -/
theorem Sound.productOver_set (hn : n.Sound) {es rest : List (String × Node W)}
    (h : n.nodes.entries = es ++ rest) (hname : name ∉ es.map Prod.fst) (x : JointState) (s : ℕ) :
    n.productOver es (x.set name s) = n.productOver es x := by
  refine congrArg List.prod (List.map_congr_left fun d hd => entryAt_congr fun v hv => ?_)
  obtain ⟨before, after, rfl⟩ := List.append_of_mem hd
  have hv : v ∈ (before ++ d :: after).map Prod.fst := by
    rcases List.mem_append.1 hv with hv | hv
    · rw [List.append_assoc, List.cons_append] at h
      rw [List.map_append]
      exact List.mem_append_left _ (hn.parents_subset h v hv)
    · rw [List.mem_singleton.1 hv]
      exact List.mem_map_of_mem hd
  exact set_of_ne _ (fun he : v = name => hname (he ▸ hv)) s

variable [LinearOrder W]

section Totals

variable [CanonicallyOrderedAdd W]

/-- The entries of the first nodes have the total one, since the last of these nodes has no child
among them and is summed out first. -/
theorem Sound.total_productOver (hn : n.Sound) (hrows : n.RowsSumToOne)
    (hnodup : ∀ d ∈ n.nodes.entries, (d.2.parents ++ [d.1]).Nodup)
    {es rest : List (String × Node W)} (h : n.nodes.entries = es ++ rest) :
    Mode.sum.along (es.map fun d => ⟨d.1, n.cardOf d.1⟩) (n.productOver es) origin = 1 := by
  induction es using List.reverseRecOn generalizing rest with
  | nil => exact congrFun (Mode.along_nil .sum _) origin
  | append_singleton es d ih =>
    rw [List.append_assoc, List.singleton_append] at h
    have hd : d ∈ n.nodes.entries := h ▸ List.mem_append_right es List.mem_cons_self
    have haxes : ((es.map fun d => (⟨d.1, n.cardOf d.1⟩ : Axis)).map Axis.name).Nodup := by
      have hall : ((es ++ d :: rest).map Prod.fst).Nodup := h ▸ hn.keys_nodup
      rw [List.map_append] at hall
      rw [List.map_map]
      exact (List.nodup_append.1 hall).1
    rw [← ih h, List.map_append, List.map_singleton, Mode.along_append]
    refine congrArg Mode.sum.collect (List.map_congr_left fun y hy => ?_)
    have hparents : ∀ p ∈ d.2.parents, y p < n.cardOf p := fun p hp => by
      obtain ⟨c, hc, rfl⟩ := List.mem_map.1 (hn.parents_subset h p hp)
      exact ((mem_completions haxes).1 hy).2 ⟨c.1, n.cardOf c.1⟩ (List.mem_map_of_mem hc)
    calc Mode.sum.along [⟨d.1, n.cardOf d.1⟩] (n.productOver (es ++ [d])) y
        = ((List.range (n.cardOf d.1)).map fun s =>
            n.productOver (es ++ [d]) (y.set d.1 s)).sum := by
          rw [Mode.along, completions_singleton, List.map_map]
          rfl
      _ = ((List.range (n.cardOf d.1)).map fun s =>
            n.productOver es y * n.entryAt d.1 d.2 (y.set d.1 s)).sum := by
          refine congrArg List.sum (List.map_congr_left fun s _ => ?_)
          rw [← hn.productOver_set h (hn.notMem_before h) y s, productOver, List.map_append,
            List.prod_append]
          simp [productOver]
      _ = n.productOver es y := by
          rw [List.sum_map_mul_left, hrows.sum_eq_one hd (hnodup d hd) hparents, mul_one]

/-- All joint weights add up to one. -/
theorem Sound.massWhere_eq_one (hn : n.Sound) (hrows : n.RowsSumToOne)
    (hnodup : ∀ d ∈ n.nodes.entries, (d.2.parents ++ [d.1]).Nodup) {p : JointState → Prop}
    [DecidablePred p] (hp : ∀ x, p x) : n.massWhere p = 1 := by
  have hall : (completions n.axes origin).filter (fun x => p x) = completions n.axes origin :=
    List.filter_eq_self.2 fun x _ => by simpa using hp x
  have haxes : n.axes = n.nodes.entries.map fun d => ⟨d.1, n.cardOf d.1⟩ := by
    rw [axes, OrderedMap.keys, List.map_map]
    rfl
  rw [massWhere, hall, haxes]
  exact hn.total_productOver hrows hnodup (List.append_nil _).symm

end Totals

variable [WeightScale W] [WeightScale L] [LogConversion W L] [ExactScale W]

/-- Nodes whose factors can be made have different parents, and are not their own parents. -/
theorem nodup_of_addFactors {es : List (String × Node W)} {s t : FactorGraph W L}
    (h : es.foldlM (fun g e => do g.addFactor (← n.factorOf e.1 e.2)) s = .ok t) :
    ∀ d ∈ es, (d.2.parents ++ [d.1]).Nodup := by
  induction es generalizing s with
  | nil => simp
  | cons d es ih =>
    rw [List.foldlM_cons] at h
    obtain ⟨u, hu, h⟩ := bind_eq_ok_iff.1 h
    obtain ⟨f, hf, -⟩ := bind_eq_ok_iff.1 hu
    exact List.forall_mem_cons.2 ⟨(of_factorOf hf).1, ih h⟩

theorem Sound.nodup_parents (hn : n.Sound)
    (h : (n.toFactorGraph false : Except Fault (FactorGraph W L)) = .ok bare) :
    ∀ d ∈ n.nodes.entries, (d.2.parents ++ [d.1]).Nodup := fun d hd => by
  obtain ⟨declared, -, h⟩ := bind_eq_ok_iff.1 h
  obtain ⟨g, hg, -⟩ := bind_eq_ok_iff.1 h
  exact nodup_of_addFactors hg d (hn.orderedNodes_perm.mem_iff.2 hd)

variable (L) in
/-- The laws that the probability of the evidence of a network is to obey. -/
structure ProbabilityLaws (e : Engine) (n : BeliefNetwork W) : Prop where
  /-- It is given, and it is between zero and one. -/
  between : ∃ p, (n.evidenceProbability L e).answer = .ok p ∧ 0 ≤ p ∧ p ≤ 1
  /-- It is one if nothing is observed. -/
  of_no_evidence : n.observed.keys = [] → (n.evidenceProbability L e).answer = .ok 1
  /-- It does not grow if one more node is observed. -/
  antitone : ∀ {name evidence n'}, name ∉ n.observed.keys → n.observe name evidence = .ok n' →
    ∃ p p', (n.evidenceProbability L e).answer = .ok p ∧
      (n'.evidenceProbability L e).answer = .ok p' ∧ p' ≤ p
  /-- It is the sum over all states of an unobserved node of the probabilities of the evidence
  together with the state. -/
  sum_states : ∀ name ∈ n.nodes.keys, name ∉ n.observed.keys → ∃ ps : List W,
    List.Forall₂ (fun s p' => ∃ n', n.observe name (.whole (s : ℕ)) = .ok n' ∧
      (n'.evidenceProbability L e).answer = .ok p') (List.range (n.cardOf name)) ps ∧
    (n.evidenceProbability L e).answer = .ok ps.sum

section Laws

variable [IsStrictOrderedRing W] [CanonicallyOrderedAdd W] [ExactLog W L] (hn : n.Reachable)
  (hbare : (n.toFactorGraph false : Except Fault (FactorGraph W L)) = .ok bare)
  (hequipped : e.Equipped bare)
include hn hbare hequipped

/-- An engine that is equipped for the graph of the tables gives the probability of any evidence. -/
theorem Reachable.answer_of_bare :
    (n.evidenceProbability L e).answer = .ok (n.massWhere (Agrees n.observed)) := by
  obtain ⟨g, hg⟩ := hn.exists_graph hbare
  exact hn.answer_evidenceProbability hg (hn.equipped_graph hbare hequipped hg)

/-- So it does with one observation more. -/
theorem Reachable.answer_observe {s : ℕ} (hname : name ∈ n.nodes.keys)
    (hnew : name ∉ n.observed.keys) (hs : s < n.cardOf name) :
    (evidenceProbability L e { n with observed := n.observed.insert name (s : Int) }).answer
      = .ok (n.massWhere fun x => Agrees n.observed x ∧ x name = s) := by
  rw [← massWhere_insert hnew]
  exact (Reachable.observe hn (observe_eq_ok hname hs)).answer_of_bare
    ((toFactorGraph_observing n _).trans hbare) hequipped

theorem Reachable.probabilityLaws (hrows : n.RowsSumToOne) : n.ProbabilityLaws L e := by
  have hanswer := hn.answer_of_bare hbare hequipped
  have hnodup := hn.sound.nodup_parents hbare
  constructor
  case between =>
    refine ⟨_, hanswer, zero_le, ?_⟩
    rw [← hn.sound.massWhere_eq_one hrows hnodup (p := fun _ => True) fun _ => trivial]
    exact massWhere_mono fun _ _ => trivial
  case of_no_evidence =>
    intro hnone
    have hall : ∀ x, Agrees n.observed x := fun x v hv => by
      rw [hnone] at hv
      exact absurd hv List.not_mem_nil
    rw [hanswer, hn.sound.massWhere_eq_one hrows hnodup hall]
  case antitone =>
    intro name evidence n' hnew hobserve
    obtain ⟨hname, i, ⟨hlow, hlt⟩, rfl⟩ := of_observe hobserve
    obtain ⟨s, rfl⟩ := Int.eq_ofNat_of_zero_le hlow
    exact ⟨_, _, hanswer, hn.answer_observe hbare hequipped hname hnew (by exact_mod_cast hlt),
      massWhere_mono fun x hx => hx.1⟩
  case sum_states =>
    intro name hname hnew
    obtain ⟨g, hg⟩ := hn.exists_graph hbare
    have hgraph := hn.sound.hasGraph hg
    refine ⟨(List.range (n.cardOf name)).map fun s =>
      n.massWhere fun x => Agrees n.observed x ∧ x name = s, ?_, ?_⟩
    · refine List.forall₂_map_right_iff.2 (List.forall₂_same.2 fun s hs => ?_)
      have hs := List.mem_range.1 hs
      exact ⟨_, observe_eq_ok hname hs, hn.answer_observe hbare hequipped hname hnew hs⟩
    · rw [hanswer, ← hn.partitionFunction_eq hg,
        ← hgraph.reachable.sum_stateWeight ((hgraph.mem_keys name).2 hname),
        hgraph.stateCountOf_eq name hname]
      refine congrArg Except.ok (congrArg List.sum (List.map_congr_left fun s hs => ?_))
      exact hn.stateWeight_eq hg hname (List.mem_range.1 hs)

end Laws

end BeliefNetwork

open BeliefNetwork

variable [Semifield W] [LinearOrder W] [IsStrictOrderedRing W] [CanonicallyOrderedAdd W]
  [WeightScale W] [WeightScale L] [LogConversion W L] [ExactScale W] [ExactLog W L]

/-- If the rows of all tables sum to one and the scopes of the tables have a clique tree, then the
probability of the evidence obeys the laws of probability, whatever is observed: it is one without
evidence, it never leaves the unit interval, it does not grow with the evidence, and it is the sum
over the states of any unobserved node. -/
theorem evidence_obeys_laws {n : BeliefNetwork W} {bare : FactorGraph W L} {e : Engine}
    (hn : n.Reachable) (hrows : n.RowsSumToOne) (hbare : n.toFactorGraph false = .ok bare)
    (htree : n.nodes.keys ≠ [] → ∃ t, (CliqueTree.ofGraph e.useHint bare).answer = .ok t) :
    n.ProbabilityLaws L e := by
  obtain ⟨hsound, hhint, hfree, -⟩ := hn.of_bare hbare
  refine hn.probabilityLaws hbare ?_ hrows
  by_cases hnone : n.nodes.keys = []
  · refine Or.inl (List.eq_nil_iff_forall_not_mem.2 fun v hv => ?_)
    rw [hfree, hnone] at hv
    exact List.not_mem_nil hv
  · obtain ⟨t, ht⟩ := htree hnone
    exact .of_ofGraph hsound (fun _ => hhint) ht

/-- The evidence of a slippery path obeys the laws. -/
theorem evidence_obeys_laws_slipperyPath :
    ∃ n, slipperyPath = .ok n ∧ n.ProbabilityLaws (FormalLog ℚ≥0) Engine.standard := by
  obtain ⟨n, hn, hcheck⟩ := exists_of_passes (x := slipperyPath)
    (fun n => decide n.RowsSumToOne && (do
      let bare ← (n.toFactorGraph false : Except Fault (FactorGraph ℚ≥0 (FormalLog ℚ≥0)))
      (CliqueTree.ofGraph Engine.standard.useHint bare).answer).toBool) (by decide +kernel)
  rw [Bool.and_eq_true, decide_eq_true_eq] at hcheck
  obtain ⟨t, ht⟩ := exists_of_toBool hcheck.2
  obtain ⟨bare, hbare, ht⟩ := bind_eq_ok_iff.1 ht
  exact ⟨n, hn, evidence_obeys_laws (reachable_of_slipperyPath hn) hcheck.1 hbare
    fun _ => ⟨t, ht⟩⟩

end ExactInference
