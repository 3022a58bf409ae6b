import ExactInference.Proofs.BestAssignments
import ExactInference.Proofs.Posteriors

/-!
# Explanations as evidence

A most probable joint state is given by labels, and labels are evidence. A label is read as the
first state that bears it. So if all nodes are observed at the labels of an explanation, then the
evidence has the weight of the joint state that the labels are read as. If no label of a node is
repeated, this is the joint state that was explained, and no joint state that agrees with the
original evidence weighs more. If a label is repeated, then it may be another one.
-/

namespace ExactInference.BeliefNetwork

open JointState

section Labels

variable {W : Type} {n : BeliefNetwork W} {name : String} {labels order : List (String × String)}
  {y : JointState}

/-- Observe one node after the other by its label. -/
def observeAll (n : BeliefNetwork W) (labels : List (String × String)) :
    Except Fault (BeliefNetwork W) :=
  labels.foldlM (fun n e => n.observe e.1 (.text e.2)) n

/-- The joint state that labels are read as: every node is in the first state that bears its label.
-/
def readAs (n : BeliefNetwork W) (labels : List (String × String)) : JointState := fun v =>
  ((OrderedMap.find v labels).map fun label => (n.labelsIn v).idxOf label).getD 0

/-- Labels that describe a joint state: there is one for every node, and it is that of its state. -/
structure Describes (n : BeliefNetwork W) (labels : List (String × String)) (y : JointState) :
    Prop where
  /-- Every node is named, once. -/
  names_perm : (labels.map Prod.fst).Perm n.nodes.keys
  /-- A node has the label of its state. -/
  label_eq : ∀ e ∈ labels, (n.labelsIn e.1)[y e.1]? = some e.2

/-- The order of the labels makes no difference. -/
theorem Describes.perm (h : n.Describes labels y) (hperm : order.Perm labels) :
    n.Describes order y where
  names_perm := (hperm.map Prod.fst).trans h.names_perm
  label_eq e he := h.label_eq e (hperm.mem_iff.1 he)

/-- A label of a node is evidence for the first state that bears it. -/
theorem observe_text_eq_ok {label : String} (hname : name ∈ n.nodes.keys)
    (hlabel : label ∈ n.labelsIn name) :
    n.observe name (.text label) = .ok { n with
      observed := n.observed.insert name ((n.labelsIn name).idxOf label : Int) } := by
  obtain ⟨node, hnode⟩ := OrderedMap.exists_get?_of_mem_keys hname
  have hlabels : n.labelsIn name = node.labels := by
    rw [labelsIn, hnode]
    rfl
  have hcheck : n.checkNode name = .ok () :=
    if_pos ((OrderedMap.contains_iff_mem_keys _ _).2 hname)
  have hread : n.labelsOf name = .ok node.labels := by rw [labelsOf, hnode]
  have hfound : node.labels.findIdx? (· == label) = some (node.labels.idxOf label) := by
    rw [hlabels] at hlabel
    exact List.findIdx?_eq_some_iff_findIdx_eq.2 ⟨List.idxOf_lt_length_of_mem hlabel, rfl⟩
  have hstate : n.stateOf name (.text label) = .ok (node.labels.idxOf label : Int) := by
    simp only [stateOf, hread, bind, Except.bind, hfound]
  rw [observe, hcheck, hstate, hlabels]
  rfl

/-- Labels of nodes are evidence for the states that they are read as. -/
theorem observeAll_eq_ok {labels : List (String × String)} {n : BeliefNetwork W}
    (h : ∀ e ∈ labels, e.1 ∈ n.nodes.keys ∧ e.2 ∈ n.labelsIn e.1) :
    n.observeAll labels = .ok { n with
      observed := n.observed.insertAll
        (labels.map fun e => (e.1, ((n.labelsIn e.1).idxOf e.2 : Int))) } := by
  induction labels generalizing n with
  | nil => rfl
  | cons e labels ih =>
    obtain ⟨hname, hlabel⟩ := h e List.mem_cons_self
    rw [observeAll, List.foldlM_cons, observe_text_eq_ok hname hlabel]
    exact ih fun d hd => h d (List.mem_cons_of_mem e hd)

/-- A label is read as the first state that bears it. -/
theorem readAs_of_mem (hnodup : (labels.map Prod.fst).Nodup) {e : String × String}
    (he : e ∈ labels) : n.readAs labels e.1 = (n.labelsIn e.1).idxOf e.2 := by
  have hfound : OrderedMap.find e.1 labels = some e.2 :=
    (OrderedMap.mem_entries_iff (m := ⟨labels⟩) hnodup).1 he
  rw [readAs, hfound]
  rfl

/-- Labels that describe a joint state can be observed, and then every node is observed in the state
that its label is read as. -/
theorem Describes.exists_observeAll (h : n.Describes labels y) (hn : n.Sound) :
    ∃ observed, n.observeAll labels = .ok { n with observed } ∧
      ∀ v ∈ n.nodes.keys, observed.get? v = some (n.readAs labels v : Int) := by
  have hnodup : (labels.map Prod.fst).Nodup := h.names_perm.nodup_iff.2 hn.keys_nodup
  have hread : (labels.map fun e => (e.1, ((n.labelsIn e.1).idxOf e.2 : Int)))
      = FactorGraph.observationOf (n.readAs labels) (labels.map Prod.fst) := by
    rw [FactorGraph.observationOf, List.map_map]
    refine List.map_congr_left fun e he => ?_
    rw [Function.comp_apply, readAs_of_mem hnodup he]
  refine ⟨_, observeAll_eq_ok fun e he => ⟨?_, ?_⟩, fun v hv => ?_⟩
  · exact h.names_perm.mem_iff.1 (List.mem_map_of_mem he)
  · exact List.mem_of_getElem? (h.label_eq e he)
  · rw [hread]
    exact OrderedMap.get?_insertAll_of_mem (h.names_perm.mem_iff.2 hv)

/-- If no label of a node is repeated, then a joint state is read off the labels that describe it.
-/
theorem Describes.readAs_eq (h : n.Describes labels y) (hn : n.Sound)
    (hdistinct : ∀ v ∈ n.nodes.keys, (n.labelsIn v).Nodup) {v : String} (hv : v ∈ n.nodes.keys) :
    n.readAs labels v = y v := by
  have hnodup : (labels.map Prod.fst).Nodup := h.names_perm.nodup_iff.2 hn.keys_nodup
  obtain ⟨e, he, rfl⟩ := List.mem_map.1 (h.names_perm.mem_iff.2 hv)
  obtain ⟨hlt, hlabel⟩ := List.getElem?_eq_some_iff.1 (h.label_eq e he)
  rw [readAs_of_mem hnodup he, ← hlabel]
  exact (hdistinct e.1 hv).idxOf_getElem _ hlt

variable [WeightScale W]

theorem Reachable.observeAll {n' : BeliefNetwork W} (hn : n.Reachable)
    (h : n.observeAll labels = .ok n') : n'.Reachable :=
  foldlM_invariant h hn fun _ _ _ _ hs hst => .observe hs hst

end Labels

variable {W L : Type} [Semifield W] [LinearOrder W] [IsStrictOrderedRing W]
  [CanonicallyOrderedAdd W] [WeightScale W] [WeightScale L] [LogConversion W L] [ExactScale W]
  [ExactLog W L] {n : BeliefNetwork W} {g : FactorGraph W L} {e : Engine} {y : JointState}
  {labels order : List (String × String)}

/-- If all nodes are observed, then the probability of the evidence is the joint weight of the
observed states. -/
theorem Reachable.answer_of_all_observed (hn : n.Reachable) (h : n.toFactorGraph true = .ok g)
    (hall : ∀ v ∈ n.nodes.keys, v ∈ n.observed.keys) :
    (n.evidenceProbability L e).answer = .ok (n.jointWeightAt n.observedState) := by
  have hgraph := hn.sound.hasGraph h
  have hfree : g.freeNames = [] := List.eq_nil_iff_forall_not_mem.2 fun v hv => by
    obtain ⟨hnode, hout⟩ := FactorGraph.mem_freeNames.1 hv
    exact hout ((hgraph.mem_conditioned v).2 (hall v ((hgraph.mem_keys v).1 hnode)))
  have haxes : g.freeAxes = [] := by rw [FactorGraph.freeAxes, hfree, List.map_nil]
  have hstate := hn.observedState_mem fun v hv => hn.cardOf_pos h hv
  have hin := ((mem_completions hn.sound.nodup_axes).1 hstate).2
  -- The observed states are the only joint state that agrees with the evidence.
  have hmass : n.massWhere (Agrees n.observed) = g.jointWeightOver [] n.observedState :=
    hn.massWhere_eq h List.nodup_nil (fun _ ha => absurd ha List.not_mem_nil) hstate
      hn.agrees_observedState fun x hx => by rw [hn.agrees_iff h hx, haxes]
  have hsingle : g.jointWeightOver [] n.observedState = g.jointWeightAt n.observedState := by
    rw [FactorGraph.jointWeightOver, ExactScale.total_eq]
    exact List.sum_singleton
  rw [hn.answer_evidenceProbability h (Or.inl hfree), hmass, hsingle,
    hn.jointWeightAt_graph h hin hn.agrees_observedState]

/-- If the labels that describe a joint state are observed, then the probability of the evidence is
the weight of the joint state that they are read as. -/
theorem Describes.answer (h : n.Describes labels y) (hn : n.Reachable)
    (hg : n.toFactorGraph true = .ok g) :
    ∃ n', n.observeAll labels = .ok n' ∧
      (n'.evidenceProbability L e).answer = .ok (n.jointWeightAt (n.readAs labels)) := by
  obtain ⟨observed, hobserve, hread⟩ := h.exists_observeAll hn.sound
  have hn' : Reachable { n with observed } := hn.observeAll hobserve
  obtain ⟨bare, hbare, -⟩ := of_toFactorGraph_true hg
  obtain ⟨g', hg'⟩ := hn'.exists_graph ((toFactorGraph_observing n observed).trans hbare)
  have hanswer := hn'.answer_of_all_observed (e := e) hg' fun v hv =>
    OrderedMap.mem_keys_of_get? (hread v hv)
  have hstate : ∀ v ∈ n.nodes.keys, observedState { n with observed } v = n.readAs labels v := by
    intro v hv
    change ((observed.get? v).map Int.toNat).getD 0 = _
    rw [hread v hv]
    exact Int.toNat_natCast _
  exact ⟨_, hobserve, hanswer.trans (congrArg Except.ok (hn.sound.jointWeightAt_congr hstate))⟩

/-- The weights of the joint states that agree with the evidence. -/
def weightsOfEvidence (n : BeliefNetwork W) : Set W :=
  {w | ∃ x, InRange n.axes x ∧ x.Agrees n.observed ∧ w = n.jointWeightAt x}

omit [Semifield W] [LinearOrder W] [IsStrictOrderedRing W] [CanonicallyOrderedAdd W] [WeightScale W]
  [ExactScale W] in
/-- The labels that are looked up in an assignment describe it. -/
theorem Sound.describes (hn : n.Sound) {a : OrderedMap String Int}
    (hstate : ∀ v ∈ n.nodes.keys, a.get? v = some (y v : Int)) (hin : InRange n.axes y)
    {found : List (Option (String × String))}
    (hfound : n.orderedNodes.mapM (labelIn a) = .ok found) :
    n.Describes (found.filterMap id) y := by
  have hlabel : ∀ d ∈ n.orderedNodes, ∃ label, labelIn a d = .ok (some (d.1, label)) ∧
      (n.labelsIn d.1)[y d.1]? = some label := by
    intro d hd
    have hnode := get?_of_mem_orderedNodes hd
    have hname := OrderedMap.mem_keys_of_get? hnode
    have hlt : y d.1 < (n.labelsIn d.1).length := by
      rw [length_labelsIn]
      exact hin ⟨d.1, n.cardOf d.1⟩ (mem_axes.2 ⟨hname, rfl⟩)
    have hlabels : n.labelsIn d.1 = d.2.labels := by
      rw [labelsIn, hnode]
      rfl
    have hlooked := List.getElem?_eq_getElem hlt
    refine ⟨_, ?_, hlooked⟩
    rw [labelIn, hstate d.1 hname, ← hlabels]
    exact bind_eq_ok_iff.2 ⟨_, elementAt_eq_ok hlooked, rfl⟩
  choose! label hfind hlooked using hlabel
  have hall : found = n.orderedNodes.map fun d => some (d.1, label d) :=
    Except.ok.inj (hfound.symm.trans (mapM_eq_ok hfind))
  have hlisted : found.filterMap id = n.orderedNodes.map fun d => (d.1, label d) := by
    rw [hall, List.filterMap_map]
    exact congrFun List.filterMap_eq_map n.orderedNodes
  rw [hlisted]
  refine ⟨?_, fun e he => ?_⟩
  · rw [List.map_map]
    exact hn.orderedNodes_perm.map Prod.fst
  · obtain ⟨d, hd, rfl⟩ := List.mem_map.1 he
    exact hlooked d hd

omit [IsStrictOrderedRing W] [CanonicallyOrderedAdd W] [ExactLog W L] in
/-- An assignment that is best for the graph of a network puts every node into one of its states,
and no joint state that agrees with the evidence weighs more. -/
theorem Reachable.of_bestFor (hn : n.Reachable) (hg : n.toFactorGraph true = .ok g)
    {a : OrderedMap String Int} (ha : MaxMarginalSet.BestFor g a) :
    (∀ v ∈ n.nodes.keys, a.get? v = some (MaxMarginalSet.stateOf a v : Int)) ∧
      InRange n.axes (MaxMarginalSet.stateOf a) ∧ (MaxMarginalSet.stateOf a).Agrees n.observed ∧
      IsGreatest n.weightsOfEvidence (n.jointWeightAt (MaxMarginalSet.stateOf a)) := by
  have hgraph := hn.sound.hasGraph hg
  have hobserved : ∀ v ∈ n.observed.keys, a.get? v = n.observed.get? v := fun v hv => by
    rw [ha.observed v fun hfree => (FactorGraph.mem_freeNames.1 hfree).2
      ((hgraph.mem_conditioned v).2 hv), hn.conditioned_eq hg]
  have hassigned : ∀ v ∈ n.nodes.keys, ∃ s : ℕ, a.get? v = some (s : Int) ∧ s < n.cardOf v := by
    intro v hv
    by_cases hin : v ∈ n.observed.keys
    · obtain ⟨i, hi⟩ := OrderedMap.exists_get?_of_mem_keys hin
      obtain ⟨hlow, hlt⟩ := hn.observed_lt hi
      refine ⟨i.toNat, ?_, (Int.toNat_lt hlow).2 hlt⟩
      rw [hobserved v hin, hi, Int.toNat_of_nonneg hlow]
    · have hfree : v ∈ g.freeNames := FactorGraph.mem_freeNames.2
        ⟨(hgraph.mem_keys v).2 hv, fun hc => hin ((hgraph.mem_conditioned v).1 hc)⟩
      obtain ⟨s, hs, hlt⟩ := ha.assigned v hfree
      exact ⟨s, hs, hgraph.stateCountOf_eq v hv ▸ hlt⟩
  have hstate : ∀ v ∈ n.nodes.keys, a.get? v = some (MaxMarginalSet.stateOf a v : Int) ∧
      MaxMarginalSet.stateOf a v < n.cardOf v := by
    intro v hv
    obtain ⟨s, hs, hlt⟩ := hassigned v hv
    have hsame : MaxMarginalSet.stateOf a v = s := by
      rw [MaxMarginalSet.stateOf, hs]
      exact Int.toNat_natCast s
    rw [hsame]
    exact ⟨hs, hlt⟩
  have hin : InRange n.axes (MaxMarginalSet.stateOf a) := fun b hb => by
    obtain ⟨hname, hcard⟩ := mem_axes.1 hb
    exact hcard ▸ (hstate b.name hname).2
  have hagrees : (MaxMarginalSet.stateOf a).Agrees n.observed := fun v hv =>
    (hobserved v hv).symm.trans (hstate v (hn.sound.observed_mem hv)).1
  refine ⟨fun v hv => (hstate v hv).1, hin, hagrees, ⟨_, hin, hagrees, rfl⟩, ?_⟩
  rintro w ⟨x, hx, hxa, rfl⟩
  rw [← hn.jointWeightAt_graph hg hx hxa, ← hn.jointWeightAt_graph hg hin hagrees]
  exact ha.best x fun b hb => hx b ((hn.mem_freeAxes hg).1 hb).1

/-- The labels of an explanation describe a joint state of largest weight among those that agree
with the evidence. -/
theorem Reachable.of_mostProbable (hn : n.Reachable)
    (h : (n.mostProbable L e).answer = .ok labels) :
    (∃ g : FactorGraph W L, n.toFactorGraph true = .ok g) ∧
      ∃ y, n.Describes labels y ∧ y.Agrees n.observed ∧
        IsGreatest n.weightsOfEvidence (n.jointWeightAt y) := by
  rw [mostProbable, Traced.answer_bind, Traced.answer_ofExcept] at h
  obtain ⟨g, hg, h⟩ := bind_eq_ok_iff.1 h
  rw [Traced.answer_bind] at h
  obtain ⟨m, hm, h⟩ := bind_eq_ok_iff.1 h
  obtain ⟨a, ha, h⟩ := bind_eq_ok_iff.1 h
  obtain ⟨found, hfound, h⟩ := bind_eq_ok_iff.1 h
  cases h
  have hgraph := hn.sound.hasGraph hg
  obtain ⟨a', ha', hbest⟩ := Engine.decodes_of_maxMarginals hgraph.reachable hm
  cases ha.symm.trans ha'
  obtain ⟨hstate, hin, hagrees, hgreatest⟩ := hn.of_bestFor hg hbest
  exact ⟨⟨g, hg⟩, _, hn.sound.describes hstate hin hfound, hagrees, hgreatest⟩

/-- An explanation can be fed back. It names every node once and gives an observed node the label
of its observed state. Its labels can be observed in any order, and then the probability of the
evidence is the weight of the joint state that the labels are read as. If no label of a node is
repeated, this is the largest weight of any joint state that agrees with the original evidence. -/
theorem explanation_feeds_back (hn : n.Reachable)
    (h : (n.mostProbable L e).answer = .ok labels) (engine : Engine) :
    (labels.map Prod.fst).Perm n.nodes.keys ∧
      (∀ v i, n.observed.get? v = some i →
        ∃ label, (v, label) ∈ labels ∧ (n.labelsIn v)[i.toNat]? = some label) ∧
      ∀ order, order.Perm labels → ∃ n', n.observeAll order = .ok n' ∧
        (n'.evidenceProbability L engine).answer = .ok (n.jointWeightAt (n.readAs order)) ∧
        ((∀ v ∈ n.nodes.keys, (n.labelsIn v).Nodup) →
          IsGreatest n.weightsOfEvidence (n.jointWeightAt (n.readAs order))) := by
  obtain ⟨⟨g, hg⟩, y, hdescribes, hagrees, hgreatest⟩ := hn.of_mostProbable h
  refine ⟨hdescribes.names_perm, fun v i hi => ?_, fun order hperm => ?_⟩
  · have hv := OrderedMap.mem_keys_of_get? hi
    have hlisted := hdescribes.names_perm.mem_iff.2 (hn.sound.observed_mem hv)
    obtain ⟨d, hd, rfl⟩ := List.mem_map.1 hlisted
    have hstate : i = (y d.1 : Int) := Option.some.inj (hi.symm.trans (hagrees d.1 hv))
    refine ⟨d.2, hd, ?_⟩
    rw [hstate, Int.toNat_natCast]
    exact hdescribes.label_eq d hd
  · have horder := hdescribes.perm hperm
    obtain ⟨n', hobserve, hanswer⟩ := horder.answer (e := engine) hn hg
    refine ⟨n', hobserve, hanswer, fun hdistinct => ?_⟩
    have hsame : n.jointWeightAt (n.readAs order) = n.jointWeightAt y :=
      hn.sound.jointWeightAt_congr fun v hv => horder.readAs_eq hn.sound hdistinct hv
    rw [hsame]
    exact hgreatest

/-- The explanation of a slippery path can be fed back. -/
theorem explanation_feeds_back_slipperyPath :
    ∃ n labels n' p, slipperyPath = .ok n ∧
      (n.mostProbable (FormalLog ℚ≥0) Engine.standard).answer = .ok labels ∧
      n.observeAll labels = .ok n' ∧
      (n'.evidenceProbability (FormalLog ℚ≥0) Engine.standard).answer = .ok p ∧
      IsGreatest n.weightsOfEvidence p := by
  obtain ⟨n, hn, hcheck⟩ := exists_of_passes (x := slipperyPath)
    (fun n => (n.mostProbable (FormalLog ℚ≥0) Engine.standard).answer.toBool &&
      decide (∀ v ∈ n.nodes.keys, (n.labelsIn v).Nodup)) (by decide +kernel)
  rw [Bool.and_eq_true, decide_eq_true_eq] at hcheck
  obtain ⟨labels, hlabels⟩ := exists_of_toBool hcheck.1
  obtain ⟨-, -, hfeed⟩ :=
    explanation_feeds_back (reachable_of_slipperyPath hn) hlabels Engine.standard
  obtain ⟨n', hobserve, hanswer, hgreatest⟩ := hfeed labels (List.Perm.refl _)
  exact ⟨n, labels, n', _, hn, hlabels, hobserve, hanswer, hgreatest hcheck.2⟩

/-- A node with two states of one label, the second of which is certain. -/
def twinStates : Except Fault (BeliefNetwork ℚ≥0) :=
  BeliefNetwork.empty.addNode "A" [2] [0, 1] [] (some ["x", "x"])

/-- Its explanation is read as the first state, so the evidence that it makes is impossible. -/
theorem misread_twinStates :
    ∃ n n', twinStates = .ok n ∧
      (n.mostProbable (FormalLog ℚ≥0) Engine.standard).answer = .ok [("A", "x")] ∧
      n.observeAll [("A", "x")] = .ok n' ∧
      (n'.evidenceProbability (FormalLog ℚ≥0) Engine.standard).answer = .ok 0 ∧
      ¬ IsGreatest n.weightsOfEvidence 0 := by
  obtain ⟨n, hn, hcheck⟩ := exists_of_passes (x := twinStates)
    (fun n =>
      passes (· = [("A", "x")]) (n.mostProbable (FormalLog ℚ≥0) Engine.standard).answer &&
      passes (fun n' => passes (· = 0)
        (n'.evidenceProbability (FormalLog ℚ≥0) Engine.standard).answer)
        (n.observeAll [("A", "x")]) &&
      decide ((∀ a ∈ n.axes, 1 < a.card) ∧ JointState.Agrees n.observed (fun _ => 1) ∧
        1 = n.jointWeightAt fun _ => 1)) (by decide +kernel)
  simp only [Bool.and_eq_true, decide_eq_true_eq] at hcheck
  obtain ⟨⟨hexplained, hobserved⟩, hin, hagrees, hone⟩ := hcheck
  obtain ⟨n', hn', hprobability⟩ := exists_of_passes _ hobserved
  obtain ⟨labels, hlabels, hsame⟩ := exists_of_passes _ hexplained
  obtain ⟨p, hp, hzero⟩ := exists_of_passes _ hprobability
  cases of_decide_eq_true hsame
  cases of_decide_eq_true hzero
  refine ⟨n, n', hn, hlabels, hn', hp, fun hgreatest => ?_⟩
  have hle : (1 : ℚ≥0) ≤ 0 := hgreatest.2 ⟨fun _ => 1, hin, hagrees, hone⟩
  exact absurd hle (by decide)

end ExactInference.BeliefNetwork
