import ExactInference.Proofs.MarginalQueries
import ExactInference.Proofs.Networks
import ExactInference.Proofs.SplitObservations

/-!
# Networks made by any calls

A caller adds nodes, observes them and forgets observations, in any order, and goes on where a call
was refused; a refused call leaves the network as it is. The checks of a network are not those of a
graph. After any calls every table has an axis for each parent and one for the states of its node,
and every observed state is one of its node. This leaves a graph two things to complain about that a
network accepts: a node without states, and a parent that is listed twice.
-/

namespace ExactInference

variable {W L : Type}

/-- A table that a caller hands over: numbers in row-major order, one for every entry of a shape. -/
structure ShapedNumbers (W : Type) where
  /-- The lengths of the axes. -/
  shape : List ℕ
  /-- The numbers. -/
  data : List W
  /-- There are as many numbers as the shape has entries. -/
  length_eq : data.length = shape.prod

/-- A call that changes a network. -/
inductive NetworkCall (W : Type) where
  /-- Add a node with its table, its parents and its labels, if any are given. -/
  | addNode (name : String) (table : ShapedNumbers W) (parents : List String)
    (labels : Option (List String))
  /-- Observe a node. -/
  | observe (name : String) (evidence : Datum)
  /-- Forget all observations. -/
  | clearEvidence

namespace BeliefNetwork

variable {n n' : BeliefNetwork W} {g bare : FactorGraph W L} {name : String}

/-- A node whose table has an axis for each parent and one for its own states. -/
structure Fits (n : BeliefNetwork W) (name : String) (node : Node W) : Prop where
  /-- The table is not over too many names. -/
  length_le : (node.parents ++ [name]).length ≤ maxAxes
  /-- The axes have as many entries as the nodes have states. -/
  shape_eq : node.shape = (node.parents ++ [name]).map n.cardOf
  /-- There is one number for every entry. -/
  length_data : node.data.length = node.shape.prod

/-- A table is over different names if no parent is listed twice, since no node is its own parent.
-/
theorem Sound.nodup_scope_iff (hn : n.Sound) {node : Node W}
    (hnode : n.nodes.get? name = some node) :
    (node.parents ++ [name]).Nodup ↔ node.parents.Nodup := by
  have hself : name ∉ node.parents := fun hin =>
    lt_irrefl _ (hn.parents_before hnode name hin).2
  rw [List.nodup_append_comm, List.singleton_append, List.nodup_cons]
  exact and_iff_right hself

/-- Other nodes keep their number of states when a node is added. -/
theorem cardOf_insert_of_ne {v : String} (hv : v ≠ name) (node : Node W) :
    cardOf { n with nodes := n.nodes.insert name node } v = n.cardOf v := by
  rw [cardOf, cardOf, OrderedMap.get?_insert_of_ne _ hv]

theorem cardOf_insert_self (node : Node W) :
    cardOf { n with nodes := n.nodes.insert name node } name = node.labels.length := by
  rw [cardOf, OrderedMap.get?_insert_self]
  rfl

/-- A table fits as long as the nodes that it is over keep their numbers of states. -/
theorem Fits.of_cards {node : Node W} (h : n.Fits name node)
    (hcards : ∀ v ∈ node.parents ++ [name], n'.cardOf v = n.cardOf v) : n'.Fits name node where
  length_le := h.length_le
  shape_eq := h.shape_eq.trans (List.map_congr_left fun v hv => (hcards v hv).symm)
  length_data := h.length_data

/-- A table that is added fits. -/
theorem fits_of_insert {table : ShapedNumbers W} {parents states : List String}
    (hnew : name ∉ n.nodes.keys) (hparents : ∀ p ∈ parents, p ∈ n.nodes.keys)
    (haxes : table.shape.length ≤ maxAxes)
    (hshape : table.shape = parents.map n.cardOf ++ [states.length]) :
    Fits { n with nodes := n.nodes.insert name ⟨parents, states, table.shape, table.data⟩ } name
      ⟨parents, states, table.shape, table.data⟩ := by
  have hkept : ∀ p ∈ parents, p ≠ name := fun p hp he => hnew (he ▸ hparents p hp)
  refine ⟨?_, ?_, table.length_eq⟩
  · rw [hshape, List.length_append, List.length_map] at haxes
    rwa [List.length_append]
  · rw [hshape, List.map_append, List.map_singleton, cardOf_insert_self]
    exact congrArg (· ++ _) (List.map_congr_left fun p hp =>
      (cardOf_insert_of_ne (hkept p hp) _).symm)

/-- Whether every node has a state and lists every parent once. -/
def Usable (n : BeliefNetwork W) : Prop :=
  ∀ {name node}, n.nodes.get? name = some node → node.labels ≠ [] ∧ node.parents.Nodup

/-- The faults for nodes that a graph refuses: a node without states, and a node with a parent that
is listed twice. -/
def Refuses (n : BeliefNetwork W) (fault : Fault) : Prop :=
  ∃ name node, n.nodes.get? name = some node ∧
    (node.labels = [] ∧ fault = .noStates name ∨
      ¬ node.parents.Nodup ∧ fault = .repeatedNames (node.parents ++ [name]))

/-- A usable network has no node that is refused. -/
theorem Usable.not_refuses (h : n.Usable) {fault : Fault} : ¬ n.Refuses fault := by
  rintro ⟨name, node, hnode, ⟨hnone, -⟩ | ⟨hrepeated, -⟩⟩
  · exact (h hnode).1 hnone
  · exact hrepeated (h hnode).2

theorem get?_of_mem_orderedNodes {e : String × Node W} (he : e ∈ n.orderedNodes) :
    n.nodes.get? e.1 = some e.2 := by
  obtain ⟨v, -, hv⟩ := List.mem_filterMap.1 he
  obtain ⟨node, hnode, rfl⟩ := Option.map_eq_some_iff.1 hv
  exact hnode

theorem Sound.nodup_orderedNodes (hn : n.Sound) : (n.orderedNodes.map Prod.fst).Nodup :=
  (hn.orderedNodes_perm.map Prod.fst).nodup_iff.2 hn.keys_nodup

/-- Declaring the nodes stops at a node without states. -/
theorem Sound.yields_declare (hn : n.Sound) :
    Yields n.Refuses (fun _ => ∀ e ∈ n.orderedNodes, e.2.labels ≠ [])
      (n.orderedNodes.foldlM (fun g e => g.addVariable e.1 (.labels e.2.labels))
        (FactorGraph.empty : FactorGraph W L)) := by
  -- The nodes that are done are the variables that are declared, so the next node is a new one.
  refine (Yields.foldlM_done (P := fun done (s : FactorGraph W L) =>
    s.states.keys = done.map Prod.fst ∧ ∀ e ∈ done, e.2.labels ≠ [])
    (fun done e rest hes s hs => ?_) ⟨rfl, by simp⟩).imp (fun _ h => h) fun _ h => h.2
  have hnode := get?_of_mem_orderedNodes (hes ▸ List.mem_append_right done List.mem_cons_self)
  have hnew : e.1 ∉ s.states.keys := by
    have hnodup := hn.nodup_orderedNodes
    rw [hes, List.map_append, List.map_cons] at hnodup
    rw [hs.1]
    exact fun hin => (List.nodup_append.1 hnodup).2.2 e.1 hin e.1 List.mem_cons_self rfl
  have hfree : ¬ s.states.contains e.1 = true := fun hin =>
    hnew ((OrderedMap.contains_iff_mem_keys _ _).1 hin)
  rw [FactorGraph.addVariable, if_neg hfree, StateList.toLabels]
  by_cases hnone : e.2.labels = []
  · rw [if_pos (List.isEmpty_iff.2 hnone)]
    exact ⟨e.1, e.2, hnode, Or.inl ⟨hnone, rfl⟩⟩
  · rw [if_neg fun he => hnone (List.isEmpty_iff.1 he)]
    refine ⟨?_, List.forall_mem_append.2 ⟨hs.2, List.forall_mem_singleton.2 hnone⟩⟩
    rw [OrderedMap.keys_insert, if_neg hnew, hs.1, List.map_append]
    rfl

/-- A table that fits makes a factor over its names, unless one of them is repeated. -/
theorem Fits.yields_factorOf {node : Node W} (h : n.Fits name node) :
    Yields (fun fault => ¬ (node.parents ++ [name]).Nodup ∧
        fault = .repeatedNames (node.parents ++ [name]))
      (fun f : Factor W L => (node.parents ++ [name]).Nodup ∧
        f.scope.axes = (node.parents ++ [name]).map fun v => ⟨v, n.cardOf v⟩)
      (n.factorOf name node) := by
  have hfew : ¬ maxAxes < node.shape.length := by
    rw [h.shape_eq, List.length_map]
    exact not_lt.2 h.length_le
  have hcards : node.shape.map Int.ofNat
      = (node.parents ++ [name]).map fun v => (n.cardOf v : Int) := by
    rw [h.shape_eq, List.map_map]
    rfl
  rw [factorOf, Table.ofData, if_neg hfew, if_neg (not_not.2 (List.length_map _).symm)]
  by_cases hnodup : (node.parents ++ [name]).Nodup
  · obtain ⟨scope, hscope, haxes⟩ := Scope.ofNames?_eq_ok hnodup n.cardOf
    rw [← h.shape_eq] at hscope
    have hsize : node.data.toArray.size = scope.size := by
      rw [List.size_toArray, h.length_data, h.shape_eq, Scope.size, haxes, stateCount_eq_prod,
        List.map_map]
      rfl
    rw [if_neg (not_not.2 hnodup), if_neg (not_not.2 hcards), hscope]
    exact .of_eq_ok (congrArg (Functor.map Factor.plain) (dif_pos hsize)) ⟨hnodup, haxes⟩
  · rw [if_pos hnodup]
    exact ⟨hnodup, rfl⟩

end BeliefNetwork

variable [WeightScale W]

namespace NetworkCall

/-- What a call makes of a network, or why it is refused. -/
def run (n : BeliefNetwork W) : NetworkCall W → Except Fault (BeliefNetwork W)
  | addNode name table parents labels => n.addNode name table.shape table.data parents labels
  | observe name evidence => n.observe name evidence
  | clearEvidence => .ok n.clearEvidence

/-- The network after a call; one that is refused leaves the network as it is. -/
def apply (n : BeliefNetwork W) (call : NetworkCall W) : BeliefNetwork W :=
  match call.run n with
  | .ok n' => n'
  | .error _ => n

end NetworkCall

namespace BeliefNetwork

/-- The network after some calls, beginning without nodes. -/
def networkAfter (calls : List (NetworkCall W)) : BeliefNetwork W :=
  calls.foldl NetworkCall.apply empty

variable {n n' : BeliefNetwork W} {g bare : FactorGraph W L} {name : String}

/-- A network that can be made, all of whose tables fit. -/
structure Fitted (n : BeliefNetwork W) : Prop where
  /-- The network can be made by accepted steps. -/
  reachable : n.Reachable
  /-- All tables fit. -/
  fits : ∀ {name node}, n.nodes.get? name = some node → n.Fits name node

/-- A call that is accepted keeps all tables as they are, and a table that is added fits. -/
theorem Fitted.run (hn : n.Fitted) {call : NetworkCall W} (h : call.run n = .ok n') :
    n'.Fitted := by
  cases call with
  | addNode name table parents labels =>
    refine ⟨.addNode hn.reachable h, fun {v node} hv => ?_⟩
    obtain ⟨states, hnew, hparents, haxes, hshape, rfl⟩ := exists_states_of_addNode h
    by_cases hvn : v = name
    · subst hvn
      rw [OrderedMap.get?_insert_self] at hv
      cases hv
      exact fits_of_insert hnew hparents haxes hshape
    · rw [OrderedMap.get?_insert_of_ne _ hvn] at hv
      have hscope := hn.reachable.sound.scope_subset hv
      exact (hn.fits hv).of_cards fun p hp =>
        cardOf_insert_of_ne (fun he : p = name => hnew (he ▸ hscope p hp)) _
  | observe name evidence =>
    refine ⟨.observe hn.reachable h, fun {v node} hv => ?_⟩
    obtain ⟨-, i, -, rfl⟩ := of_observe h
    exact (hn.fits hv).of_cards fun _ _ => rfl
  | clearEvidence =>
    cases h
    exact ⟨.clearEvidence hn.reachable, fun hv => (hn.fits hv).of_cards fun _ _ => rfl⟩

/-- A call that is refused changes nothing, so a network stays fitted. -/
theorem Fitted.apply (hn : n.Fitted) (call : NetworkCall W) : (call.apply n).Fitted := by
  unfold NetworkCall.apply
  cases h : call.run n with
  | ok n' => exact hn.run h
  | error _ => exact hn

/-- So do any calls. -/
theorem fitted_networkAfter (calls : List (NetworkCall W)) : (networkAfter calls).Fitted := by
  induction calls using List.reverseRecOn with
  | nil => exact ⟨.empty, fun h => by cases h⟩
  | append_singleton calls call ih =>
    rw [networkAfter, List.foldl_append]
    exact ih.apply call

/-- Adding the factors of all nodes stops at a node with a parent that is listed twice. -/
theorem Fitted.yields_addFactors (hn : n.Fitted) {s : FactorGraph W L}
    (hs : ∀ v ∈ n.nodes.keys, ⟨v, n.cardOf v⟩ ∈ s.freeAxes) :
    Yields n.Refuses (fun _ => ∀ e ∈ n.orderedNodes, e.2.parents.Nodup)
      (n.orderedNodes.foldlM (fun g e => do g.addFactor (← n.factorOf e.1 e.2)) s) := by
  refine (Yields.foldlM_done (P := fun done (s : FactorGraph W L) =>
    (∀ v ∈ n.nodes.keys, ⟨v, n.cardOf v⟩ ∈ s.freeAxes) ∧ ∀ e ∈ done, e.2.parents.Nodup)
    (fun done e rest hes s hs => ?_) ⟨hs, by simp⟩).imp (fun _ h => h) fun _ h => h.2
  have hnode := get?_of_mem_orderedNodes (hes ▸ List.mem_append_right done List.mem_cons_self)
  have hscope := hn.reachable.sound.nodup_scope_iff hnode
  refine ((hn.fits hnode).yields_factorOf.imp (fun fault hfault => ?_) fun f hf => hf).bind
    fun f hf => ?_
  · exact ⟨e.1, e.2, hnode, Or.inr ⟨fun hin => hfault.1 (hscope.2 hin), hfault.2⟩⟩
  · have hwithin : f.scope.Within s.freeAxes := fun a ha => by
      rw [hf.2] at ha
      obtain ⟨v, hv, rfl⟩ := List.mem_map.1 ha
      exact hs.1 v (hn.reachable.sound.scope_subset hnode v hv)
    exact .of_eq_ok (FactorGraph.addFactor_eq_ok hwithin)
      ⟨hs.1, List.forall_mem_append.2 ⟨hs.2, List.forall_mem_singleton.2 (hscope.1 hf.1)⟩⟩

variable [WeightScale L]

/-- The graph of the tables is made if the network is usable, and else a node is refused. -/
theorem Fitted.yields_bare (hn : n.Fitted) :
    Yields n.Refuses (fun _ => n.Usable)
      (n.toFactorGraph false : Except Fault (FactorGraph W L)) := by
  have hsound := hn.reachable.sound
  have hlisted : ∀ {v node}, n.nodes.get? v = some node → (v, node) ∈ n.orderedNodes :=
    fun hnode => hsound.orderedNodes_perm.mem_iff.2
      ((OrderedMap.mem_entries_iff hsound.keys_nodup).2 hnode)
  rw [toFactorGraph]
  cases hdeclared : n.orderedNodes.foldlM (fun g e => g.addVariable e.1 (.labels e.2.labels))
      (FactorGraph.empty : FactorGraph W L) with
  | error fault => exact hsound.yields_declare.fault_of_eq_error hdeclared
  | ok declared =>
    have hlabels := hsound.yields_declare.answer_of_eq_ok hdeclared
    obtain ⟨-, hnone, -, hkeys, hcount⟩ := hsound.declared_spec hdeclared
    have hfree : ∀ v ∈ n.nodes.keys, ⟨v, n.cardOf v⟩ ∈ declared.freeAxes := fun v hv => by
      refine FactorGraph.mem_freeAxes.2 ⟨FactorGraph.mem_freeNames.2 ⟨(hkeys v).2 hv, ?_⟩,
        (hcount v hv).symm⟩
      rw [hnone]
      exact List.not_mem_nil
    refine (hn.yields_addFactors hfree).bind fun g hparents => ?_
    exact fun hnode => ⟨hlabels _ (hlisted hnode), hparents _ (hlisted hnode)⟩

variable [LogConversion W L]

/-- The graph of the tables can be conditioned on the evidence. -/
theorem Reachable.exists_graph (hn : n.Reachable) (hbare : n.toFactorGraph false = .ok bare) :
    ∃ g : FactorGraph W L, n.toFactorGraph true = .ok g := by
  have hgraph := hn.clearEvidence.sound.hasGraph (toFactorGraph_clearEvidence.trans hbare)
  rw [toFactorGraph_true, hbare]
  by_cases hnone : n.observed.isEmpty = true
  · exact ⟨bare, if_pos hnone⟩
  · have hadmits : bare.Admits n.observed := by
      intro e he
      have hobserved := (OrderedMap.mem_entries_iff hn.observed_nodup).1 he
      have hnode := hn.sound.observed_mem (OrderedMap.mem_keys_of_get? hobserved)
      obtain ⟨hlow, hlt⟩ := hn.observed_lt hobserved
      refine ⟨FactorGraph.mem_freeNames.2 ⟨(hgraph.mem_keys e.1).2 hnode, fun hin => ?_⟩,
        e.2.toNat, ?_, ?_⟩
      · exact List.not_mem_nil ((hgraph.mem_conditioned e.1).1 hin)
      · rw [Int.toNat_of_nonneg hlow]
        rfl
      · rw [hgraph.stateCountOf_eq e.1 hnode]
        exact (Int.toNat_lt hlow).2 hlt
    obtain ⟨g, hg⟩ := (hgraph.reachable.sound.conditional_eq_ok_iff hn.observed_nodup).2 hadmits
    exact ⟨g, (if_neg hnone).trans hg⟩

/-- So the same networks have a graph with evidence and without it. -/
theorem Fitted.yields_graph (hn : n.Fitted) (withEvidence : Bool) :
    Yields n.Refuses (fun _ => n.Usable)
      (n.toFactorGraph withEvidence : Except Fault (FactorGraph W L)) := by
  have hyields := hn.yields_bare (L := L)
  cases withEvidence with
  | false => exact hyields
  | true =>
    cases hbare : (n.toFactorGraph false : Except Fault (FactorGraph W L)) with
    | ok bare =>
      obtain ⟨g, hg⟩ := hn.reachable.exists_graph hbare
      exact .of_eq_ok hg (hyields.answer_of_eq_ok hbare)
    | error fault =>
      rw [toFactorGraph_true, hbare]
      exact hyields.fault_of_eq_error hbare

/-- After any calls, accepted or refused, the graph of the network is made exactly if every node has
a state and lists every parent once, with the evidence and without it. If it is not made, then the
fault is that of a node which has no state or lists a parent twice. -/
theorem graph_of_networkAfter (calls : List (NetworkCall W)) (withEvidence : Bool) :
    ((∃ g : FactorGraph W L, (networkAfter calls).toFactorGraph withEvidence = .ok g) ↔
        (networkAfter calls).Usable) ∧
      ∀ fault, ((networkAfter calls).toFactorGraph withEvidence : Except Fault (FactorGraph W L))
        = .error fault → (networkAfter calls).Refuses fault := by
  have hyields := (fitted_networkAfter calls).yields_graph (L := L) withEvidence
  refine ⟨⟨?_, fun husable => ?_⟩, fun fault => hyields.fault_of_eq_error⟩
  · rintro ⟨g, hg⟩
    exact hyields.answer_of_eq_ok hg
  · cases hgraph : ((networkAfter calls).toFactorGraph withEvidence :
        Except Fault (FactorGraph W L)) with
    | ok g => exact ⟨g, rfl⟩
    | error fault => exact (husable.not_refuses (hyields.fault_of_eq_error hgraph)).elim

/-- A node of which a parent is listed twice, with a table that has an axis for each of them. -/
def twiceParented : List (NetworkCall ℚ≥0) :=
  [.addNode "A" ⟨[2], [1, 0], rfl⟩ [] none,
    .addNode "B" ⟨[2, 2, 2], [1, 0, 0, 1, 0, 1, 1, 0], rfl⟩ ["A", "A"] none]

/-- A node without states, with a table that has no entries. -/
def stateless : List (NetworkCall ℚ≥0) := [.addNode "A" ⟨[0], [], rfl⟩ [] none]

/-- Both are accepted by a network and refused by its graph. -/
theorem accepted_unusable :
    ((networkAfter twiceParented).nodes.keys = ["A", "B"] ∧
      failsWith (.repeatedNames ["A", "A", "B"]) ((networkAfter twiceParented).toFactorGraph false :
        Except Fault (FactorGraph ℚ≥0 (FormalLog ℚ≥0))) = true) ∧
    (networkAfter stateless).nodes.keys = ["A"] ∧
      failsWith (.noStates "A") ((networkAfter stateless).toFactorGraph false :
        Except Fault (FactorGraph ℚ≥0 (FormalLog ℚ≥0))) = true := by
  decide +kernel

end BeliefNetwork

end ExactInference
