import ExactInference.BeliefNetwork
import ExactInference.Proofs.ReachableGraphs

/-!
# Networks and their graphs

The parents of a node are there when it is added, so no node is its own ancestor. Therefore a queue
that takes a node when its last parent has been taken comes to every node, once. The factor graph of
a network declares just these nodes, and observes those of them that have evidence.
-/

namespace ExactInference.BeliefNetwork

variable {W : Type} {n n' : BeliefNetwork W} {name : String}

/-- A network whose nodes arrived after their parents. -/
structure Sound (n : BeliefNetwork W) : Prop where
  /-- Nodes have different names. -/
  keys_nodup : n.nodes.keys.Nodup
  /-- Every parent is a node that arrived earlier. -/
  parents_before : ∀ {name node}, n.nodes.get? name = some node → ∀ p ∈ node.parents,
    p ∈ n.nodes.keys ∧ n.nodes.keys.idxOf p < n.nodes.keys.idxOf name
  /-- Only nodes are observed. -/
  observed_mem : ∀ {name}, name ∈ n.observed.keys → name ∈ n.nodes.keys

/-- The names that a table is over are nodes. -/
theorem Sound.scope_subset (hn : n.Sound) {node : Node W} (hnode : n.nodes.get? name = some node) :
    ∀ v ∈ node.parents ++ [name], v ∈ n.nodes.keys := by
  intro v hv
  rcases List.mem_append.1 hv with hv | hv
  · exact (hn.parents_before hnode v hv).1
  · exact List.mem_singleton.1 hv ▸ OrderedMap.mem_keys_of_get? hnode

/-- Evidence is read as one of the states of a node. -/
theorem of_stateOf {evidence : Datum} {i : Int} (h : n.stateOf name evidence = .ok i) :
    0 ≤ i ∧ i < n.cardOf name := by
  obtain ⟨labels, hlabels, h⟩ := bind_eq_ok_iff.1 h
  have hcard : n.cardOf name = labels.length := by
    unfold labelsOf at hlabels
    split at hlabels
    next node hnode =>
      cases hlabels
      rw [cardOf, hnode]
      rfl
    next => cases hlabels
  rw [hcard]
  cases evidence with
  | whole k =>
    obtain ⟨j, -, h⟩ := bind_eq_ok_iff.1 h
    split at h
    next hin =>
      cases h
      exact hin
    next => cases h
  | truth b =>
    obtain ⟨j, -, h⟩ := bind_eq_ok_iff.1 h
    split at h
    next hin =>
      cases h
      exact hin
    next => cases h
  | text label =>
    cases hfound : labels.findIdx? (· == label) with
    | none => simp [hfound] at h
    | some j =>
      obtain ⟨hlt, -⟩ := List.findIdx?_eq_some_iff_getElem.1 hfound
      simp only [hfound, Except.ok.injEq] at h
      omega
  | real _ | absent | several _ | mapping _ => cases h

/-- Only a node passes. -/
theorem of_checkNode (h : n.checkNode name = .ok ()) : name ∈ n.nodes.keys := by
  unfold checkNode at h
  split at h
  next hin => exact (OrderedMap.contains_iff_mem_keys _ _).1 hin
  next => cases h

/-- Only a node is observed, and in one of its states. -/
theorem of_observe {evidence : Datum} (h : n.observe name evidence = .ok n') :
    name ∈ n.nodes.keys ∧ ∃ i : Int, (0 ≤ i ∧ i < n.cardOf name) ∧
      n' = { n with observed := n.observed.insert name i } := by
  obtain ⟨⟨⟩, hnode, h⟩ := bind_eq_ok_iff.1 h
  obtain ⟨i, hi, h⟩ := bind_eq_ok_iff.1 h
  cases h
  exact ⟨of_checkNode hnode, i, of_stateOf hi, rfl⟩

/-- Any state of a node can be observed. -/
theorem observe_eq_ok {s : ℕ} (hname : name ∈ n.nodes.keys) (hs : s < n.cardOf name) :
    n.observe name (.whole s) = .ok { n with observed := n.observed.insert name (s : Int) } := by
  obtain ⟨node, hnode⟩ := OrderedMap.exists_get?_of_mem_keys hname
  have hcheck : n.checkNode name = .ok () :=
    if_pos ((OrderedMap.contains_iff_mem_keys _ _).2 hname)
  have hlabels : n.labelsOf name = .ok node.labels := by rw [labelsOf, hnode]
  have hlt : (0 : Int) ≤ s ∧ (s : Int) < node.labels.length := by
    rw [cardOf, hnode] at hs
    exact ⟨Int.natCast_nonneg s, by exact_mod_cast hs⟩
  have hstate : n.stateOf name (.whole s) = .ok (s : Int) := by
    rw [stateOf, hlabels]
    exact if_pos hlt
  rw [observe, hcheck, hstate]
  rfl

theorem isReady_iff {taken : List String} :
    n.isReady taken name = true ↔
      ∃ node, n.nodes.get? name = some node ∧ ∀ p ∈ node.parents, p ∈ taken := by
  unfold isReady
  cases n.nodes.get? name with
  | none => simp
  | some node => simp [List.all_eq_true]

theorem mem_children_iff (hn : n.Sound) {p : String} :
    name ∈ n.children p ↔ ∃ node, n.nodes.get? name = some node ∧ p ∈ node.parents := by
  simp only [children, List.mem_map, List.mem_filter, List.contains_eq_mem, decide_eq_true_eq,
    Prod.exists, exists_and_right, exists_eq_right, OrderedMap.mem_entries_iff hn.keys_nodup]

/-- Nodes that were taken from a queue: together they are all nodes whose parents were taken. -/
structure Taking (n : BeliefNetwork W) (taken queue : List String) : Prop where
  /-- No node is listed twice. -/
  nodup : (taken ++ queue).Nodup
  /-- A node is listed if its parents were taken. -/
  mem_iff : ∀ name, name ∈ taken ++ queue ↔ n.isReady taken name = true

namespace Taking

variable {taken queue : List String}

/-- At first the nodes without parents wait. -/
theorem start (hn : n.Sound) :
    Taking n [] ((n.nodes.entries.filter fun e => e.2.parents.isEmpty).map Prod.fst) where
  nodup := (List.filter_sublist.map Prod.fst).nodup hn.keys_nodup
  mem_iff name := by
    simp only [List.nil_append, List.mem_map, List.mem_filter, List.isEmpty_iff, Prod.exists,
      exists_and_right, exists_eq_right, OrderedMap.mem_entries_iff hn.keys_nodup, isReady_iff,
      List.not_mem_nil, imp_false, ← List.eq_nil_iff_forall_not_mem]

/-- Taking a node lets those of its children wait whose other parents were taken before. -/
theorem take (h : Taking n taken (name :: queue)) (hn : n.Sound) :
    Taking n (taken ++ [name])
      (queue ++ (n.children name).filter (n.isReady (taken ++ [name]))) := by
  have hlist : taken ++ name :: queue = taken ++ [name] ++ queue := List.append_cons ..
  have hnew : name ∉ taken := fun hin =>
    (List.nodup_append.1 h.nodup).2.2 name hin name List.mem_cons_self rfl
  constructor
  case nodup =>
    rw [← List.append_assoc, ← hlist]
    refine List.nodup_append.2 ⟨h.nodup, ?_, ?_⟩
    · exact (List.filter_sublist.trans ((List.filter_sublist.map Prod.fst))).nodup hn.keys_nodup
    · -- A child of the node was not ready before.
      rintro v hv _ hv' rfl
      obtain ⟨node, hnode, hparent⟩ := (mem_children_iff hn).1 (List.mem_filter.1 hv').1
      obtain ⟨node', hnode', hall⟩ := isReady_iff.1 ((h.mem_iff v).1 hv)
      cases hnode.symm.trans hnode'
      exact hnew (hall name hparent)
  case mem_iff =>
    intro v
    rw [← List.append_assoc, ← hlist, List.mem_append, h.mem_iff, List.mem_filter]
    constructor
    · rintro (hv | hv)
      · obtain ⟨node, hnode, hall⟩ := isReady_iff.1 hv
        exact isReady_iff.2 ⟨node, hnode, fun p hp => List.mem_append_left _ (hall p hp)⟩
      · exact hv.2
    · intro hv
      obtain ⟨node, hnode, hall⟩ := isReady_iff.1 hv
      by_cases hparent : name ∈ node.parents
      · exact Or.inr ⟨(mem_children_iff hn).2 ⟨node, hnode, hparent⟩, hv⟩
      · refine Or.inl (isReady_iff.2 ⟨node, hnode, fun p hp => ?_⟩)
        exact (List.mem_append.1 (hall p hp)).resolve_right fun hpn =>
          hparent (List.mem_singleton.1 hpn ▸ hp)

theorem subset_keys (h : Taking n taken queue) : taken ⊆ n.nodes.keys := fun v hv => by
  obtain ⟨node, hnode, -⟩ := isReady_iff.1 ((h.mem_iff v).1 (List.mem_append_left _ hv))
  exact OrderedMap.mem_keys_of_get? hnode

theorem nodup_taken (h : Taking n taken queue) : taken.Nodup := (List.nodup_append.1 h.nodup).1

/-- If nothing waits, then every node was taken: otherwise the first one that was not would have its
parents taken. -/
theorem mem_of_no_queue (h : Taking n taken []) (hn : n.Sound) (k : ℕ) :
    ∀ v ∈ n.nodes.keys, n.nodes.keys.idxOf v = k → v ∈ taken := by
  induction k using Nat.strongRecOn with
  | _ k ih =>
    rintro v hv rfl
    obtain ⟨node, hnode⟩ := OrderedMap.exists_get?_of_mem_keys hv
    have hready : n.isReady taken v = true := isReady_iff.2 ⟨node, hnode, fun p hp => by
      obtain ⟨hpin, hlt⟩ := hn.parents_before hnode p hp
      exact ih _ hlt p hpin rfl⟩
    simpa using (h.mem_iff v).2 hready

/-- The queue comes to every node once. -/
theorem perm (hn : n.Sound) {fuel : ℕ} (h : Taking n taken queue)
    (hfuel : n.nodes.keys.length ≤ taken.length + fuel) :
    (n.takeReady fuel taken queue).Perm n.nodes.keys := by
  induction fuel generalizing taken queue with
  | zero =>
    have hsub := List.Nodup.subperm h.nodup_taken h.subset_keys
    exact hsub.perm_of_length_le hfuel
  | succ fuel ih =>
    cases queue with
    | nil =>
      refine (List.perm_ext_iff_of_nodup h.nodup_taken hn.keys_nodup).2 fun v =>
        ⟨fun hv => h.subset_keys hv, fun hv => h.mem_of_no_queue hn _ v hv rfl⟩
    | cons name queue =>
      refine ih (h.take hn) ?_
      rw [List.length_append, List.length_singleton]
      omega

end Taking

/-- Every node is ordered once. -/
theorem Sound.order_perm (hn : n.Sound) : n.order.Perm n.nodes.keys := by
  refine (Taking.start hn).perm hn ?_
  rw [OrderedMap.keys, List.length_map, List.length_nil, Nat.zero_add]
  exact le_rfl

/-- Ordered, the nodes are the same. -/
theorem Sound.orderedNodes_perm (hn : n.Sound) : n.orderedNodes.Perm n.nodes.entries := by
  have hentries : n.nodes.keys.filterMap
      (fun name => (n.nodes.get? name).map fun node => (name, node)) = n.nodes.entries := by
    rw [OrderedMap.keys, List.filterMap_map]
    refine (List.filterMap_congr fun e he => ?_).trans List.filterMap_some
    rw [Function.comp_apply, (OrderedMap.mem_entries_iff hn.keys_nodup).1 he]
    rfl
  rw [orderedNodes]
  conv_rhs => rw [← hentries]
  exact hn.order_perm.filterMap _

/-- The order of the nodes does not depend on what is observed. -/
theorem orderedNodes_observing (n : BeliefNetwork W) (observed : OrderedMap String Int) :
    orderedNodes { n with observed } = n.orderedNodes := by
  have htake : ∀ fuel taken queue,
      takeReady { n with observed } fuel taken queue = n.takeReady fuel taken queue := by
    intro fuel
    induction fuel with
    | zero => exact fun _ _ => rfl
    | succ fuel ih =>
      intro taken queue
      cases queue with
      | nil => rfl
      | cons name queue => exact ih _ _
  have horder : order { n with observed } = n.order := htake _ _ _
  rw [orderedNodes, horder]
  rfl

/-- The labels of a node; none of any other name. -/
def labelsIn (n : BeliefNetwork W) (name : String) : List String :=
  ((n.nodes.get? name).map fun node => node.labels).getD []

theorem length_labelsIn (name : String) : (n.labelsIn name).length = n.cardOf name := by
  unfold labelsIn cardOf
  cases n.nodes.get? name <;> rfl

theorem map_orderedNodes (hn : n.Sound) :
    (n.orderedNodes.map fun e => (e.1, e.2.labels)) = n.order.map fun v => (v, n.labelsIn v) := by
  rw [orderedNodes, List.map_filterMap, ← List.filterMap_eq_map']
  refine List.filterMap_congr fun v hv => ?_
  obtain ⟨node, hnode⟩ := OrderedMap.exists_get?_of_mem_keys (hn.order_perm.mem_iff.1 hv)
  simp [labelsIn, hnode]

section Graph

variable {L : Type} {g bare : FactorGraph W L}

/-- Declaring nodes writes down their labels, and does nothing else. -/
theorem of_declare {es : List (String × Node W)} {s d : FactorGraph W L}
    (h : es.foldlM (fun g e => g.addVariable e.1 (.labels e.2.labels)) s = .ok d) :
    d = { s with states := s.states.insertAll (es.map fun e => (e.1, e.2.labels)) } := by
  induction es generalizing s with
  | nil =>
    cases h
    rfl
  | cons e es ih =>
    rw [List.foldlM_cons] at h
    obtain ⟨u, hu, h⟩ := bind_eq_ok_iff.1 h
    obtain ⟨-, -, rfl⟩ := FactorGraph.of_addVariable hu
    exact ih h

end Graph

variable [WeightScale W]

/-- The networks that can be made by accepted steps. -/
inductive Reachable : BeliefNetwork W → Prop
  /-- The network without nodes. -/
  | empty : Reachable empty
  /-- A node is added. -/
  | addNode {n n' : BeliefNetwork W} {name : String} {shape : List ℕ} {data : List W}
    {parents : List String} {labels : Option (List String)} :
    Reachable n → n.addNode name shape data parents labels = .ok n' → Reachable n'
  /-- A node is observed. -/
  | observe {n n' : BeliefNetwork W} {name : String} {evidence : Datum} :
    Reachable n → n.observe name evidence = .ok n' → Reachable n'
  /-- All observations are forgotten. -/
  | clearEvidence {n : BeliefNetwork W} : Reachable n → Reachable n.clearEvidence

/-- A node is added under a new name and after its parents, with a table that has an axis for each
of them and one for the states of the node. -/
theorem exists_states_of_addNode {shape : List ℕ} {data : List W} {parents : List String}
    {labels : Option (List String)} (h : n.addNode name shape data parents labels = .ok n') :
    ∃ states : List String, name ∉ n.nodes.keys ∧ (∀ p ∈ parents, p ∈ n.nodes.keys) ∧
      shape.length ≤ maxAxes ∧ shape = parents.map n.cardOf ++ [states.length] ∧
      n' = { n with nodes := n.nodes.insert name ⟨parents, states, shape, data⟩ } := by
  obtain ⟨⟨⟩, haxes, h⟩ := bind_eq_ok_iff.1 h
  obtain ⟨hname, h⟩ := refuse_eq_ok_iff.1 h
  cases hparents : parents.find? fun p => !n.nodes.contains p with
  | some p =>
    rw [hparents] at h
    cases h
  | none =>
    rw [hparents] at h
    obtain ⟨hdimensions, h⟩ := refuse_eq_ok_iff.1 h
    obtain ⟨hshape, h⟩ := refuse_eq_ok_iff.1 h
    obtain ⟨-, h⟩ := refuse_eq_ok_iff.1 h
    obtain ⟨hlabels, h⟩ := refuse_eq_ok_iff.1 h
    cases h
    have hlength : shape.length = parents.length + 1 := not_not.1 hdimensions
    have hne : shape ≠ [] := fun he => by simp [he] at hlength
    refine ⟨_, ?_, fun p hp => ?_, ?_, ?_, rfl⟩
    · exact fun hin => hname ((OrderedMap.contains_iff_mem_keys _ _).2 hin)
    · have hin := List.find?_eq_none.1 hparents p hp
      rw [← OrderedMap.contains_iff_mem_keys]
      simpa using hin
    · exact of_checkAxes haxes
    · rw [not_not.1 hlabels, ← not_not.1 hshape, List.getLast?_eq_some_getLast hne,
        Option.getD_some, List.dropLast_append_getLast hne]

/-- So a node is added under a new name, and after its parents. -/
theorem of_addNode {shape : List ℕ} {data : List W} {parents : List String}
    {labels : Option (List String)} (h : n.addNode name shape data parents labels = .ok n') :
    ∃ node : Node W, name ∉ n.nodes.keys ∧ (∀ p ∈ node.parents, p ∈ n.nodes.keys) ∧
      n' = { n with nodes := n.nodes.insert name node } := by
  obtain ⟨states, hnew, hparents, -, -, rfl⟩ := exists_states_of_addNode h
  exact ⟨_, hnew, hparents, rfl⟩

/-- Every network that can be made is sound. -/
theorem Reachable.sound (hn : Reachable n) : n.Sound := by
  induction hn with
  | empty =>
    exact ⟨List.nodup_nil, fun h => (by cases h), fun h => (by cases h)⟩
  | @addNode n n' name shape data parents labels _ h ih =>
    obtain ⟨node, hnew, hparents, rfl⟩ := of_addNode h
    have hkeys : (n.nodes.insert name node).keys = n.nodes.keys ++ [name] := by
      rw [OrderedMap.keys_insert, if_neg hnew]
    have hold : ∀ {p}, p ∈ n.nodes.keys →
        (n.nodes.keys ++ [name]).idxOf p = n.nodes.keys.idxOf p := fun hp =>
      List.idxOf_append_of_mem hp
    refine ⟨OrderedMap.nodup_keys_insert ih.keys_nodup name node, fun {v w} hv p hp => ?_,
      fun hv => OrderedMap.mem_keys_insert.2 (Or.inl (ih.observed_mem hv))⟩
    rw [hkeys]
    by_cases hvn : v = name
    · subst hvn
      rw [OrderedMap.get?_insert_self] at hv
      cases hv
      refine ⟨List.mem_append_left _ (hparents p hp), ?_⟩
      rw [hold (hparents p hp), List.idxOf_append_of_notMem hnew]
      exact Nat.lt_add_right _ (List.idxOf_lt_length_of_mem (hparents p hp))
    · rw [OrderedMap.get?_insert_of_ne _ hvn] at hv
      obtain ⟨hpin, hlt⟩ := ih.parents_before hv p hp
      refine ⟨List.mem_append_left _ hpin, ?_⟩
      rwa [hold hpin, hold (OrderedMap.mem_keys_of_get? hv)]
  | observe _ h ih =>
    obtain ⟨hnode, i, -, rfl⟩ := of_observe h
    refine ⟨ih.keys_nodup, ih.parents_before, fun hv => ?_⟩
    rcases OrderedMap.mem_keys_insert.1 hv with hv | rfl
    · exact ih.observed_mem hv
    · exact hnode
  | clearEvidence _ ih =>
    exact ⟨ih.keys_nodup, ih.parents_before, fun hv => by cases hv⟩

/-- Every node is observed once. -/
theorem Reachable.observed_nodup (hn : Reachable n) : n.observed.keys.Nodup := by
  induction hn with
  | empty => exact List.nodup_nil
  | addNode _ h ih =>
    obtain ⟨node, -, -, rfl⟩ := of_addNode h
    exact ih
  | observe _ h ih =>
    obtain ⟨-, i, -, rfl⟩ := of_observe h
    exact OrderedMap.nodup_keys_insert ih _ i
  | clearEvidence _ _ => exact List.nodup_nil

/-- What is observed of a node is one of its states. -/
theorem Reachable.observed_lt (hn : Reachable n) {i : Int} (hi : n.observed.get? name = some i) :
    0 ≤ i ∧ i < n.cardOf name := by
  induction hn with
  | empty => cases hi
  | @addNode n _ new _ _ _ _ hn h ih =>
    obtain ⟨node, hnew, -, rfl⟩ := of_addNode h
    have hne : name ≠ new := fun he =>
      hnew (he ▸ hn.sound.observed_mem (OrderedMap.mem_keys_of_get? hi))
    rw [cardOf, OrderedMap.get?_insert_of_ne _ hne]
    exact ih hi
  | @observe n _ v _ _ h ih =>
    obtain ⟨-, j, hj, rfl⟩ := of_observe h
    by_cases hv : name = v
    · subst hv
      rw [OrderedMap.get?_insert_self] at hi
      cases hi
      exact hj
    · rw [OrderedMap.get?_insert_of_ne _ hv] at hi
      exact ih hi
  | clearEvidence _ _ => cases hi

section Graph

variable {L : Type} [WeightScale L] {g bare : FactorGraph W L}

/-- What the graph of a network has to do with the network. -/
structure HasGraph (n : BeliefNetwork W) (g : FactorGraph W L) : Prop where
  /-- The graph can be made by accepted steps. -/
  reachable : FactorGraph.Reachable g
  /-- It has no schedule of its own. -/
  hint_eq : g.hint = none
  /-- Its variables are the nodes. -/
  mem_keys : ∀ name, name ∈ g.states.keys ↔ name ∈ n.nodes.keys
  /-- They have as many states as the nodes. -/
  stateCountOf_eq : ∀ name ∈ n.nodes.keys, g.stateCountOf name = n.cardOf name
  /-- The observed nodes are observed. -/
  mem_conditioned : ∀ name, name ∈ g.conditioned.keys ↔ name ∈ n.observed.keys

/-- The graph of the declared nodes has the variables and the numbers of states of the network. -/
theorem Sound.declared_spec (hn : n.Sound) {declared : FactorGraph W L}
    (hdeclared : n.orderedNodes.foldlM
      (fun g e => g.addVariable e.1 (.labels e.2.labels)) FactorGraph.empty = .ok declared) :
    FactorGraph.Reachable declared ∧ declared.conditioned = OrderedMap.empty ∧
      declared.hint = none ∧ (∀ v, v ∈ declared.states.keys ↔ v ∈ n.nodes.keys) ∧
      ∀ v ∈ n.nodes.keys, declared.stateCountOf v = n.cardOf v := by
  have hmade : FactorGraph.Reachable declared :=
    foldlM_invariant hdeclared .empty fun _ _ _ _ hs hst => .addVariable hs hst
  have hstates : declared.states = OrderedMap.ofList (n.order.map fun v => (v, n.labelsIn v)) := by
    rw [of_declare hdeclared, map_orderedNodes hn]
    rfl
  have hnew : declared.conditioned = OrderedMap.empty ∧ declared.hint = none := by
    rw [of_declare hdeclared]
    exact ⟨rfl, rfl⟩
  refine ⟨hmade, hnew.1, hnew.2, fun v => ?_, fun v hv => ?_⟩
  · rw [hstates, OrderedMap.ofList, OrderedMap.mem_keys_insertAll, List.map_map,
      ← hn.order_perm.mem_iff]
    simp [OrderedMap.keys, OrderedMap.empty]
  · rw [FactorGraph.stateCountOf, hstates, OrderedMap.ofList,
      OrderedMap.get?_insertAll_of_mem (hn.order_perm.mem_iff.2 hv), ← length_labelsIn]
    rfl

/-- So does the graph of all nodes, before any observation: adding the factors changes neither the
variables nor the observations. -/
theorem Sound.of_declared (hn : n.Sound) {declared : FactorGraph W L}
    (hdeclared : n.orderedNodes.foldlM
      (fun g e => g.addVariable e.1 (.labels e.2.labels)) FactorGraph.empty = .ok declared)
    (hbare : n.orderedNodes.foldlM (fun g e => do g.addFactor (← n.factorOf e.1 e.2)) declared
      = .ok bare) :
    FactorGraph.Reachable bare ∧ bare.conditioned = OrderedMap.empty ∧ bare.hint = none ∧
      (∀ v, v ∈ bare.states.keys ↔ v ∈ n.nodes.keys) ∧
      ∀ v ∈ n.nodes.keys, bare.stateCountOf v = n.cardOf v := by
  obtain ⟨hmade, hnone, hhint, hkeys, hcount⟩ := hn.declared_spec hdeclared
  have hkept : FactorGraph.Reachable bare ∧ bare.states = declared.states ∧
      bare.conditioned = OrderedMap.empty ∧ bare.hint = none := by
    refine foldlM_invariant (P := fun s : FactorGraph W L => FactorGraph.Reachable s ∧
      s.states = declared.states ∧ s.conditioned = OrderedMap.empty ∧ s.hint = none)
      hbare ⟨hmade, rfl, hnone, hhint⟩ fun s e u _ hs hsu => ?_
    obtain ⟨f, -, hsu⟩ := bind_eq_ok_iff.1 hsu
    refine ⟨.addFactor hs.1 hsu, ?_⟩
    obtain ⟨⟨⟩, -, hsu⟩ := bind_eq_ok_iff.1 hsu
    cases hsu
    exact hs.2
  obtain ⟨hreachable, hsame, hrest⟩ := hkept
  refine ⟨hreachable, hrest.1, hrest.2, fun v => hsame ▸ hkeys v, fun v hv => ?_⟩
  rw [FactorGraph.stateCountOf, hsame]
  exact hcount v hv

/-- The graph of a network, if it can be made. -/
theorem Sound.hasGraph [LogConversion W L]
    (hn : n.Sound) (h : n.toFactorGraph true = .ok g) : n.HasGraph g := by
  obtain ⟨declared, hdeclared, h⟩ := bind_eq_ok_iff.1 h
  obtain ⟨bare, hbare, h⟩ := bind_eq_ok_iff.1 h
  obtain ⟨hreachable, hnone, hhint, hkeys, hcount⟩ := hn.of_declared hdeclared hbare
  split at h
  next hobserve =>
    obtain ⟨observed, hobserved, hg⟩ := bind_eq_ok_iff.1 h
    obtain ⟨factors, -, hg⟩ := bind_eq_ok_iff.1 hg
    cases hg
    refine ⟨.conditional hreachable h, rfl, hkeys, hcount, fun v => ?_⟩
    change v ∈ (bare.conditioned.insertAll observed).keys ↔ _
    rw [hnone, OrderedMap.mem_keys_insertAll, FactorGraph.keys_of_readObservations hobserved]
    simp [OrderedMap.keys, OrderedMap.empty]
  next hobserve =>
    cases h
    have hempty : n.observed.entries = [] := by simpa [OrderedMap.isEmpty] using hobserve
    refine ⟨hreachable, hhint, hkeys, hcount, fun v => ?_⟩
    rw [hnone, OrderedMap.keys, OrderedMap.keys, hempty]
    rfl

/-- The graph of the tables does not depend on what is observed. -/
theorem toFactorGraph_observing (n : BeliefNetwork W) (observed : OrderedMap String Int) :
    (toFactorGraph { n with observed } false : Except Fault (FactorGraph W L))
      = n.toFactorGraph false := by
  rw [toFactorGraph, orderedNodes_observing]
  rfl

/-- With evidence, the graph of the tables is conditioned if something is observed. -/
theorem toFactorGraph_true (n : BeliefNetwork W) :
    (n.toFactorGraph true : Except Fault (FactorGraph W L))
      = n.toFactorGraph false >>= fun bare =>
          if n.observed.isEmpty = true then .ok bare else bare.conditional n.observed := by
  have hswap : ∀ (c : Bool) (x y : Except Fault (FactorGraph W L)),
      (if (true && !c) = true then x else y) = if c = true then y else x := by
    intro c x y
    cases c <;> rfl
  simp only [toFactorGraph, hswap, bind_assoc]
  rfl

theorem toFactorGraph_of_observed {v : String} (hbare : n.toFactorGraph false = .ok bare)
    (hv : v ∈ n.observed.keys) : n.toFactorGraph true = bare.conditional n.observed := by
  rw [toFactorGraph_true, hbare]
  refine if_neg fun hnone => ?_
  rw [OrderedMap.keys, List.isEmpty_iff.1 hnone] at hv
  exact List.not_mem_nil hv

/-- So it is the graph of the tables, or comes from it by one observation. -/
theorem of_toFactorGraph_true (h : n.toFactorGraph true = .ok g) :
    ∃ bare : FactorGraph W L, n.toFactorGraph false = .ok bare ∧
      (n.observed = OrderedMap.empty ∧ g = bare ∨ bare.conditional n.observed = .ok g) := by
  rw [toFactorGraph_true] at h
  obtain ⟨bare, hbare, h⟩ := bind_eq_ok_iff.1 h
  refine ⟨bare, hbare, ?_⟩
  split at h
  next hnone =>
    cases h
    exact Or.inl ⟨congrArg OrderedMap.mk (List.isEmpty_iff.1 hnone), rfl⟩
  next => exact Or.inr h

/-- Without observations nothing is conditioned. -/
theorem toFactorGraph_clearEvidence :
    (n.clearEvidence.toFactorGraph true : Except Fault (FactorGraph W L))
      = n.toFactorGraph false := by
  rw [toFactorGraph_true, clearEvidence, toFactorGraph_observing]
  cases (n.toFactorGraph false : Except Fault (FactorGraph W L)) <;> rfl

end Graph

end ExactInference.BeliefNetwork
