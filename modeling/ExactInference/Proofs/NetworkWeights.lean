import ExactInference.Proofs.ImpossibleEvidence
import ExactInference.Proofs.RepeatedObservations

/-!
# The weights of a network

A network gives a weight to every joint state of its nodes: the product of the entries of all
tables, each read at the states of the parents and of the node. The factor graph of the network
arranges the same tables in another order, and conditions them on the evidence. So its partition
function is the weight of all joint states that agree with the evidence, and the weight that it
gives to a state of a node is that of those among them that have the node in this state. The
probability of the evidence is the first of these weights, zero if the evidence is impossible.
-/

namespace ExactInference

variable {W L : Type}

/-- No joint state is enumerated twice. -/
theorem nodup_completions {axes : List Axis} (hd : (axes.map Axis.name).Nodup) (x : JointState) :
    (completions axes x).Nodup := by
  refine List.Nodup.of_map (position axes) ?_
  rw [map_position_completions hd]
  exact List.nodup_range

/-- The joint states that agree with a given one off some of the axes are its completions over these
axes. -/
theorem filter_completions_perm {axes free : List Axis} {p : JointState → Prop} [DecidablePred p]
    {y : JointState} (hd : (axes.map Axis.name).Nodup) (hfree : (free.map Axis.name).Nodup)
    (hsub : ∀ a ∈ free, a ∈ axes) (hy : y ∈ completions axes JointState.origin)
    (hp : ∀ x ∈ completions axes JointState.origin,
      p x ↔ ∀ v, v ∉ free.map Axis.name → x v = y v) :
    ((completions axes JointState.origin).filter fun x => p x).Perm (completions free y) := by
  obtain ⟨hoff, hin⟩ := (mem_completions hd).1 hy
  refine (List.perm_ext_iff_of_nodup ((nodup_completions hd _).filter _)
    (nodup_completions hfree y)).2 fun x => ?_
  rw [List.mem_filter, decide_eq_true_eq, mem_completions hfree]
  constructor
  · rintro ⟨hx, hpx⟩
    exact ⟨(hp x hx).1 hpx, fun a ha => ((mem_completions hd).1 hx).2 a (hsub a ha)⟩
  · rintro ⟨hxy, hxin⟩
    have hx : x ∈ completions axes JointState.origin := by
      refine (mem_completions hd).2 ⟨fun v hv => ?_, fun a ha => ?_⟩
      · rw [hxy v fun hvf => hv ?_, hoff v hv]
        obtain ⟨a, ha, rfl⟩ := List.mem_map.1 hvf
        exact List.mem_map_of_mem (hsub a ha)
      · by_cases hvf : a.name ∈ free.map Axis.name
        · obtain ⟨b, hb, hba⟩ := List.mem_map.1 hvf
          exact Scope.axis_eq_of_name_eq hd (hsub b hb) ha hba ▸ hxin b hb
        · exact hxy a.name hvf ▸ hin a ha
    exact ⟨hx, (hp x hx).2 hxy⟩

/-- A joint state stays in range if one variable is put into one of its states. -/
theorem set_mem_completions {axes : List Axis} (hd : (axes.map Axis.name).Nodup) {x y : JointState}
    (hx : x ∈ completions axes y) {a : Axis} (ha : a ∈ axes) {s : ℕ} (hs : s < a.card) :
    x.set a.name s ∈ completions axes y := by
  obtain ⟨hoff, hin⟩ := (mem_completions hd).1 hx
  refine (mem_completions hd).2 ⟨fun v hv => ?_, fun b hb => ?_⟩
  · have hne : v ≠ a.name := fun he => hv (he ▸ List.mem_map_of_mem ha)
    rw [JointState.set_of_ne _ hne, hoff v hv]
  · by_cases hne : b.name = a.name
    · rw [Scope.axis_eq_of_name_eq hd hb ha hne, JointState.set_self]
      exact hs
    · rw [JointState.set_of_ne _ hne]
      exact hin b hb

/-- Names of the axes other than one. -/
theorem mem_names_without {axes : List Axis} {name v : String} :
    v ∈ (axes.filter fun a => a.name ≠ name).map Axis.name
      ↔ v ∈ axes.map Axis.name ∧ v ≠ name := by
  simp only [List.mem_map, List.mem_filter, decide_eq_true_eq]
  constructor
  · rintro ⟨a, ⟨ha, hne⟩, rfl⟩
    exact ⟨⟨a, ha, rfl⟩, hne⟩
  · rintro ⟨⟨a, ha, rfl⟩, hne⟩
    exact ⟨a, ⟨ha, hne⟩, rfl⟩

/-- A table made of its parts has the given axes and entries. -/
theorem Table.of_ofData {form : Form} {names : List String} {card : String → ℕ} {shape : List ℕ}
    {data : List W} {t : Table W}
    (h : ofData form names (names.map fun v => (card v : Int)) shape data = .ok t) :
    names.Nodup ∧ (t.scope.axes = names.map fun v => ⟨v, card v⟩) ∧ t.data = data.toArray := by
  unfold ofData at h
  split at h
  · cases h
  split at h
  · cases h
  split at h
  · cases h
  next hnodup =>
  split at h
  · cases h
  next hshape =>
  obtain ⟨scope, hscope, h⟩ := bind_eq_ok_iff.1 h
  split at h
  next hsize =>
    cases h
    have hcards : shape = names.map card := by
      refine List.map_injective_iff.2 Int.ofNat_injective ?_
      rw [not_not.1 hshape, List.map_map]
      rfl
    obtain ⟨s, hs, haxes⟩ := Scope.ofNames?_eq_ok (not_not.1 hnodup) card
    rw [hcards] at hscope
    cases hs.symm.trans hscope
    exact ⟨not_not.1 hnodup, haxes, rfl⟩
  next => cases h

namespace BeliefNetwork

open JointState

/-- The nodes as axes, in the order of their arrival. -/
def axes (n : BeliefNetwork W) : List Axis := n.nodes.keys.map fun v => ⟨v, n.cardOf v⟩

variable {n : BeliefNetwork W} {g bare : FactorGraph W L}

theorem map_name_axes (n : BeliefNetwork W) : n.axes.map Axis.name = n.nodes.keys := by
  rw [axes, List.map_map]
  exact List.map_id _

theorem mem_axes {a : Axis} : a ∈ n.axes ↔ a.name ∈ n.nodes.keys ∧ a.card = n.cardOf a.name := by
  rw [axes, List.mem_map]
  constructor
  · rintro ⟨v, hv, rfl⟩
    exact ⟨hv, rfl⟩
  · rintro ⟨hv, hcard⟩
    exact ⟨a.name, hv, by rw [← hcard]⟩

/-- The nodes at their observed states; all others are in their first state. -/
def observedState (n : BeliefNetwork W) : JointState := fun v =>
  ((n.observed.get? v).map Int.toNat).getD 0

theorem Sound.nodup_axes (hn : n.Sound) : (n.axes.map Axis.name).Nodup :=
  n.map_name_axes ▸ hn.keys_nodup

theorem observedState_of_notMem {v : String} (hv : v ∉ n.observed.keys) :
    n.observedState v = 0 := by
  have hnone : n.observed.get? v = none :=
    Option.eq_none_iff_forall_ne_some.2 fun i hi => hv (OrderedMap.mem_keys_of_get? hi)
  rw [observedState, hnone]
  rfl

variable [Semifield W]

/-- The entry of a node's table at a joint state: the probability of the state of the node, given
the states of its parents. The parents are the first axes of the table and the node is the last. -/
def entryAt (n : BeliefNetwork W) (name : String) (node : Node W) (x : JointState) : W :=
  node.data.getD (position ((node.parents ++ [name]).map fun v => ⟨v, n.cardOf v⟩) x) 0

/-- The product of the entries of some nodes at a joint state. -/
def productOver (n : BeliefNetwork W) (es : List (String × Node W)) (x : JointState) : W :=
  (es.map fun d => n.entryAt d.1 d.2 x).prod

/-- The joint weight at a joint state: the product of the entries of all nodes. -/
def jointWeightAt (n : BeliefNetwork W) (x : JointState) : W := n.productOver n.nodes.entries x

/-- The joint weights of all joint states of the nodes that have a property, added up. -/
def massWhere (n : BeliefNetwork W) (p : JointState → Prop) [DecidablePred p] : W :=
  (((completions n.axes JointState.origin).filter fun x => p x).map n.jointWeightAt).sum

/-- An entry only depends on the states of the node and its parents. -/
theorem entryAt_congr {name : String} {node : Node W} {x y : JointState}
    (h : ∀ v ∈ node.parents ++ [name], x v = y v) :
    n.entryAt name node x = n.entryAt name node y := by
  rw [entryAt, entryAt, position_congr fun v hv => h v ?_]
  rw [List.map_map] at hv
  simpa using hv

/-- So a joint weight only depends on the states of the nodes. -/
theorem Sound.jointWeightAt_congr (hn : n.Sound) {x y : JointState}
    (h : ∀ v ∈ n.nodes.keys, x v = y v) : n.jointWeightAt x = n.jointWeightAt y := by
  rw [jointWeightAt, productOver, jointWeightAt, productOver]
  refine congrArg List.prod (List.map_congr_left fun d hd => entryAt_congr fun v hv => h v ?_)
  exact hn.scope_subset ((OrderedMap.mem_entries_iff hn.keys_nodup).1 hd) v hv

theorem massWhere_congr {p q : JointState → Prop} [DecidablePred p] [DecidablePred q]
    (h : ∀ x ∈ completions n.axes origin, p x ↔ q x) : n.massWhere p = n.massWhere q := by
  rw [massWhere, massWhere, List.filter_congr fun x hx => decide_eq_decide.2 (h x hx)]

/-- A property that no joint state has has no weight. -/
theorem massWhere_of_none {p : JointState → Prop} [DecidablePred p]
    (h : ∀ x ∈ completions n.axes origin, ¬ p x) : n.massWhere p = 0 := by
  rw [massWhere, List.filter_eq_nil_iff.2 fun x hx => by simpa using h x hx]
  rfl

/-- Only the observed state of a node has any weight together with the evidence. -/
theorem massWhere_of_observed {query : String} {i : Int} (hi : n.observed.get? query = some i)
    (s : ℕ) : (n.massWhere fun x => Agrees n.observed x ∧ x query = s)
      = if i = s then n.massWhere (Agrees n.observed) else 0 := by
  have hselect : ∀ x : JointState, Agrees n.observed x → (x query = s ↔ i = s) := fun x ha => by
    have hstate := hi.symm.trans (ha query (OrderedMap.mem_keys_of_get? hi))
    rw [Option.some.inj hstate, Int.natCast_inj]
  split
  next his => exact massWhere_congr fun x _ => ⟨And.left, fun ha => ⟨ha, (hselect x ha).2 his⟩⟩
  next his => exact massWhere_of_none fun x _ hx => his ((hselect x hx.1).1 hx.2)

/-- One observation more selects the joint states that have the observed state as well. -/
theorem massWhere_insert {query : String} (hnew : query ∉ n.observed.keys) (s : ℕ) :
    massWhere { n with observed := n.observed.insert query (s : Int) }
        (Agrees (n.observed.insert query (s : Int)))
      = n.massWhere fun x => Agrees n.observed x ∧ x query = s :=
  massWhere_congr fun x _ => by
    rw [agrees_insert_iff hnew, Int.natCast_inj, eq_comm (a := s)]

/-- A stricter selection has less weight. -/
theorem massWhere_mono [LinearOrder W] [IsStrictOrderedRing W] [CanonicallyOrderedAdd W]
    {p q : JointState → Prop} [DecidablePred p] [DecidablePred q] (h : ∀ x, p x → q x) :
    n.massWhere p ≤ n.massWhere q := by
  have hsub : ((completions n.axes origin).filter fun x => p x).Sublist
      ((completions n.axes origin).filter fun x => q x) :=
    List.monotone_filter_right _ fun x hx => by simpa using h x (by simpa using hx)
  exact (hsub.map n.jointWeightAt).sum_le_sum fun w _ => zero_le

end BeliefNetwork

variable [WeightScale W] [WeightScale L] [LogConversion W L]

/-- What is added up over the completions of a joint state does not depend on the state of a
variable that is on an axis, or that no factor can mention. -/
theorem FactorGraph.Sound.jointWeightOver_congr {g : FactorGraph W L} (hg : g.Sound)
    {axes : List Axis} {x y : JointState}
    (h : ∀ v ∈ g.freeNames, v ∉ axes.map Axis.name → x v = y v) :
    g.jointWeightOver axes x = g.jointWeightOver axes y := by
  have hreads : ∀ z w : JointState, (∀ v ∈ g.freeNames, z v = w v) →
      g.jointWeightAt z = g.jointWeightAt w := fun z w hzw =>
    hg.reads_jointWeightAt z w fun v hv => hzw v (List.mem_toFinset.1 hv)
  rw [jointWeightOver, jointWeightOver, map_completions_congr hreads h]

namespace BeliefNetwork

open JointState

variable {n : BeliefNetwork W} {g bare : FactorGraph W L}

/-- The graph of the tables has no schedule, and all nodes are free in it. -/
theorem Reachable.of_bare (hn : n.Reachable) (h : n.toFactorGraph false = .ok bare) :
    bare.Sound ∧ bare.hint = none ∧ (∀ v, v ∈ bare.freeNames ↔ v ∈ n.nodes.keys) ∧
      ∀ {x}, InRange n.axes x → InRange bare.freeAxes x := by
  have hgraph := hn.clearEvidence.sound.hasGraph (toFactorGraph_clearEvidence.trans h)
  have hfree : ∀ v, v ∈ bare.freeNames ↔ v ∈ n.nodes.keys := fun v => by
    rw [FactorGraph.mem_freeNames, hgraph.mem_keys, hgraph.mem_conditioned]
    exact and_iff_left List.not_mem_nil
  refine ⟨hgraph.reachable.sound, hgraph.hint_eq, hfree, fun {x} hx a ha => hx a ?_⟩
  obtain ⟨hname, hcard⟩ := FactorGraph.mem_freeAxes.1 ha
  have hv := (hfree a.name).1 hname
  exact mem_axes.2 ⟨hv, hcard.trans (hgraph.stateCountOf_eq a.name hv)⟩

/-- The observed states agree with the evidence. -/
theorem Reachable.agrees_observedState (hn : n.Reachable) : n.observedState.Agrees n.observed := by
  intro v hv
  obtain ⟨i, hi⟩ := OrderedMap.exists_get?_of_mem_keys hv
  rw [hi, observedState, hi]
  exact congrArg some (Int.toNat_of_nonneg (hn.observed_lt hi).1).symm

/-- If every node has a state, then the observed states are those of a joint state. -/
theorem Reachable.observedState_mem (hn : n.Reachable) (hpos : ∀ v ∈ n.nodes.keys, 0 < n.cardOf v) :
    n.observedState ∈ completions n.axes origin := by
  refine (mem_completions hn.sound.nodup_axes).2 ⟨fun v hv => ?_, fun a ha => ?_⟩
  · rw [map_name_axes] at hv
    exact observedState_of_notMem fun hin => hv (hn.sound.observed_mem hin)
  · obtain ⟨hname, hcard⟩ := mem_axes.1 ha
    rw [hcard]
    by_cases hin : a.name ∈ n.observed.keys
    · have hi := hn.agrees_observedState a.name hin
      exact_mod_cast (hn.observed_lt hi).2
    · rw [observedState_of_notMem hin]
      exact hpos a.name hname

section Graph

variable (hn : n.Reachable) (h : n.toFactorGraph true = .ok g)

include hn h

/-- Every node of a network that has a graph has a state. -/
theorem Reachable.cardOf_pos {v : String} (hv : v ∈ n.nodes.keys) : 0 < n.cardOf v := by
  have hgraph := hn.sound.hasGraph h
  rw [← hgraph.stateCountOf_eq v hv]
  exact hgraph.reachable.sound.stateCountOf_pos ((hgraph.mem_keys v).2 hv)

/-- The free variables of the graph are the nodes that are not observed. -/
theorem Reachable.mem_freeAxes {a : Axis} :
    a ∈ g.freeAxes ↔ a ∈ n.axes ∧ a.name ∉ n.observed.keys := by
  have hgraph := hn.sound.hasGraph h
  rw [FactorGraph.mem_freeAxes, FactorGraph.mem_freeNames, hgraph.mem_keys, hgraph.mem_conditioned,
    mem_axes]
  constructor
  · rintro ⟨⟨hv, hout⟩, hcard⟩
    exact ⟨⟨hv, hcard.trans (hgraph.stateCountOf_eq _ hv)⟩, hout⟩
  · rintro ⟨⟨hv, hcard⟩, hout⟩
    exact ⟨⟨hv, hout⟩, hcard.trans (hgraph.stateCountOf_eq _ hv).symm⟩

/-- A joint state agrees with the evidence if all variables that are not free are at the observed
states. -/
theorem Reachable.agrees_iff {x : JointState} (hx : x ∈ completions n.axes origin) :
    x.Agrees n.observed ↔ ∀ v, v ∉ g.freeAxes.map Axis.name → x v = n.observedState v := by
  have hgraph := hn.sound.hasGraph h
  have hd := hn.sound.nodup_axes
  constructor
  · intro ha v hv
    by_cases hin : v ∈ n.observed.keys
    · have hstates := (ha v hin).symm.trans (hn.agrees_observedState v hin)
      exact_mod_cast Option.some.inj hstates
    · rw [observedState_of_notMem hin, ((mem_completions hd).1 hx).1 v fun hnode => hv ?_]
      · rfl
      · rw [FactorGraph.map_name_freeAxes, FactorGraph.mem_freeNames, hgraph.mem_keys,
          hgraph.mem_conditioned]
        exact ⟨n.map_name_axes ▸ hnode, hin⟩
  · intro hxy v hv
    rw [hxy v fun hvf => ?_]
    · exact hn.agrees_observedState v hv
    · rw [FactorGraph.map_name_freeAxes, FactorGraph.mem_freeNames, hgraph.mem_conditioned] at hvf
      exact hvf.2 hv

/-- The observations of the graph are those of the network. -/
theorem Reachable.conditioned_eq : g.conditioned = n.observed := by
  obtain ⟨bare, hbare, hcases⟩ := of_toFactorGraph_true h
  have hgraph := hn.clearEvidence.sound.hasGraph (toFactorGraph_clearEvidence.trans hbare)
  have hbareNone : bare.conditioned = OrderedMap.empty := by
    have hkeys : bare.conditioned.keys = [] :=
      List.eq_nil_iff_forall_not_mem.2 fun v hv => by cases (hgraph.mem_conditioned v).1 hv
    rw [OrderedMap.empty, ← List.map_eq_nil_iff.1 hkeys]
  rcases hcases with ⟨hnone, rfl⟩ | hconditional
  · rw [hbareNone, hnone]
  · obtain ⟨observed, factors, hobserved, -, rfl⟩ := FactorGraph.of_conditional hconditional
    have hentries : (OrderedMap.ofList n.observed.entries).entries = n.observed.entries :=
      OrderedMap.entries_ofList <| (List.pairwise_map.1 hn.observed_nodup).imp fun hne => by
        simpa using hne
    rw [FactorGraph.readObservations_eq hobserved, hbareNone]
    exact congrArg OrderedMap.mk hentries

/-- An unobserved node can be put into any of its states. -/
theorem Reachable.set_observedState {query : String} (hquery : query ∈ n.nodes.keys)
    (hunobserved : query ∉ n.observed.keys) {s : ℕ} (hs : s < n.cardOf query) :
    n.observedState.set query s ∈ completions n.axes origin ∧
      Agrees n.observed (n.observedState.set query s) := by
  refine ⟨?_, fun v hv => ?_⟩
  · exact set_mem_completions hn.sound.nodup_axes
      (hn.observedState_mem fun v hv => hn.cardOf_pos h hv)
      (a := ⟨query, n.cardOf query⟩) (mem_axes.2 ⟨hquery, rfl⟩) hs
  · have hne : v ≠ query := fun he => hunobserved (he ▸ hv)
    rw [set_of_ne _ hne]
    exact hn.agrees_observedState v hv

/-- A joint state agrees with the evidence and has the node in a state if all other variables that
are not free are at the observed states. -/
theorem Reachable.agrees_and_iff {x : JointState} (hx : x ∈ completions n.axes origin)
    {query : String} (hfree : query ∈ g.freeNames) (s : ℕ) :
    x.Agrees n.observed ∧ x query = s ↔
      ∀ v, v ∉ (g.freeAxes.filter fun a => a.name ≠ query).map Axis.name →
        x v = n.observedState.set query s v := by
  rw [hn.agrees_iff h hx]
  constructor
  · rintro ⟨hxy, hxs⟩ v hv
    by_cases hne : v = query
    · rw [hne, hxs, set_self]
    · rw [set_of_ne _ hne]
      exact hxy v fun hin => hv (mem_names_without.2 ⟨hin, hne⟩)
  · intro hxy
    refine ⟨fun v hv => ?_, ?_⟩
    · have hne : v ≠ query := fun he => hv (he ▸ g.map_name_freeAxes ▸ hfree)
      rw [hxy v fun hin => hv (mem_names_without.1 hin).1, set_of_ne _ hne]
    · rw [hxy query fun hin => (mem_names_without.1 hin).2 rfl, set_self]

end Graph

variable [Semifield W] [LinearOrder W] [ExactScale W]

/-- The factor of a node has the entries of its table as weights. -/
theorem of_factorOf {name : String} {node : Node W} {f : Factor W L}
    (h : n.factorOf name node = .ok f) :
    (node.parents ++ [name]).Nodup ∧ ∀ x, f.weightAt x = n.entryAt name node x := by
  obtain ⟨t, ht, rfl⟩ := map_eq_ok_iff.1 h
  obtain ⟨hnodup, haxes, hdata⟩ := Table.of_ofData ht
  refine ⟨hnodup, fun x => ?_⟩
  rw [Factor.weightAt_plain, Table.weightAt, haxes, hdata, ExactScale.zero_eq, entryAt]
  simp [Array.getD_eq_getD_getElem?]

/-- Adding the factors of some nodes multiplies the joint weight by the entries of their tables. -/
theorem jointWeightAt_addFactors {es : List (String × Node W)} {s t : FactorGraph W L}
    (h : es.foldlM (fun g e => do g.addFactor (← n.factorOf e.1 e.2)) s = .ok t)
    (x : JointState) :
    t.jointWeightAt x = s.jointWeightAt x * n.productOver es x := by
  induction es generalizing s with
  | nil =>
    cases h
    exact (mul_one _).symm
  | cons e es ih =>
    rw [List.foldlM_cons] at h
    obtain ⟨u, hu, h⟩ := bind_eq_ok_iff.1 h
    obtain ⟨f, hf, hu⟩ := bind_eq_ok_iff.1 hu
    have hentry : f.weights.weightAt x = n.entryAt e.1 e.2 x := (of_factorOf hf).2 x
    rw [ih h, FactorGraph.jointWeightAt_addFactor hu, ExactScale.mul_eq, hentry, mul_assoc]
    exact congrArg (s.jointWeightAt x * ·) List.prod_cons.symm

/-- The weights of the graph of the tables are the products of their entries. -/
theorem Sound.jointWeightAt_bare (hn : n.Sound) (h : n.toFactorGraph false = .ok bare)
    (x : JointState) : bare.jointWeightAt x = n.jointWeightAt x := by
  obtain ⟨declared, hdeclared, h⟩ := bind_eq_ok_iff.1 h
  obtain ⟨g, hg, h⟩ := bind_eq_ok_iff.1 h
  cases h
  have hone : declared.jointWeightAt x = 1 := by
    rw [of_declare hdeclared]
    exact (FactorGraph.jointWeightAt_empty x).trans ExactScale.one_eq
  rw [jointWeightAt_addFactors hg, hone, one_mul, jointWeightAt]
  exact (hn.orderedNodes_perm.map _).prod_eq

section Graph

variable (hn : n.Reachable) (h : n.toFactorGraph true = .ok g)

include hn h

/-- At a joint state that agrees with the evidence, the weight of the graph is the product of the
entries of all tables. -/
theorem Reachable.jointWeightAt_graph {x : JointState} (hx : InRange n.axes x)
    (ha : x.Agrees n.observed) : g.jointWeightAt x = n.jointWeightAt x := by
  obtain ⟨bare, hbare, ⟨-, rfl⟩ | hconditional⟩ := of_toFactorGraph_true h
  · exact hn.sound.jointWeightAt_bare hbare x
  · obtain ⟨hsound, -, -, hin⟩ := hn.of_bare hbare
    rw [← hn.sound.jointWeightAt_bare hbare x]
    exact hsound.jointWeightAt_conditional hconditional (hin hx) ha.follows

/-- If exactly those joint states are selected that agree with a given one off some free variables,
then their weight is what the graph adds up over these variables. -/
theorem Reachable.massWhere_eq {free : List Axis} {p : JointState → Prop} [DecidablePred p]
    {y : JointState} (hfree : (free.map Axis.name).Nodup) (hsub : ∀ a ∈ free, a ∈ g.freeAxes)
    (hy : y ∈ completions n.axes origin) (ha : y.Agrees n.observed)
    (hp : ∀ x ∈ completions n.axes origin, p x ↔ ∀ v, v ∉ free.map Axis.name → x v = y v) :
    n.massWhere p = g.jointWeightOver free y := by
  have hd := hn.sound.nodup_axes
  have hperm := filter_completions_perm hd hfree
    (fun a hfa => ((hn.mem_freeAxes h).1 (hsub a hfa)).1) hy hp
  rw [massWhere, (hperm.map _).sum_eq, FactorGraph.jointWeightOver, ExactScale.total_eq]
  refine congrArg List.sum (List.map_congr_left fun x hx => ?_)
  have hxmem := (List.mem_filter.1 (hperm.mem_iff.2 hx)).1
  refine (hn.jointWeightAt_graph h ((mem_completions hd).1 hxmem).2 fun v hv => ?_).symm
  rw [((mem_completions hfree).1 hx).1 v fun hvf => ?_]
  · exact ha v hv
  · obtain ⟨a, hfa, rfl⟩ := List.mem_map.1 hvf
    exact ((hn.mem_freeAxes h).1 (hsub a hfa)).2 hv

/-- The partition function of the graph is the weight of all joint states that agree with the
evidence. -/
theorem Reachable.partitionFunction_eq : g.partitionFunction = n.massWhere (Agrees n.observed) := by
  have hsound := (hn.sound.hasGraph h).reachable.sound
  rw [hn.massWhere_eq h hsound.freeNames_nodup (fun _ ha => ha)
    (hn.observedState_mem fun v hv => hn.cardOf_pos h hv) hn.agrees_observedState
    fun x hx => hn.agrees_iff h hx]
  refine hsound.jointWeightOver_congr fun v hv hout => absurd ?_ hout
  rwa [FactorGraph.map_name_freeAxes]

/-- The weight of a state of an unobserved node is that of all joint states that agree with the
evidence and have the node in this state. -/
theorem Reachable.stateWeight_of_unobserved {query : String} (hfree : query ∈ g.freeNames) {s : ℕ}
    (hs : s < n.cardOf query) :
    g.stateWeight query s = n.massWhere fun x => Agrees n.observed x ∧ x query = s := by
  have hgraph := hn.sound.hasGraph h
  have hsound := hgraph.reachable.sound
  obtain ⟨hquery, hunobserved⟩ := FactorGraph.mem_freeNames.1 hfree
  rw [hgraph.mem_keys] at hquery
  rw [hgraph.mem_conditioned] at hunobserved
  obtain ⟨hstate, hagrees⟩ := hn.set_observedState h hquery hunobserved hs
  rw [hn.massWhere_eq h ((List.filter_sublist.map Axis.name).nodup hsound.freeNames_nodup)
    (fun a ha => (List.mem_filter.1 ha).1) hstate hagrees
    fun x hx => hn.agrees_and_iff h hx hfree s]
  rw [FactorGraph.stateWeight, FactorGraph.get?_conditioned hfree]
  refine hsound.jointWeightOver_congr fun v hv hout => ?_
  rw [← g.map_name_freeAxes] at hv
  obtain rfl : v = query := by
    by_contra hne
    exact hout (mem_names_without.2 ⟨hv, hne⟩)
  rw [set_self, set_self]

/-- So it is for any node: if it is observed, then no other state has any weight. -/
theorem Reachable.stateWeight_eq {query : String} (hquery : query ∈ n.nodes.keys) {s : ℕ}
    (hs : s < n.cardOf query) :
    g.stateWeight query s = n.massWhere fun x => Agrees n.observed x ∧ x query = s := by
  have hgraph := hn.sound.hasGraph h
  cases hi : g.conditioned.get? query with
  | none =>
    exact hn.stateWeight_of_unobserved h
      (FactorGraph.mem_freeNames_of_get? ((hgraph.mem_keys query).2 hquery) hi) hs
  | some i =>
    rw [FactorGraph.stateWeight_of_observed hi, hn.partitionFunction_eq h,
      massWhere_of_observed (hn.conditioned_eq h ▸ hi)]

variable [IsStrictOrderedRing W] [CanonicallyOrderedAdd W] [ExactLog W L]

/-- An engine that is equipped answers with the weight of all joint states that agree with the
evidence. -/
theorem Reachable.answer_evidenceProbability {e : Engine} (hequipped : e.Equipped g) :
    (n.evidenceProbability L e).answer = .ok (n.massWhere (Agrees n.observed)) := by
  have hgraph := hn.sound.hasGraph h
  have hreports := hequipped.reportsImpossible hgraph.reachable hgraph.hint_eq
  rw [evidenceProbability, Traced.answer_bind, Traced.answer_ofExcept, ← hn.partitionFunction_eq h]
  refine bind_eq_ok_iff.2 ⟨g, h, ?_⟩
  simp only [Traced.answer_bind, Traced.answer_reportAll]
  by_cases hzero : g.partitionFunction = 0 ∧ g.freeNames ≠ []
  · simp only [hreports.fault_iff.2 hzero, hzero.1]
    exact congrArg Except.ok ExactScale.zero_eq
  · obtain ⟨m, hm, hexact⟩ := hreports.exists_exact hzero
    simp only [hm]
    exact hexact.total_eq

end Graph

end BeliefNetwork

end ExactInference
