import ExactInference.FactorGraph.Families
import ExactInference.Proofs.ExactMarginals

/-!
# Unions of graphs

A graph that was made from variables and factors, without observations and hints, is given by the
two lists. Declaring new variables and adding factors over declared ones extends the lists. The
union of graphs over different variables therefore always exists; it has the variables and the
factors of all parts, and its joint weight is the product of theirs.
-/

namespace ExactInference

namespace OrderedMap

variable {α : Type}

/-- Entries whose keys are different are listed as they were written. -/
theorem entries_ofList_of_nodup {es : List (String × α)} (h : (es.map Prod.fst).Nodup) :
    (ofList es).entries = es :=
  entries_ofList ((List.pairwise_map.1 h).imp fun hne => beq_false_of_ne hne)

theorem ofList_concat (es : List (String × α)) (e : String × α) :
    ofList (es ++ [e]) = (ofList es).insert e.1 e.2 := List.foldl_concat ..

end OrderedMap

namespace FactorGraph

variable {W L : Type} {g : FactorGraph W L} {es done more : List (String × List String)}
  {fs gs : List (Factor W L)} {v : String} {labels : List String}

/-- A new variable with states is declared. -/
theorem addVariable_eq_ok {states : StateList} (hnew : v ∉ g.states.keys)
    (hne : states.toLabels ≠ []) :
    g.addVariable v states = .ok { g with states := g.states.insert v states.toLabels } := by
  have hfree : ¬ g.states.contains v = true := fun hin =>
    hnew ((OrderedMap.contains_iff_mem_keys _ _).1 hin)
  rw [addVariable, if_neg hfree, if_neg fun he => hne (List.isEmpty_iff.1 he)]

/-- The graph that declares some variables with their labels and has some factors. -/
def assembled (es : List (String × List String)) (fs : List (Factor W L)) : FactorGraph W L :=
  ⟨OrderedMap.ofList es, fs, OrderedMap.empty, none⟩

section Over

variable (hes : (es.map Prod.fst).Nodup)
include hes

theorem keys_assembled (fs : List (Factor W L)) : (assembled es fs).states.keys = es.map Prod.fst :=
  congrArg (List.map Prod.fst) (OrderedMap.entries_ofList_of_nodup hes)

theorem freeNames_assembled (fs : List (Factor W L)) :
    (assembled es fs).freeNames = es.map Prod.fst := by
  rw [freeNames, keys_assembled hes]
  exact List.filter_eq_self.2 fun _ _ => rfl

theorem get?_states_assembled (fs : List (Factor W L)) (hv : (v, labels) ∈ es) :
    (assembled es fs).states.get? v = some labels := by
  have hkeys : (assembled es fs).states.keys.Nodup := keys_assembled hes fs ▸ hes
  rw [← OrderedMap.mem_entries_iff hkeys]
  exact (OrderedMap.entries_ofList_of_nodup hes).symm ▸ hv

theorem freeAxes_assembled (fs : List (Factor W L)) :
    (assembled es fs).freeAxes = es.map fun e => ⟨e.1, e.2.length⟩ := by
  rw [freeAxes, freeNames_assembled hes, List.map_map]
  refine List.map_congr_left fun e he => ?_
  rw [Function.comp_apply, stateCountOf, get?_states_assembled hes fs he, Option.getD_some]

omit hes in
/-- New variables are declared one after the other. -/
theorem declare_eq_ok (done : List (String × List String)) (fs : List (Factor W L))
    (hnew : (done.map Prod.fst ++ es.map Prod.fst).Nodup) (hne : ∀ e ∈ es, e.2 ≠ []) :
    es.foldlM (fun g e => g.addVariable e.1 (.labels e.2)) (assembled done fs : FactorGraph W L)
      = .ok (assembled (done ++ es) fs) := by
  induction es generalizing done with
  | nil => rw [List.append_nil]; rfl
  | cons e es ih =>
    have hnext : ((done ++ [e]).map Prod.fst ++ es.map Prod.fst).Nodup := by
      rwa [List.map_append, List.append_assoc]
    have hdone : (done.map Prod.fst).Nodup := (List.nodup_append.1 hnew).1
    have hout : e.1 ∉ (assembled done fs : FactorGraph W L).states.keys := by
      rw [keys_assembled hdone]
      exact fun hin => (List.nodup_append.1 hnew).2.2 e.1 hin e.1 List.mem_cons_self rfl
    have hlabels : (StateList.labels e.2).toLabels ≠ [] := hne e List.mem_cons_self
    have hstep : (assembled done fs : FactorGraph W L).addVariable e.1 (.labels e.2)
        = .ok (assembled (done ++ [e]) fs) := by
      rw [addVariable_eq_ok hout hlabels, assembled, assembled, OrderedMap.ofList_concat]
      rfl
    have hrest := ih _ hnext fun d hd => hne d (List.mem_cons_of_mem e hd)
    rw [List.append_assoc] at hrest
    rw [List.foldlM_cons, hstep]
    exact hrest

/-- Factors over declared variables are added one after the other. -/
theorem addFactors_eq_ok (fs : List (Factor W L)) (hgs : ∀ f ∈ gs,
    f.scope.Within (es.map fun e => ⟨e.1, e.2.length⟩)) :
    gs.foldlM addFactor (assembled es fs : FactorGraph W L) = .ok (assembled es (fs ++ gs)) := by
  induction gs generalizing fs with
  | nil => rw [List.append_nil]; rfl
  | cons f gs ih =>
    have hf := hgs f List.mem_cons_self
    rw [← freeAxes_assembled hes fs] at hf
    have hrest := ih (fs ++ [f]) fun f' hf' => hgs f' (List.mem_cons_of_mem f hf')
    rw [List.append_assoc] at hrest
    rw [List.foldlM_cons, addFactor_eq_ok hf]
    exact hrest

variable [WeightScale W] [WeightScale L]

/-- So they can be made by the calls that a caller has. -/
theorem reachable_assembled (hne : ∀ e ∈ es, e.2 ≠ [])
    (hfs : ∀ f ∈ fs, f.scope.Within (es.map fun e => ⟨e.1, e.2.length⟩)) :
    Reachable (assembled es fs) := by
  have hdeclared : Reachable (assembled es [] : FactorGraph W L) :=
    foldlM_invariant (declare_eq_ok [] [] hes hne) .empty
      fun _ _ _ _ hs hst => .addVariable hs hst
  exact foldlM_invariant (addFactors_eq_ok hes [] hfs) hdeclared
    fun _ _ _ _ hs hst => .addFactor hs hst

end Over

/-- The free variables of a graph with their labels. -/
def declared (g : FactorGraph W L) : List (String × List String) :=
  g.freeNames.map fun v => (v, (g.states.get? v).getD [])

theorem map_fst_declared (g : FactorGraph W L) : g.declared.map Prod.fst = g.freeNames := by
  rw [declared, List.map_map]
  exact List.map_id _

theorem freeAxes_eq_map_declared (g : FactorGraph W L) :
    g.freeAxes = g.declared.map fun e => ⟨e.1, e.2.length⟩ := by
  rw [declared, List.map_map]
  rfl

theorem map_fst_flatMap_declared (parts : List (FactorGraph W L)) :
    (parts.flatMap declared).map Prod.fst = parts.flatMap freeNames := by
  rw [List.map_flatMap]
  exact congrArg parts.flatMap (funext map_fst_declared)

theorem freeAxes_subset_of_mem {parts : List (FactorGraph W L)} {part : FactorGraph W L}
    (hpart : part ∈ parts) {a : Axis} (ha : a ∈ part.freeAxes) :
    a ∈ (parts.flatMap declared).map fun e => (⟨e.1, e.2.length⟩ : Axis) := by
  rw [freeAxes_eq_map_declared] at ha
  obtain ⟨e, he, rfl⟩ := List.mem_map.1 ha
  exact List.mem_map_of_mem (List.mem_flatMap.2 ⟨part, hpart, he⟩)

section Sound

theorem Sound.labelsOf_eq_ok (hg : g.Sound) (hv : v ∈ g.freeNames) :
    g.labelsOf v = .ok ((g.states.get? v).getD []) ∧ (g.states.get? v).getD [] ≠ [] := by
  obtain ⟨labels, hlabels⟩ := OrderedMap.exists_get?_of_mem_keys (mem_freeNames.1 hv).1
  rw [labelsOf, hlabels]
  exact ⟨rfl, hg.states_ne_nil hlabels⟩

/-- The variables of a graph are declared in another one that does not have them. -/
theorem Sound.declare_part (hg : g.Sound) (fs : List (Factor W L))
    (hnew : (done.map Prod.fst ++ g.freeNames).Nodup) :
    g.freeNames.foldlM (fun s v => do s.addVariable v (.labels (← g.labelsOf v)))
      (assembled done fs : FactorGraph W L) = .ok (assembled (done ++ g.declared) fs) := by
  have hne : ∀ e ∈ g.declared, e.2 ≠ [] := fun e he => by
    obtain ⟨v, hv, rfl⟩ := List.mem_map.1 he
    exact (hg.labelsOf_eq_ok hv).2
  have hread : ∀ (s : FactorGraph W L) (vs : List String), (∀ v ∈ vs, v ∈ g.freeNames) →
      vs.foldlM (fun s v => do s.addVariable v (.labels (← g.labelsOf v))) s
        = (vs.map fun v => (v, (g.states.get? v).getD [])).foldlM
            (fun s e => s.addVariable e.1 (.labels e.2)) s := by
    intro s vs hvs
    induction vs generalizing s with
    | nil => rfl
    | cons v vs ih =>
      rw [List.map_cons, List.foldlM_cons, List.foldlM_cons,
        (hg.labelsOf_eq_ok (hvs v List.mem_cons_self)).1]
      exact congrArg (s.addVariable v _ >>= ·)
        (funext fun t => ih t fun w hw => hvs w (List.mem_cons_of_mem v hw))
  rw [hread _ _ fun v hv => hv]
  rw [← g.map_fst_declared] at hnew
  exact declare_eq_ok done fs hnew hne

/-- Graphs over different variables have a union: the graph with all their variables and factors. -/
theorem union_eq_ok {parts : List (FactorGraph W L)} (hparts : ∀ part ∈ parts, part.Sound)
    (hnodup : (parts.flatMap freeNames).Nodup) :
    union parts = .ok (assembled (parts.flatMap declared) (parts.flatMap factors)) := by
  have hdeclare : ∀ (rest : List (FactorGraph W L)) (done : List (String × List String)),
      (∀ part ∈ rest, part.Sound) → (done.map Prod.fst ++ rest.flatMap freeNames).Nodup →
      rest.foldlM (fun g part => part.freeNames.foldlM (fun g v => do
        g.addVariable v (.labels (← part.labelsOf v))) g) (assembled done [] : FactorGraph W L)
        = .ok (assembled (done ++ rest.flatMap declared) []) := by
    intro rest
    induction rest with
    | nil => exact fun done _ _ => by rw [List.flatMap_nil, List.append_nil]; rfl
    | cons part rest ih =>
      intro done hrest hnew
      rw [List.flatMap_cons, ← List.append_assoc] at hnew
      have hfirst := (hrest part List.mem_cons_self).declare_part []
        (List.nodup_append.1 hnew).1
      rw [List.foldlM_cons, hfirst, List.flatMap_cons, ← List.append_assoc]
      refine ih _ (fun p hp => hrest p (List.mem_cons_of_mem part hp)) ?_
      rwa [List.map_append, map_fst_declared]
  have hkeys : ((parts.flatMap declared).map Prod.fst).Nodup :=
    map_fst_flatMap_declared parts ▸ hnodup
  have hadd : ∀ (rest : List (FactorGraph W L)) (fs : List (Factor W L)),
      (∀ part ∈ rest, part ∈ parts) →
      rest.foldlM (fun g part => part.factors.foldlM addFactor g)
          (assembled (parts.flatMap declared) fs)
        = .ok (assembled (parts.flatMap declared) (fs ++ rest.flatMap factors)) := by
    intro rest
    induction rest with
    | nil => exact fun fs _ => by rw [List.flatMap_nil, List.append_nil]; rfl
    | cons part rest ih =>
      intro fs hrest
      have hpart := hrest part List.mem_cons_self
      rw [List.foldlM_cons, addFactors_eq_ok hkeys fs fun f hf a ha =>
        freeAxes_subset_of_mem hpart ((hparts part hpart).within f hf a ha),
        List.flatMap_cons, ← List.append_assoc]
      exact ih _ fun p hp => hrest p (List.mem_cons_of_mem part hp)
  have hstart := hdeclare parts [] hparts hnodup
  rw [List.nil_append] at hstart
  rw [union]
  change (parts.foldlM _ (assembled [] [] : FactorGraph W L) >>= _) = _
  rw [hstart]
  exact hadd parts [] fun _ h => h

variable [WeightScale W] [WeightScale L]

/-- The union can be made by the calls that a caller has. -/
theorem reachable_union {parts : List (FactorGraph W L)} (hparts : ∀ part ∈ parts, part.Sound)
    (hnodup : (parts.flatMap freeNames).Nodup) :
    Reachable (assembled (parts.flatMap declared) (parts.flatMap factors)) := by
  refine reachable_assembled (map_fst_flatMap_declared parts ▸ hnodup) (fun e he => ?_)
    fun f hf a ha => ?_
  · obtain ⟨part, hpart, he⟩ := List.mem_flatMap.1 he
    obtain ⟨v, hv, rfl⟩ := List.mem_map.1 he
    exact ((hparts part hpart).labelsOf_eq_ok hv).2
  · obtain ⟨part, hpart, hf⟩ := List.mem_flatMap.1 hf
    exact freeAxes_subset_of_mem hpart ((hparts part hpart).within f hf a ha)

end Sound

/-- The joint weight of all factors is the product of the joint weights of the parts. -/
theorem jointWeightAt_assembled_flatMap [Semifield W] [LinearOrder W] [WeightScale W]
    [WeightScale L] [LogConversion W L] [ExactScale W] [ExactLog W L]
    (es : List (String × List String)) (parts : List (FactorGraph W L)) (x : JointState) :
    (assembled es (parts.flatMap factors)).jointWeightAt x
      = (parts.map (jointWeightAt · x)).prod := by
  have hpart : ∀ part : FactorGraph W L,
      (part.factors.map (Factor.weightAt · x)).prod = part.jointWeightAt x := fun part =>
    (Factor.productAt_eq_prod part.factors x).symm
  rw [jointWeightAt, Factor.productAt_eq_prod]
  change ((parts.flatMap factors).map _).prod = _
  induction parts with
  | nil => rfl
  | cons part parts ih =>
    rw [List.flatMap_cons, List.map_append, List.prod_append, ih, hpart, List.map_cons,
      List.prod_cons]

end FactorGraph

end ExactInference
