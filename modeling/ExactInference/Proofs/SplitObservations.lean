import ExactInference.Proofs.ExactMarginals
import ExactInference.Proofs.RepeatedObservations

/-!
# Observing in parts and in any order

An assignment is accepted if it puts free variables into states that they have. Whether a variable
is free and how many states it has is not changed by observing other variables, so it makes no
difference in which parts an assignment arrives, in which order the parts arrive, or in which order
a part lists its variables: either all ways are refused, or all ways make the same graph. The graph
that is made has the weights of the old graph at the joint states with the observed states put in.
-/

namespace ExactInference

section Assigned

variable {σ : Type} [StateValue σ] {a b c : OrderedMap String σ} {x : JointState} {n : String}

namespace JointState

/-- The joint state with the assigned states put in. -/
def assign (x : JointState) (a : OrderedMap String σ) : JointState := fun n =>
  match (a.get? n).map StateValue.toInt with
  | some (.ok i) => i.toNat
  | _ => x n

/-- Variables without an assigned state stay as they are. -/
theorem assign_of_notMem (x : JointState) (hn : n ∉ a.keys) : x.assign a n = x n := by
  have hnone : a.get? n = none := Option.eq_none_iff_forall_ne_some.2 fun i hi =>
    hn (OrderedMap.mem_keys_of_get? hi)
  rw [assign, hnone]
  rfl

/-- What is written in an assignment is what is put in. -/
theorem assign_of_mem (x : JointState) (hnodup : a.keys.Nodup) {e : String × σ}
    (he : e ∈ a.entries) {s : ℕ} (hs : StateValue.toInt e.2 = .ok (s : Int)) :
    x.assign a e.1 = s := by
  rw [assign, (OrderedMap.mem_entries_iff hnodup).1 he, Option.map_some, hs]
  rfl

/-- The parts of an assignment that a joint state follows are followed too. -/
theorem Follows.of_subset (h : x.Follows a) (ha : a.keys.Nodup) (hb : b.keys.Nodup)
    (hsub : ∀ e ∈ b.entries, e ∈ a.entries) : x.Follows b := by
  intro n hn
  obtain ⟨e, he, rfl⟩ := List.mem_map.1 hn
  have hfound : a.get? e.1 = b.get? e.1 := by
    rw [(OrderedMap.mem_entries_iff ha).1 (hsub e he), (OrderedMap.mem_entries_iff hb).1 he]
  rw [← hfound]
  exact h e.1 (List.mem_map_of_mem (hsub e he))

end JointState

open JointState

namespace FactorGraph

variable {W L : Type} {g g' g₁ g₂ : FactorGraph W L}

/-- Whether an assignment puts free variables into states that they have. -/
def Admits (g : FactorGraph W L) (a : OrderedMap String σ) : Prop :=
  ∀ e ∈ a.entries, e.1 ∈ g.freeNames ∧
    ∃ s : ℕ, StateValue.toInt e.2 = .ok (s : Int) ∧ s < g.stateCountOf e.1

/-- The joint state with an admitted assignment put in follows the assignment. -/
theorem Admits.follows_assign (h : g.Admits a) (hnodup : a.keys.Nodup) (x : JointState) :
    (x.assign a).Follows a := by
  intro n hn
  obtain ⟨e, he, rfl⟩ := List.mem_map.1 hn
  obtain ⟨-, s, hs, -⟩ := h e he
  rw [x.assign_of_mem hnodup he hs, (OrderedMap.mem_entries_iff hnodup).1 he, Option.map_some, hs]

theorem Admits.mem_freeNames (h : g.Admits a) : ∀ n ∈ a.keys, n ∈ g.freeNames := by
  intro n hn
  obtain ⟨e, he, rfl⟩ := List.mem_map.1 hn
  exact (h e he).1

/-- Putting in an admitted assignment stays in range. -/
theorem Admits.inRange_assign (h : g.Admits a) (hnodup : a.keys.Nodup)
    (hx : ∀ v ∈ g.freeAxes, v.name ∉ a.keys → x v.name < v.card) :
    InRange g.freeAxes (x.assign a) := by
  intro v hv
  by_cases hin : v.name ∈ a.keys
  · obtain ⟨e, he, hname⟩ := List.mem_map.1 hin
    obtain ⟨-, s, hs, hlt⟩ := h e he
    have hput := x.assign_of_mem hnodup he hs
    rw [hname] at hput hlt
    rwa [hput, (mem_freeAxes.1 hv).2]
  · rw [x.assign_of_notMem hin]
    exact hx v hv hin

/-- Two graphs with the same variables, of which the same are free, with the same factors, and with
the same observed states, whenever they were observed. -/
structure SameModel (g h : FactorGraph W L) : Prop where
  /-- The same variables, with the same labels. -/
  states_eq : g.states = h.states
  /-- The same variables are free. -/
  freeNames_eq : g.freeNames = h.freeNames
  /-- The factors have the same scopes and the same data, in the same representations. -/
  factors_eq : g.factors = h.factors
  /-- Every variable has the same observed state, if any. -/
  observed_eq : ∀ n, g.conditioned.get? n = h.conditioned.get? n
  /-- The same schedule, if any. -/
  hint_eq : g.hint = h.hint

/-- Two computations that make the same graph, or that are both refused. -/
def SameOutcome : Except Fault (FactorGraph W L) → Except Fault (FactorGraph W L) → Prop
  | .ok g, .ok h => SameModel g h
  | .error _, .error _ => True
  | _, _ => False

omit [StateValue σ] in
theorem keys_append (b c : OrderedMap String σ) :
    OrderedMap.keys ⟨b.entries ++ c.entries⟩ = b.keys ++ c.keys := List.map_append

variable [WeightScale W] [WeightScale L]

/-- An accepted assignment is admitted. -/
theorem Admits.of_conditional (h : g.conditional a = .ok g') : g.Admits a := by
  obtain ⟨observed, factors, hread, -, -⟩ := FactorGraph.of_conditional h
  intro e he
  obtain ⟨o, -, ho⟩ := exists_of_forall₂_left (mapM_eq_ok_iff.1 hread) he
  obtain ⟨hfree, s, hs, hlt, -⟩ := readObservation_eq_ok_iff.1 ho
  exact ⟨hfree, s, hs, hlt⟩

/-- What is admitted after an observation was admitted before it. -/
theorem Admits.before (h : g.conditional b = .ok g₁) (hc : g₁.Admits c) : g.Admits c := by
  intro e he
  obtain ⟨hfree, hstate⟩ := hc e he
  have hsame : g₁.stateCountOf e.1 = g.stateCountOf e.1 := by
    obtain ⟨observed, factors, -, -, rfl⟩ := FactorGraph.of_conditional h
    rfl
  exact ⟨((mem_freeNames_conditional h).1 hfree).1, hsame ▸ hstate⟩

/-- The assignments that are admitted are accepted. -/
theorem Sound.conditional_eq_ok_iff (hg : g.Sound) (hnodup : a.keys.Nodup) :
    (∃ g', g.conditional a = .ok g') ↔ g.Admits a := by
  constructor
  · rintro ⟨g', h⟩
    exact Admits.of_conditional h
  · intro h
    have hin := h.inRange_assign hnodup (x := origin) fun v hv _ => hg.card_pos v hv
    obtain ⟨factors, -, hg'⟩ :=
      hg.conditional_eq_ok hin (h.follows_assign hnodup origin) hnodup h.mem_freeNames
    exact ⟨_, hg'⟩

/-- A graph is the slice of another one: the variables without an assigned state stay free, and the
weight at any of their joint states is the weight with the assigned states put in. -/
structure SliceOf [LogConversion W L]
    (g : FactorGraph W L) (a : OrderedMap String σ) (g' : FactorGraph W L) :
    Prop where
  /-- The assigned variables are not free any more. -/
  mem_freeNames : ∀ n, n ∈ g'.freeNames ↔ n ∈ g.freeNames ∧ n ∉ a.keys
  /-- The product of all factors is the product of the old ones at the completed joint state. -/
  weight_eq : ∀ x, InRange g'.freeAxes x → g'.jointWeightAt x = g.jointWeightAt (x.assign a)

/-- Observing an assignment makes a slice. -/
theorem Sound.sliceOf_conditional [LogConversion W L] (hg : g.Sound) (hnodup : a.keys.Nodup)
    (h : g.conditional a = .ok g') : g.SliceOf a g' := by
  have hadmits := Admits.of_conditional h
  have hfree : ∀ n, n ∈ g'.freeNames ↔ n ∈ g.freeNames ∧ n ∉ a.keys := fun n =>
    mem_freeNames_conditional h
  refine ⟨hfree, fun x hx => ?_⟩
  have hcount : ∀ n, g'.stateCountOf n = g.stateCountOf n := by
    obtain ⟨observed, factors, -, -, rfl⟩ := FactorGraph.of_conditional h
    exact fun n => rfl
  have hin : InRange g.freeAxes (x.assign a) := hadmits.inRange_assign hnodup fun v hv hout => by
    obtain ⟨hname, hcard⟩ := mem_freeAxes.1 hv
    exact hx v (mem_freeAxes.2 ⟨(hfree v.name).2 ⟨hname, hout⟩, hcard.trans (hcount _).symm⟩)
  calc g'.jointWeightAt x
      = g'.jointWeightAt (x.assign a) :=
        (hg.conditional h).reads_jointWeightAt x (x.assign a) fun n hn =>
          (x.assign_of_notMem ((hfree n).1 (List.mem_toFinset.1 hn)).2).symm
    _ = g.jointWeightAt (x.assign a) :=
        hg.jointWeightAt_conditional h hin (hadmits.follows_assign hnodup x)

/-- The order in which an assignment lists its variables makes no difference. -/
theorem Sound.conditional_perm (hg : g.Sound) (hnodup : a.keys.Nodup)
    (hperm : b.entries.Perm a.entries) (hg₁ : g.conditional b = .ok g₁)
    (hg₂ : g.conditional a = .ok g₂) : SameModel g₁ g₂ := by
  have hkeys : b.keys.Perm a.keys := hperm.map Prod.fst
  have hnodup' : b.keys.Nodup := hkeys.nodup_iff.2 hnodup
  have hcontains : ∀ n, b.contains n = a.contains n := fun n => by
    rw [Bool.eq_iff_iff, OrderedMap.contains_iff_mem_keys, OrderedMap.contains_iff_mem_keys,
      hkeys.mem_iff]
  have hadmits := Admits.of_conditional hg₂
  -- Both assignments put the same joint state in, so they write the same observed states.
  have hin := hadmits.inRange_assign hnodup (x := origin) fun v hv _ => hg.card_pos v hv
  have ha := hadmits.follows_assign hnodup origin
  have hb : (origin.assign a).Follows b := ha.of_subset hnodup hnodup' fun e => hperm.mem_iff.1
  generalize origin.assign a = y at hin ha hb
  obtain ⟨fs₁, hfs₁, hok₁⟩ := hg.conditional_eq_ok hin hb hnodup' fun n hn =>
    hadmits.mem_freeNames n (hkeys.mem_iff.1 hn)
  obtain ⟨fs₂, hfs₂, hok₂⟩ := hg.conditional_eq_ok hin ha hnodup hadmits.mem_freeNames
  have hfactors : fs₁ = fs₂ := by
    have hsame := mapM_congr_left fun f hf =>
      Factor.conditional_congr ((hg.within f hf).inRange hin) hb ha hcontains
    exact Except.ok.inj (hfs₁.symm.trans (hsame.trans hfs₂))
  have hobserved : ∀ n, (g.conditioned.insertAll (observationOf y b.keys)).get? n
      = (g.conditioned.insertAll (observationOf y a.keys)).get? n := by
    intro n
    by_cases hn : n ∈ a.keys
    · have hn' : n ∈ b.keys := hkeys.mem_iff.2 hn
      rw [observationOf, observationOf, OrderedMap.get?_insertAll_of_mem hn,
        OrderedMap.get?_insertAll_of_mem hn']
    · have hn' : n ∉ b.keys := fun hin => hn (hkeys.mem_iff.1 hin)
      rw [OrderedMap.get?_insertAll_of_notMem, OrderedMap.get?_insertAll_of_notMem]
      · rwa [map_fst_observationOf]
      · rwa [map_fst_observationOf]
  cases hok₁.symm.trans hg₁
  cases hok₂.symm.trans hg₂
  refine ⟨rfl, ?_, hfactors, hobserved, rfl⟩
  rw [freeNames, freeNames]
  simp only [OrderedMap.contains, hobserved]

/-- Observing two parts one after the other is observing them written one behind the other. -/
theorem Sound.conditional_append (hg : g.Sound) (hnodup : (b.keys ++ c.keys).Nodup)
    (hadmits : g.Admits ⟨b.entries ++ c.entries⟩) :
    (g.conditional b >>= fun h => h.conditional c) = g.conditional ⟨b.entries ++ c.entries⟩ := by
  have hkeys := keys_append b c
  have hboth : (OrderedMap.keys ⟨b.entries ++ c.entries⟩).Nodup := hkeys ▸ hnodup
  have hparts := List.nodup_append.1 hnodup
  have hin := hadmits.inRange_assign hboth (x := origin) fun v hv _ => hg.card_pos v hv
  have hy := hadmits.follows_assign hboth origin
  have hb := hy.of_subset hboth hparts.1 fun e he => List.mem_append.2 (Or.inl he)
  have hc := hy.of_subset hboth hparts.2.1 fun e he => List.mem_append.2 (Or.inr he)
  exact hg.conditional_conditional hin hb hc hy hkeys hboth hadmits.mem_freeNames

/-- Observing the parts of an assignment one after the other is observing the assignment: it makes
the same graph, or both are refused. -/
theorem Sound.conditional_split (hg : g.Sound) (hnodup : a.keys.Nodup)
    (hsplit : (b.entries ++ c.entries).Perm a.entries) :
    SameOutcome (g.conditional b >>= fun h => h.conditional c) (g.conditional a) := by
  have hparts : (b.keys ++ c.keys).Nodup := by
    rw [← keys_append]
    exact (hsplit.map Prod.fst).nodup_iff.2 hnodup
  cases hwhole : g.conditional a with
  | ok g₂ =>
    have hadmits : g.Admits ⟨b.entries ++ c.entries⟩ := fun e he =>
      Admits.of_conditional hwhole e (hsplit.mem_iff.1 he)
    have htwice := hg.conditional_append hparts hadmits
    cases hlisted : g.conditional ⟨b.entries ++ c.entries⟩ with
    | ok g₁ =>
      rw [htwice, hlisted]
      exact hg.conditional_perm hnodup hsplit hlisted hwhole
    | error fault =>
      obtain ⟨g₁, hg₁⟩ := (hg.conditional_eq_ok_iff (keys_append b c ▸ hparts)).2 hadmits
      cases hg₁.symm.trans hlisted
  | error fault =>
    cases htwice : g.conditional b >>= fun h => h.conditional c with
    | error => trivial
    | ok g₂ =>
      -- If both parts were accepted, the whole would be admitted.
      obtain ⟨g₁, hg₁, hg₂⟩ := bind_eq_ok_iff.1 htwice
      have hb := Admits.of_conditional hg₁
      have hc := (Admits.of_conditional hg₂).before hg₁
      have hadmits : g.Admits a := fun e he =>
        (List.mem_append.1 (hsplit.mem_iff.2 he)).elim (hb e) (hc e)
      obtain ⟨g', hg'⟩ := (hg.conditional_eq_ok_iff hnodup).2 hadmits
      cases hg'.symm.trans hwhole

end FactorGraph

open FactorGraph

/-- Observing an assignment is slicing. An assignment is accepted exactly if it puts free variables
into states that they have; it makes the graph of the other free variables whose weights are those
at the completed joint states; and if it is split into two parts then observing them one after the
other, in either order, makes the same graph or is refused like the whole. -/
theorem conditional_slices {W L : Type} [WeightScale W] [WeightScale L] [LogConversion W L]
    {g : FactorGraph W L} (hg : g.Reachable) (hnodup : a.keys.Nodup) :
    ((∃ g', g.conditional a = .ok g') ↔ g.Admits a) ∧
      (∀ g', g.conditional a = .ok g' → g.SliceOf a g') ∧
      ∀ b c : OrderedMap String σ, (b.entries ++ c.entries).Perm a.entries →
        SameOutcome (g.conditional b >>= fun h => h.conditional c) (g.conditional a) ∧
        SameOutcome (g.conditional c >>= fun h => h.conditional b) (g.conditional a) := by
  refine ⟨hg.sound.conditional_eq_ok_iff hnodup,
    fun g' h => hg.sound.sliceOf_conditional hnodup h, fun b c hsplit => ⟨?_, ?_⟩⟩
  · exact hg.sound.conditional_split hnodup hsplit
  · exact hg.sound.conditional_split hnodup (List.perm_append_comm.trans hsplit)

end Assigned

/-- Two variables of three, observed together or the second one first. -/
theorem conditional_slices_pairOfFactors :
    ∃ g : FactorGraph ℚ≥0 (FormalLog ℚ≥0), ∃ g',
      FactorGraph.ofFactors CliqueTree.pairOfFactors = .ok g ∧
      g.conditional (OrderedMap.ofList [("A", (1 : Int)), ("C", 0)]) = .ok g' ∧
      g.SliceOf (OrderedMap.ofList [("A", (1 : Int)), ("C", 0)]) g' ∧
      FactorGraph.SameOutcome (g.conditional (OrderedMap.ofList [("C", (0 : Int))]) >>= fun h =>
        h.conditional (OrderedMap.ofList [("A", (1 : Int))])) (.ok g') := by
  obtain ⟨g, hg, hcheck⟩ := exists_of_passes (x := FactorGraph.ofFactors CliqueTree.pairOfFactors)
    (fun g => (g.conditional (OrderedMap.ofList [("A", (1 : Int)), ("C", 0)])).toBool)
    (by decide +kernel)
  obtain ⟨g', hg'⟩ := exists_of_toBool hcheck
  obtain ⟨-, hslice, hsplit⟩ := conditional_slices (.ofFactors hg)
    (a := OrderedMap.ofList [("A", (1 : Int)), ("C", 0)]) (by decide)
  have hboth := hsplit (OrderedMap.ofList [("A", 1)]) (OrderedMap.ofList [("C", 0)])
    (List.Perm.refl _)
  rw [hg'] at hboth
  exact ⟨g, g', hg, hg', hslice g' hg', hboth.2⟩

end ExactInference
