import ExactInference.Proofs.Decoding
import ExactInference.Proofs.Observations

/-!
# Observing variables after others

Observed variables are put at their states. So the weight of a graph after an observation is its
weight before at a joint state that agrees with the observation, and observing more variables later
makes the same graph as observing all of them at once. Whatever an engine needs for a graph it has
for the graph that an observation leaves.
-/

namespace ExactInference

/-- Whether a joint state gives every observed variable its observed state. -/
def JointState.Agrees (a : OrderedMap String Int) (x : JointState) : Prop :=
  ∀ n ∈ a.keys, a.get? n = some (x n : Int)

instance (a : OrderedMap String Int) : DecidablePred (JointState.Agrees a) := fun x =>
  inferInstanceAs (Decidable (∀ n ∈ a.keys, a.get? n = some (x n : Int)))

/-- Whether a joint state gives every assigned variable the state that its value is read as. -/
def JointState.Follows {σ : Type} [StateValue σ] (a : OrderedMap String σ)
    (x : JointState) : Prop :=
  ∀ n ∈ a.keys, (a.get? n).map StateValue.toInt = some (.ok (x n : Int))

namespace JointState

variable {a b c : OrderedMap String Int} {x : JointState} {n : String}

/-- Observed states are read as they are. -/
theorem Agrees.follows (h : Agrees a x) : Follows a x := fun n hn =>
  congrArg (Option.map StateValue.toInt) (h n hn)

/-- The value of any variable is read as the state that it has in the joint state, or there is
none. -/
theorem Follows.get?_eq {σ : Type} [StateValue σ] {a : OrderedMap String σ} (h : Follows a x)
    (n : String) : (a.get? n).map StateValue.toInt = some (.ok (x n : Int)) ∨ a.get? n = none := by
  by_cases hn : n ∈ a.keys
  · exact Or.inl (h n hn)
  · refine Or.inr (Option.eq_none_iff_forall_ne_some.2 fun i hi => hn ?_)
    exact OrderedMap.mem_keys_of_get? hi

/-- A joint state agrees with one observation more if it has the observed state. -/
theorem agrees_insert_iff {i : Int} (hn : n ∉ a.keys) :
    Agrees (a.insert n i) x ↔ Agrees a x ∧ i = (x n : Int) := by
  have hold : ∀ m ∈ a.keys, (a.insert n i).get? m = a.get? m := fun m hm =>
    OrderedMap.get?_insert_of_ne a (fun he : m = n => hn (he ▸ hm)) i
  constructor
  · intro h
    refine ⟨fun m hm => hold m hm ▸ h m (OrderedMap.mem_keys_insert.2 (Or.inl hm)), ?_⟩
    have hown := h n (OrderedMap.mem_keys_insert.2 (Or.inr rfl))
    rw [OrderedMap.get?_insert_self] at hown
    exact Option.some.inj hown
  · rintro ⟨h, rfl⟩ m hm
    rcases OrderedMap.mem_keys_insert.1 hm with hm | rfl
    · rw [hold m hm, h m hm]
    · exact OrderedMap.get?_insert_self a m _

/-- Putting in the states that a joint state has leaves it as it is. -/
theorem observe_restrict_self (x : JointState) (ns : List String) :
    x.observe (x.restrict ns) = x := by
  funext n
  rw [observe_restrict, ite_self]

/-- Taking fewer variables before makes no difference. -/
theorem splice_splice {vars more : Finset String} (h : vars ⊆ more) (x y : JointState) :
    splice more (splice vars x y) y = splice vars x y := by
  funext n
  unfold splice
  by_cases hn : n ∈ vars
  · rw [if_pos (h hn)]
  · rw [if_neg hn, ite_self]

end JointState

open JointState

/-- A table is given by its scope and by its numbers at the joint states in range. -/
theorem Table.eq_of_weightAt {α : Type} [WeightScale α] {t u : Table α} (hscope : t.scope = u.scope)
    (h : ∀ x, InRange t.scope.axes x → t.weightAt x = u.weightAt x) : t = u := by
  refine Table.ext hscope (Array.toList_inj.1 ?_)
  change t.toList = u.toList
  rw [toList_eq_map_weightAt, toList_eq_map_weightAt, ← hscope]
  exact List.map_congr_left fun x hx => h x ((mem_completions t.scope.distinct).1 hx).2

section Observed

variable {σ τ υ : Type} [StateValue σ] [StateValue τ] [StateValue υ] {a : OrderedMap String σ}
  {b : OrderedMap String τ} {c : OrderedMap String υ} {x y : JointState}

namespace Table

variable {α : Type} [WeightScale α] {t u : Table α}

/-- A table can be restricted to the states of a joint state in range. -/
theorem exists_conditional (hy : InRange t.scope.axes y) (ha : y.Follows a) :
    ∃ u, t.conditional a = .ok u ∧ (u.scope = t.scope.keep fun n => !a.contains n) ∧
      u.scope.Within t.scope.axes :=
  ⟨_, conditional_eq_ok (observedOn_eq_ok hy fun _ _ => ha.get?_eq _), rfl,
    fun _ hb => (List.mem_filter.1 hb).1⟩

/-- A restricted table has the same number at a joint state that agrees with what was observed. -/
theorem weightAt_of_follows (hu : t.conditional a = .ok u) (hx : InRange t.scope.axes x)
    (ha : x.Follows a) : u.weightAt x = t.weightAt x := by
  obtain ⟨u', hu', -, hwithin⟩ := exists_conditional hx ha
  cases hu'.symm.trans hu
  have hobserved := observedOn_eq_ok hx fun b _ => ha.get?_eq b.name
  rw [weightAt_conditional hu hobserved (hwithin.inRange hx), observe_restrict_self]

/-- The other variables of a joint state matter for the restricted table, and what was observed
decides the rest. -/
theorem weightAt_splice (hu : t.conditional a = .ok u) (hy : InRange t.scope.axes y)
    (ha : y.Follows a) (hx : InRange u.scope.axes x) :
    u.weightAt x = t.weightAt (splice u.names.toFinset x y) := by
  obtain ⟨u', hu', hscope, hwithin⟩ := exists_conditional hy ha
  cases hu'.symm.trans hu
  have hagrees : (splice u.names.toFinset x y).Follows a := fun n hn => by
    have hout : n ∉ u.names.toFinset := fun hin => by
      rw [List.mem_toFinset, names, hscope, Scope.mem_names_keep,
        (OrderedMap.contains_iff_mem_keys a n).2 hn] at hin
      cases hin.2
    rw [show splice u.names.toFinset x y n = y n from if_neg hout]
    exact ha n hn
  calc u.weightAt x
      = u.weightAt (splice u.names.toFinset x y) :=
        u.weightAt_congr fun n hn => (if_pos (List.mem_toFinset.2 hn)).symm
    _ = t.weightAt (splice u.names.toFinset x y) :=
        weightAt_of_follows hu (hwithin.inRange_splice t.scope.distinct hx hy) hagrees

/-- Restricting a table twice restricts it once to all that is observed. -/
theorem conditional_conditional (hy : InRange t.scope.axes y) (ha : y.Follows a) (hb : y.Follows b)
    (hc : y.Follows c) (hkeys : ∀ n, c.contains n = (a.contains n || b.contains n)) :
    (t.conditional a >>= fun u => u.conditional b) = t.conditional c := by
  obtain ⟨u, hu, huscope, huwithin⟩ := exists_conditional hy ha
  have hyu := huwithin.inRange hy
  obtain ⟨v, hv, hvscope, hvwithin⟩ := exists_conditional hyu hb
  obtain ⟨w, hw, hwscope, -⟩ := exists_conditional hy hc
  have hscope : v.scope = w.scope := by
    rw [hvscope, huscope, hwscope]
    simp only [Scope.keep, List.filter_filter, hkeys, Bool.not_or, Bool.and_comm]
  have hsub : v.names.toFinset ⊆ u.names.toFinset := fun n hn =>
    List.mem_toFinset.2 (hvwithin.mem_names (List.mem_toFinset.1 hn))
  rw [hu, hw]
  refine hv.trans (congrArg Except.ok (eq_of_weightAt hscope fun x hx => ?_))
  calc v.weightAt x
      = u.weightAt (splice v.names.toFinset x y) := weightAt_splice hv hyu hb hx
    _ = t.weightAt (splice u.names.toFinset (splice v.names.toFinset x y) y) :=
        weightAt_splice hu hy ha (hvwithin.inRange_splice u.scope.distinct hx hyu)
    _ = t.weightAt (splice v.names.toFinset x y) := by rw [splice_splice hsub]
    _ = t.weightAt (splice w.names.toFinset x y) := by rw [names, hscope, names]
    _ = w.weightAt x := (weightAt_splice hw hy hc (hscope ▸ hx)).symm

end Table

section Factors

variable {W L : Type}

namespace Factor

variable [WeightScale W] [WeightScale L] {f g : Factor W L}

/-- A factor can be restricted to the states of a joint state in range. -/
theorem exists_conditional (hy : InRange f.scope.axes y) (ha : y.Follows a) :
    ∃ g, f.conditional a = .ok g :=
  ⟨_, conditional_eq_ok (Table.observedOn_eq_ok hy fun _ _ => ha.get?_eq _)⟩

/-- Restricting a factor twice restricts it once to all that is observed. -/
theorem conditional_conditional (hy : InRange f.scope.axes y) (ha : y.Follows a) (hb : y.Follows b)
    (hc : y.Follows c) (hkeys : ∀ n, c.contains n = (a.contains n || b.contains n)) :
    (f.conditional a >>= fun g => g.conditional b) = f.conditional c := by
  cases f with
  | plain t =>
    have htable := Table.conditional_conditional hy ha hb hc hkeys
    change (plain <$> t.conditional a >>= _) = plain <$> t.conditional c
    rw [← htable]
    cases t.conditional a <;> rfl
  | log t =>
    have htable := Table.conditional_conditional hy ha hb hc hkeys
    change (log <$> t.conditional a >>= _) = log <$> t.conditional c
    rw [← htable]
    cases t.conditional a <;> rfl

/-- Two assignments of the same variables that stand for the same states restrict a factor alike. -/
theorem conditional_congr (hy : InRange f.scope.axes y) (ha : y.Follows a) (hb : y.Follows b)
    (hkeys : ∀ n, a.contains n = b.contains n) : f.conditional a = f.conditional b := by
  rw [conditional_eq_ok (Table.observedOn_eq_ok hy fun _ _ => ha.get?_eq _),
    conditional_eq_ok (Table.observedOn_eq_ok hy fun _ _ => hb.get?_eq _)]
  simp only [observing, hkeys]

variable [LogConversion W L]

/-- A restricted factor has the same weight at a joint state that agrees with what was observed. -/
theorem weights_weightAt_of_follows (h : f.conditional a = .ok g) (hx : InRange f.scope.axes x)
    (ha : x.Follows a) : g.weights.weightAt x = f.weights.weightAt x := by
  have hwithin : g.scope.Within f.scope.axes := by
    rw [scope_conditional h]
    exact fun _ hb => (List.mem_filter.1 hb).1
  cases f with
  | plain t =>
    obtain ⟨u, hu, rfl⟩ := map_eq_ok_iff.1 h
    exact Table.weightAt_of_follows hu hx ha
  | log t =>
    obtain ⟨u, hu, rfl⟩ := map_eq_ok_iff.1 h
    rw [weights, weights, Table.weightAt_map _ _ (hwithin.inRange hx), Table.weightAt_map _ _ hx,
      Table.weightAt_of_follows hu hx ha]

theorem map_weightAt_of_follows {fs ks : List (Factor W L)}
    (h : List.Forall₂ (fun f k => f.conditional a = .ok k) fs ks)
    (hx : ∀ f ∈ fs, InRange f.scope.axes x) (ha : x.Follows a) :
    (ks.map fun k => k.weights.weightAt x) = fs.map fun f => f.weights.weightAt x := by
  induction h with
  | nil => rfl
  | @cons f k fs ks hk _ ih =>
    rw [List.map_cons, List.map_cons, weights_weightAt_of_follows hk (hx f List.mem_cons_self) ha,
      ih fun f' hf' => hx f' (List.mem_cons_of_mem f hf')]

end Factor

namespace FactorGraph

variable {g g₁ g₂ : FactorGraph W L}

/-- An observation is read if it puts a free variable into one of its states. -/
theorem readObservation_eq_ok_iff {e : String × σ} {o : String × Int} :
    g.readObservation e = .ok o ↔ e.1 ∈ g.freeNames ∧
      ∃ s : ℕ, StateValue.toInt e.2 = .ok (s : Int) ∧ s < g.stateCountOf e.1 ∧
        o = (e.1, (s : Int)) := by
  rw [mem_freeNames, ← OrderedMap.contains_iff_mem_keys, ← OrderedMap.contains_iff_mem_keys,
    readObservation, stateCountOf]
  by_cases hobserved : g.conditioned.contains e.1 = true
  · cases g.states.get? e.1 <;> simp [hobserved]
  · cases hlabels : g.states.get? e.1 with
    | none => simp [OrderedMap.contains, hlabels]
    | some labels =>
      have hdeclared : g.states.contains e.1 = true := by rw [OrderedMap.contains, hlabels]; rfl
      change (if g.conditioned.contains e.1 = true then _ else _) = _ ↔ _
      rw [if_neg hobserved, bind_eq_ok_iff]
      constructor
      · rintro ⟨i, hi, h⟩
        split at h
        next hin =>
          obtain ⟨s, rfl⟩ := Int.eq_ofNat_of_zero_le hin.1
          cases h
          exact ⟨⟨hdeclared, hobserved⟩, s, hi, Int.ofNat_lt.1 hin.2, rfl⟩
        next => cases h
      · rintro ⟨-, s, hs, hlt, rfl⟩
        exact ⟨s, hs, if_pos ⟨Int.natCast_nonneg s, Int.ofNat_lt.2 hlt⟩⟩

/-- Whole numbers are read as they are. -/
theorem readObservations_eq {a : OrderedMap String Int} {observed : List (String × Int)}
    (h : a.entries.mapM g.readObservation = .ok observed) : observed = a.entries := by
  have hall : List.Forall₂ (· = ·) a.entries observed :=
    (mapM_eq_ok_iff.1 h).imp fun e o ho => by
      obtain ⟨hname, hstate, -⟩ := of_readObservation ho
      exact Prod.ext hname.symm (Except.ok.inj hstate)
  rw [List.forall₂_eq_eq_eq] at hall
  exact hall.symm

/-- The observation that puts some variables into their states. -/
def observationOf (y : JointState) (names : List String) : List (String × Int) :=
  names.map fun n => (n, (y n : Int))

theorem map_fst_observationOf (y : JointState) (names : List String) :
    (observationOf y names).map Prod.fst = names := by
  rw [observationOf, List.map_map]
  exact List.map_id _

namespace Sound

variable [WeightScale W] [WeightScale L]

/-- The states that a joint state in range gives to free variables can be observed. -/
theorem conditional_eq_ok (hg : g.Sound) (hy : InRange g.freeAxes y) (ha : y.Follows a)
    (hnodup : a.keys.Nodup) (hfree : ∀ n ∈ a.keys, n ∈ g.freeNames) :
    ∃ factors, g.factors.mapM (Factor.conditional · a) = .ok factors ∧
      g.conditional a = .ok { g with
        factors
        conditioned := g.conditioned.insertAll (observationOf y a.keys)
        hint := none } := by
  have hread : a.entries.mapM g.readObservation
      = .ok (a.entries.map fun e => (e.1, (y e.1 : Int))) := by
    refine mapM_eq_ok fun e he => ?_
    have hkey : e.1 ∈ a.keys := List.mem_map_of_mem he
    have hlt : y e.1 < g.stateCountOf e.1 :=
      hy ⟨e.1, g.stateCountOf e.1⟩ (mem_freeAxes.2 ⟨hfree e.1 hkey, rfl⟩)
    have hvalue := ha e.1 hkey
    rw [(OrderedMap.mem_entries_iff hnodup).1 he] at hvalue
    exact readObservation_eq_ok_iff.2
      ⟨hfree e.1 hkey, y e.1, Option.some.inj hvalue, hlt, rfl⟩
  choose! rest hrest using fun (f : Factor W L) (hf : f ∈ g.factors) =>
    Factor.exists_conditional ((hg.within f hf).inRange hy) ha
  have hfactors := mapM_eq_ok hrest
  refine ⟨_, hfactors, ?_⟩
  rw [FactorGraph.conditional, hread]
  change (g.factors.mapM (Factor.conditional · a) >>= _) = _
  rw [hfactors, observationOf, OrderedMap.keys, List.map_map]
  rfl

/-- A joint state in range of a graph is in range after an observation. -/
theorem inRange_conditional (hy : InRange g.freeAxes y) (h : g.conditional a = .ok g₁) :
    InRange g₁.freeAxes y := fun b hb => by
  obtain ⟨hn, hcard⟩ := mem_freeAxes.1 hb
  have hsame : g₁.stateCountOf b.name = g.stateCountOf b.name := by
    obtain ⟨observed, factors, -, -, rfl⟩ := of_conditional h
    rfl
  exact hy b (mem_freeAxes.2 ⟨((mem_freeNames_conditional h).1 hn).1, hcard.trans hsame⟩)

/-- Observing some variables and then others is observing all of them. -/
theorem conditional_conditional (hg : g.Sound) (hy : InRange g.freeAxes y) (ha : y.Follows a)
    (hb : y.Follows b) (hc : y.Follows c) (hkeys : c.keys = a.keys ++ b.keys)
    (hnodup : c.keys.Nodup) (hfree : ∀ n ∈ c.keys, n ∈ g.freeNames) :
    (g.conditional a >>= fun h => h.conditional b) = g.conditional c := by
  have hboth : ∀ n, n ∈ c.keys ↔ n ∈ a.keys ∨ n ∈ b.keys := fun n => by rw [hkeys, List.mem_append]
  have hcontains : ∀ n, c.contains n = (a.contains n || b.contains n) := fun n => by
    rw [Bool.eq_iff_iff, Bool.or_eq_true, OrderedMap.contains_iff_mem_keys,
      OrderedMap.contains_iff_mem_keys, OrderedMap.contains_iff_mem_keys, hboth]
  obtain ⟨hna, hnb, hapart⟩ := List.nodup_append.1 (hkeys ▸ hnodup)
  obtain ⟨fs₁, hfs₁, hg₁⟩ :=
    hg.conditional_eq_ok hy ha hna fun n hn => hfree n ((hboth n).2 (Or.inl hn))
  obtain ⟨fs₂, hfs₂, hg₂⟩ := hg.conditional_eq_ok hy hc hnodup hfree
  obtain ⟨fs, hfs, hg'⟩ := (hg.conditional hg₁).conditional_eq_ok (inRange_conditional hy hg₁) hb
    hnb fun n hn => (mem_freeNames_conditional hg₁).2
      ⟨hfree n ((hboth n).2 (Or.inr hn)), fun hna => hapart n hna n hn rfl⟩
  have hsame : fs = fs₂ := Except.ok.inj <| hfs.symm.trans <| hfs₂ ▸ mapM_of_mapM hfs₁ fun f hf =>
    Factor.conditional_conditional ((hg.within f hf).inRange hy) ha hb hc hcontains
  rw [hg₁, hg₂]
  refine hg'.trans ?_
  rw [hsame, hkeys, observationOf, observationOf, observationOf, List.map_append,
    OrderedMap.insertAll, OrderedMap.insertAll, OrderedMap.insertAll, List.foldl_append]

/-- Observing variables and then one more is observing them all. -/
theorem conditional_insert {a : OrderedMap String Int} (hg : g.Sound) (hy : InRange g.freeAxes y)
    (hnodup : a.keys.Nodup) (hfree : ∀ n ∈ a.keys, n ∈ g.freeNames) {n : String}
    (hn : n ∈ g.freeNames) (hnew : n ∉ a.keys) (ha : y.Agrees a) (h₁ : g.conditional a = .ok g₁) :
    g₁.conditional (OrderedMap.ofList [(n, (y n : Int))])
      = g.conditional (a.insert n (y n : Int)) := by
  have hb : y.Agrees (OrderedMap.ofList [(n, (y n : Int))]) := fun m hm => by
    rw [List.mem_singleton.1 hm]
    exact OrderedMap.get?_insert_self _ n _
  have hc : y.Agrees (a.insert n (y n : Int)) := (agrees_insert_iff hnew).2 ⟨ha, rfl⟩
  have hkeys : (a.insert n (y n : Int)).keys = a.keys ++ [n] := by
    rw [OrderedMap.keys_insert, if_neg hnew]
  have htwice := hg.conditional_conditional hy ha.follows hb.follows hc.follows hkeys
    (OrderedMap.nodup_keys_insert hnodup n _)
    fun m hm => (OrderedMap.mem_keys_insert.1 hm).elim (hfree m) fun he => he ▸ hn
  rw [h₁] at htwice
  exact htwice

variable [LogConversion W L]

/-- At a joint state that agrees with what was observed a graph has the same weight. -/
theorem jointWeightAt_conditional (hg : g.Sound) (h : g.conditional a = .ok g₁)
    (hx : InRange g.freeAxes x) (ha : x.Follows a) : g₁.jointWeightAt x = g.jointWeightAt x := by
  obtain ⟨observed, factors, -, hfactors, rfl⟩ := of_conditional h
  have hsame := Factor.map_weightAt_of_follows (mapM_eq_ok_iff.1 hfactors)
    (fun f hf => (hg.within f hf).inRange hx) ha
  rw [jointWeightAt, jointWeightAt, productAt, productAt, hsame]

end Sound

end FactorGraph

end Factors

end Observed

namespace Engine

variable {g g' : FactorGraph W L} {e : Engine}

theorem soleFactor?_of_factors {f : Factor W L} (h : g.factors = [f])
    (hnames : ∀ n, n ∈ f.names ↔ n ∈ g.freeNames) : soleFactor? g = some f := by
  have hcovers : (covers f.names g.freeNames && covers g.freeNames f.names) = true := by
    rw [Bool.and_eq_true, covers_iff, covers_iff]
    exact ⟨fun n hn => (hnames n).2 hn, fun n hn => (hnames n).1 hn⟩
  rw [soleFactor?, h]
  exact if_pos hcovers

variable [WeightScale W] [WeightScale L] [LogConversion W L]

/-- What an engine needs for a graph is there after an observation. -/
theorem Equipped.conditional (h : e.Equipped g) (hg : g.Sound) {σ : Type} [StateValue σ]
    {a : OrderedMap String σ} (hg' : g.conditional a = .ok g') : e.Equipped g' := by
  have hfree : ∀ n, n ∈ g'.freeNames ↔ n ∈ g.freeNames ∧ n ∉ a.keys := fun n =>
    FactorGraph.mem_freeNames_conditional hg'
  rcases h with hnone | hsole | ⟨t, ht, -⟩
  · refine Or.inl (List.eq_nil_iff_forall_not_mem.2 fun n hn => ?_)
    rw [hfree, hnone] at hn
    exact List.not_mem_nil hn.1
  · obtain ⟨f, hf⟩ := Option.isSome_iff_exists.1 hsole
    obtain ⟨hfactors, hvars⟩ := soleFactor?_eq_some hf
    have hnames : ∀ n, n ∈ f.names ↔ n ∈ g.freeNames := fun n => by
      rw [← Factor.mem_vars, hvars, List.mem_toFinset]
    obtain ⟨k, hk, hfactors'⟩ : ∃ k, f.conditional a = .ok k ∧ g'.factors = [k] := by
      obtain ⟨observed, factors, -, hrest, rfl⟩ := FactorGraph.of_conditional hg'
      rw [hfactors, mapM_eq_ok_iff] at hrest
      obtain ⟨k, ks, hk, hnil, rfl⟩ := List.forall₂_cons_left_iff.1 hrest
      cases hnil
      exact ⟨k, hk, rfl⟩
    refine Or.inr (Or.inl (Option.isSome_of_eq_some (soleFactor?_of_factors hfactors' fun n => ?_)))
    rw [Factor.mem_names_conditional hk, hnames, hfree]
  · exact equipped_conditional hg ht hg' e

end Engine

end ExactInference
