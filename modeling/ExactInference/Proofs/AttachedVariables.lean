import Mathlib.Data.List.Nodup
import ExactInference.MarginalSet
import ExactInference.Proofs.Sequencing

/-!
# Variables that are observed later

A marginal set can take in more observed variables. A call looks at each of them on its own: whether
it is new, whether its number of states is given, and whether its state is one of them. So it makes
no difference whether the variables come in one call or one by one, nor in which order. What was
covered before stays as it was: the marginals, the total, and all observed states. The answers to
queries for covered variables only look at these, and stay the same.
-/

namespace ExactInference

namespace OrderedMap

variable {α : Type} {m : OrderedMap String α} {es ds : List (String × α)} {v : String}

theorem insertAll_concat (m : OrderedMap String α) (es : List (String × α)) (e : String × α) :
    m.insertAll (es ++ [e]) = (m.insertAll es).insert e.1 e.2 := List.foldl_concat ..

/-- An entry whose key is not written again is found. -/
theorem get?_insertAll_of_mem_entries (h : (es.map Prod.fst).Nodup) {a : α} (he : (v, a) ∈ es) :
    (m.insertAll es).get? v = some a := by
  induction es generalizing m with
  | nil => exact absurd he List.not_mem_nil
  | cons d es ih =>
    obtain ⟨hout, hrest⟩ := List.nodup_cons.1 h
    rcases List.mem_cons.1 he with rfl | he
    · exact (get?_insertAll_of_notMem hout).trans (get?_insert_self m v a)
    · exact ih hrest he

/-- What is found after writing entries with different keys is one of them, or was there before. -/
theorem get?_insertAll_iff (h : (es.map Prod.fst).Nodup) {a : α} :
    (m.insertAll es).get? v = some a ↔
      (v, a) ∈ es ∨ v ∉ es.map Prod.fst ∧ m.get? v = some a := by
  by_cases hv : v ∈ es.map Prod.fst
  · obtain ⟨⟨w, b⟩, he, rfl⟩ := List.mem_map.1 hv
    rw [get?_insertAll_of_mem_entries h he, Option.some.injEq]
    refine ⟨fun hba => Or.inl (hba ▸ he), fun ha => ?_⟩
    have ha := ha.resolve_right fun hno => hno.1 hv
    exact congrArg Prod.snd (List.inj_on_of_nodup_map h he ha rfl)
  · rw [get?_insertAll_of_notMem hv]
    exact ⟨fun ha => Or.inr ⟨hv, ha⟩, fun ha => (ha.resolve_left fun hin =>
      hv (List.mem_map_of_mem hin)).2⟩

/-- The order in which they are written makes no difference. -/
theorem get?_insertAll_perm (h : (ds.map Prod.fst).Nodup) (hperm : es.Perm ds) (v : String) :
    (m.insertAll es).get? v = (m.insertAll ds).get? v := by
  have hkeys := hperm.map Prod.fst
  refine Option.ext fun a => ?_
  rw [get?_insertAll_iff (hkeys.nodup_iff.2 h), get?_insertAll_iff h, hperm.mem_iff, hkeys.mem_iff]

/-- Writing a map over another one. -/
theorem get?_insertAll_entries {values : OrderedMap String α} (h : values.keys.Nodup) (v : String) :
    (m.insertAll values.entries).get? v = (values.get? v).or (m.get? v) := by
  refine Option.ext fun a => ?_
  rw [get?_insertAll_iff h, mem_entries_iff h, Option.or_eq_some_iff]
  refine or_congr_right (and_congr_left' ?_)
  rw [← Option.not_isSome_iff_eq_none]
  exact not_congr (contains_iff_mem_keys values v).symm

end OrderedMap

namespace MarginalSet

variable {W L : Type} {m m' m'' : MarginalSet W L} {values cards : OrderedMap String Int}
  {es : List (String × Int)} {e : String × Int} {v : String} {names : List String}

theorem mem_extendNames {seen names : List String} :
    v ∈ extendNames seen names ↔ v ∈ seen ∨ v ∈ names := by
  rw [extendNames, List.mem_append, List.mem_filter]
  by_cases hv : v ∈ seen
  · exact iff_of_true (Or.inl hv) (Or.inl hv)
  · simp [hv]

/-- The covered variables are those of the factors and the observed ones. -/
theorem mem_names : v ∈ m.names ↔ (∃ f ∈ m.factors, v ∈ f.names) ∨ v ∈ m.conditioned.keys := by
  have hfold : ∀ (fs : List (Factor W L)) (seen : List String),
      v ∈ fs.foldl (fun seen f => extendNames seen f.names) seen ↔
        v ∈ seen ∨ ∃ f ∈ fs, v ∈ f.names := by
    intro fs
    induction fs with
    | nil => simp
    | cons f fs ih =>
      intro seen
      rw [List.foldl_cons, ih, mem_extendNames, List.exists_mem_cons_iff, or_assoc]
  rw [MarginalSet.names, mem_extendNames, hfold]
  simp

/-- A variable that can be observed in a state as well. -/
def Attachable (m : MarginalSet W L) (cards : OrderedMap String Int) (e : String × Int) : Prop :=
  e.1 ∉ m.names ∧ ∃ n, cards.get? e.1 = some n ∧ 0 ≤ e.2 ∧ e.2 < n

/-- Why a variable cannot be observed in a state as well. -/
def Refuses (m : MarginalSet W L) (cards : OrderedMap String Int) (e : String × Int)
    (fault : Fault) : Prop :=
  (e.1 ∈ m.names ∧ fault = .alreadyCovered e.1) ∨
  (cards.get? e.1 = none ∧ fault = .cardinalityUnknown e.1) ∨
  ∃ n, cards.get? e.1 = some n ∧ ¬ (0 ≤ e.2 ∧ e.2 < n) ∧
    fault = .observedOutOfRange (toString e.2) e.1 (toString n)

/-- The set with more observed variables. -/
def attached (m : MarginalSet W L) (cards : OrderedMap String Int) (es : List (String × Int)) :
    MarginalSet W L :=
  { m with
    conditioned := m.conditioned.insertAll es
    cards := m.cards.insertAll (es.map fun e => (e.1, (cards.get? e.1).getD 0)) }

theorem Refuses.not_attachable {fault : Fault} (h : m.Refuses cards e fault) :
    ¬ m.Attachable cards e := by
  rintro ⟨hnew, n, hn, hstate⟩
  rcases h with ⟨hold, -⟩ | ⟨hnone, -⟩ | ⟨k, hk, hout, -⟩
  · exact hnew hold
  · cases hn.symm.trans hnone
  · cases hn.symm.trans hk
    exact hout hstate

theorem attached_concat (m : MarginalSet W L) (cards : OrderedMap String Int)
    (es : List (String × Int)) (e : String × Int) :
    (m.attached cards es).attached cards [e] = m.attached cards (es ++ [e]) := by
  rw [attached, attached, attached, OrderedMap.insertAll_concat, List.map_append,
    List.map_singleton, OrderedMap.insertAll_concat]
  rfl

/-- A call attaches all its variables, or one of them is refused. -/
theorem yields_addConditional (m : MarginalSet W L) (values cards : OrderedMap String Int) :
    Yields (fun fault => ∃ e ∈ values.entries, m.Refuses cards e fault)
      (fun m' => (∀ e ∈ values.entries, m.Attachable cards e) ∧
        m' = m.attached cards values.entries)
      (m.addConditional values cards) := by
  refine Yields.foldlM_done (P := fun done s => (∀ e ∈ done, m.Attachable cards e) ∧
    s = m.attached cards done) (fun done e rest hes s hs => ?_) ⟨by simp, rfl⟩
  obtain ⟨hdone, rfl⟩ := hs
  have he : e ∈ values.entries := hes ▸ List.mem_append_right done List.mem_cons_self
  by_cases hold : e.1 ∈ m.names
  · have hc : m.names.contains e.1 = true := List.contains_iff_mem.2 hold
    rw [if_pos hc]
    exact ⟨e, he, Or.inl ⟨hold, rfl⟩⟩
  · have hc : ¬ m.names.contains e.1 = true := fun hin => hold (List.contains_iff_mem.1 hin)
    rw [if_neg hc]
    cases hn : cards.get? e.1 with
    | none => exact ⟨e, he, Or.inr (Or.inl ⟨hn, rfl⟩)⟩
    | some n =>
      by_cases hstate : 0 ≤ e.2 ∧ e.2 < n
      · have hanswer : ∀ d ∈ done ++ [e], m.Attachable cards d :=
          List.forall_mem_append.2 ⟨hdone, List.forall_mem_singleton.2 ⟨hold, n, hn, hstate⟩⟩
        refine .of_eq_ok (if_pos (decide_eq_true hstate)) ⟨hanswer, ?_⟩
        rw [← attached_concat, attached, attached, List.map_singleton, hn]
        rfl
      · refine .of_eq_error (if_neg fun hin => hstate (of_decide_eq_true hin)) ?_
        exact ⟨e, he, Or.inr (Or.inr ⟨n, hn, hstate, rfl⟩)⟩

/-- A call is refused just if one of its variables cannot be attached. -/
theorem addConditional_eq_error_iff :
    (∃ fault, m.addConditional values cards = .error fault) ↔
      ∃ e ∈ values.entries, ¬ m.Attachable cards e := by
  have hcall := m.yields_addConditional values cards
  cases hm : m.addConditional values cards with
  | error fault =>
    obtain ⟨e, he, hrefused⟩ := hcall.fault_of_eq_error hm
    exact iff_of_true ⟨fault, rfl⟩ ⟨e, he, hrefused.not_attachable⟩
  | ok m' =>
    obtain ⟨hall, -⟩ := hcall.answer_of_eq_ok hm
    exact iff_of_false (fun ⟨_, h⟩ => by cases h) fun ⟨e, he, hno⟩ => hno (hall e he)

/-- Attach variables by one call for each of them. -/
def addEach (m : MarginalSet W L) (cards : OrderedMap String Int) (es : List (String × Int)) :
    Except Fault (MarginalSet W L) :=
  es.foldlM (fun m e => m.addConditional (OrderedMap.ofList [e]) cards) m

/-- Two calls that make sets with the same factors, total and observed variables, or that are both
refused. -/
def SameAttached : Except Fault (MarginalSet W L) → Except Fault (MarginalSet W L) → Prop
  | .ok m, .ok m' => m.factors = m'.factors ∧ m.logTotal = m'.logTotal ∧
    (∀ v, m.conditioned.get? v = m'.conditioned.get? v) ∧ ∀ v, m.cards.get? v = m'.cards.get? v
  | .error _, .error _ => True
  | _, _ => False

theorem mem_names_attached :
    v ∈ (m.attached cards es).names ↔ v ∈ m.names ∨ v ∈ es.map Prod.fst := by
  rw [mem_names, mem_names, or_assoc]
  exact or_congr_right OrderedMap.mem_keys_insertAll

/-- Variables that are attached one after the other are each looked at as in one call. -/
theorem yields_addEach (m : MarginalSet W L) (cards : OrderedMap String Int)
    (hnodup : (es.map Prod.fst).Nodup) :
    Yields (fun _ => ∃ e ∈ es, ¬ m.Attachable cards e)
      (fun m' => (∀ e ∈ es, m.Attachable cards e) ∧ m' = m.attached cards es)
      (m.addEach cards es) := by
  refine Yields.foldlM_done (P := fun done s => (∀ e ∈ done, m.Attachable cards e) ∧
    s = m.attached cards done) (fun done e rest hes s hs => ?_) ⟨by simp, rfl⟩
  obtain ⟨hdone, rfl⟩ := hs
  have hother : e.1 ∉ done.map Prod.fst := fun hin => by
    rw [hes, List.map_append] at hnodup
    exact (List.nodup_append.1 hnodup).2.2 e.1 hin e.1 List.mem_cons_self rfl
  have hsame : (m.attached cards done).Attachable cards e ↔ m.Attachable cards e := by
    rw [Attachable, Attachable, mem_names_attached, or_iff_left hother]
  refine (yields_addConditional _ (OrderedMap.ofList [e]) cards).imp ?_ ?_
  · rintro fault ⟨d, hd, hrefused⟩
    rw [List.mem_singleton.1 hd] at hrefused
    exact ⟨e, hes ▸ List.mem_append_right done List.mem_cons_self,
      fun hin => hrefused.not_attachable (hsame.2 hin)⟩
  · rintro m' ⟨hall, rfl⟩
    refine ⟨List.forall_mem_append.2 ⟨hdone, List.forall_mem_singleton.2 ?_⟩,
      attached_concat m cards done e⟩
    exact hsame.1 (hall e List.mem_cons_self)

/-- One call and single calls in any order do the same. -/
theorem sameAttached_addEach (hnodup : values.keys.Nodup) (hperm : es.Perm values.entries) :
    SameAttached (m.addEach cards es) (m.addConditional values cards) := by
  have hcall := m.yields_addConditional values cards
  have hkeys : (es.map Prod.fst).Nodup := (hperm.map Prod.fst).nodup_iff.2 hnodup
  have heach := m.yields_addEach cards hkeys
  cases hm : m.addConditional values cards with
  | error fault =>
    cases hm' : m.addEach cards es with
    | error fault' => trivial
    | ok m' =>
      obtain ⟨e, he, hrefused⟩ := hcall.fault_of_eq_error hm
      obtain ⟨hall, -⟩ := heach.answer_of_eq_ok hm'
      exact hrefused.not_attachable (hall e (hperm.mem_iff.2 he))
  | ok m' =>
    obtain ⟨hall, rfl⟩ := hcall.answer_of_eq_ok hm
    cases hm' : m.addEach cards es with
    | error fault =>
      obtain ⟨e, he, hno⟩ := heach.fault_of_eq_error hm'
      exact hno (hall e (hperm.mem_iff.1 he))
    | ok m'' =>
      obtain ⟨-, rfl⟩ := heach.answer_of_eq_ok hm'
      refine ⟨rfl, rfl, OrderedMap.get?_insertAll_perm hnodup hperm,
        OrderedMap.get?_insertAll_perm ?_ (hperm.map _)⟩
      rw [List.map_map]
      exact hnodup

/-- The sets that come from a set by calls that attach variables. -/
inductive Extends (m : MarginalSet W L) : MarginalSet W L → Prop
  /-- There was no call. -/
  | refl : Extends m m
  /-- One more call was accepted. -/
  | attach {m' m'' : MarginalSet W L} {values cards : OrderedMap String Int} :
    Extends m m' → values.keys.Nodup → m'.addConditional values cards = .ok m'' → Extends m m''

/-- What is covered by a set is the same in another one, which can have more observed variables. -/
structure Keeps (m m' : MarginalSet W L) : Prop where
  /-- The marginals are the same. -/
  factors_eq : m'.factors = m.factors
  /-- The total is the same. -/
  logTotal_eq : m'.logTotal = m.logTotal
  /-- Observed variables stay observed, and free ones stay free. -/
  get?_conditioned : ∀ v ∈ m.names, m'.conditioned.get? v = m.conditioned.get? v
  /-- The numbers of states are the same. -/
  get?_cards : ∀ v ∈ m.names, m'.cards.get? v = m.cards.get? v

/-- A set in which every observed variable is in one of its states. -/
def WellObserved (m : MarginalSet W L) : Prop :=
  ∀ v s, m.conditioned.get? v = some s → ∃ n, m.cards.get? v = some n ∧ 0 ≤ s ∧ s < n

theorem Keeps.refl (m : MarginalSet W L) : m.Keeps m := ⟨rfl, rfl, fun _ _ => rfl, fun _ _ => rfl⟩

theorem mem_names_of_mem_conditioned (hv : v ∈ m.conditioned.keys) : v ∈ m.names :=
  mem_names.2 (Or.inr hv)

/-- What is covered stays covered. -/
theorem Keeps.mem_names (h : m.Keeps m') (hv : v ∈ m.names) : v ∈ m'.names := by
  rcases MarginalSet.mem_names.1 hv with ⟨f, hf, hvf⟩ | hobserved
  · exact MarginalSet.mem_names.2 (Or.inl ⟨f, h.factors_eq ▸ hf, hvf⟩)
  · refine mem_names_of_mem_conditioned ((OrderedMap.contains_iff_mem_keys _ _).1 ?_)
    rw [OrderedMap.contains, h.get?_conditioned v hv]
    exact (OrderedMap.contains_iff_mem_keys _ _).2 hobserved

theorem Keeps.trans (h : m.Keeps m') (h' : m'.Keeps m'') : m.Keeps m'' where
  factors_eq := h'.factors_eq.trans h.factors_eq
  logTotal_eq := h'.logTotal_eq.trans h.logTotal_eq
  get?_conditioned v hv :=
    (h'.get?_conditioned v (h.mem_names hv)).trans (h.get?_conditioned v hv)
  get?_cards v hv := (h'.get?_cards v (h.mem_names hv)).trans (h.get?_cards v hv)

/-- What is covered in addition is observed. -/
theorem Keeps.mem_conditioned (h : m.Keeps m') (hv : v ∈ m'.names) (hnew : v ∉ m.names) :
    v ∈ m'.conditioned.keys := by
  refine (MarginalSet.mem_names.1 hv).resolve_left ?_
  rintro ⟨f, hf, hvf⟩
  exact hnew (MarginalSet.mem_names.2 (Or.inl ⟨f, h.factors_eq ▸ hf, hvf⟩))

/-- A call leaves everything as it is that was covered before. -/
theorem keeps_of_addConditional (h : m.addConditional values cards = .ok m') : m.Keeps m' := by
  obtain ⟨hall, rfl⟩ := (m.yields_addConditional values cards).answer_of_eq_ok h
  have hnew : ∀ v ∈ m.names, v ∉ values.entries.map Prod.fst := fun v hv hin => by
    obtain ⟨e, he, rfl⟩ := List.mem_map.1 hin
    exact (hall e he).1 hv
  refine ⟨rfl, rfl, fun v hv => OrderedMap.get?_insertAll_of_notMem (hnew v hv), fun v hv =>
    OrderedMap.get?_insertAll_of_notMem ?_⟩
  rw [List.map_map]
  exact hnew v hv

/-- After a call the new variables are in their given states, and have their given numbers of
states. -/
theorem get?_of_addConditional (hnodup : values.keys.Nodup)
    (h : m.addConditional values cards = .ok m') :
    (∀ v, m'.conditioned.get? v = (values.get? v).or (m.conditioned.get? v)) ∧
      ∀ v ∈ values.keys, m'.cards.get? v = cards.get? v := by
  obtain ⟨hall, rfl⟩ := (m.yields_addConditional values cards).answer_of_eq_ok h
  refine ⟨OrderedMap.get?_insertAll_entries hnodup, fun v hv => ?_⟩
  obtain ⟨e, he, rfl⟩ := List.mem_map.1 hv
  obtain ⟨-, n, hn, -⟩ := hall e he
  have hkeys :
      ((values.entries.map fun e => (e.1, (cards.get? e.1).getD 0)).map Prod.fst).Nodup := by
    rw [List.map_map]
    exact hnodup
  rw [hn]
  refine (OrderedMap.get?_insertAll_iff hkeys).2 (Or.inl (List.mem_map.2 ⟨e, he, ?_⟩))
  rw [hn]
  rfl

theorem WellObserved.of_addConditional (hm : m.WellObserved) (hnodup : values.keys.Nodup)
    (h : m.addConditional values cards = .ok m') : m'.WellObserved := by
  obtain ⟨hstates, hcards⟩ := get?_of_addConditional hnodup h
  have hkeeps := keeps_of_addConditional h
  obtain ⟨hall, -⟩ := (m.yields_addConditional values cards).answer_of_eq_ok h
  intro v s hs
  rw [hstates, Option.or_eq_some_iff] at hs
  rcases hs with hs | ⟨-, hs⟩
  · have he : (v, s) ∈ values.entries := (OrderedMap.mem_entries_iff hnodup).2 hs
    obtain ⟨-, n, hn, hstate⟩ := hall _ he
    exact ⟨n, (hcards v (List.mem_map_of_mem he)).trans hn, hstate⟩
  · rw [hkeeps.get?_cards v (mem_names_of_mem_conditioned (OrderedMap.mem_keys_of_get? hs))]
    exact hm v s hs

theorem Extends.keeps (h : Extends m m') : m.Keeps m' := by
  induction h with
  | refl => exact .refl m
  | attach _ _ hcall ih => exact ih.trans (keeps_of_addConditional hcall)

theorem Extends.wellObserved (h : Extends m m') (hm : m.WellObserved) : m'.WellObserved := by
  induction h with
  | refl => exact hm
  | attach _ hnodup hcall ih => exact ih.of_addConditional hnodup hcall

variable [WeightScale W] [WeightScale L] [LogConversion W L]

/-- A point mass only looks at the states of its own variables. -/
theorem indicator_congr {a b : OrderedMap String Int} (h : ∀ v ∈ names, a.get? v = b.get? v)
    (counts : List Int) :
    (Table.indicator names counts a : Except Fault (Table W)) = Table.indicator names counts b := by
  have hmissing : (names.filter fun v => !a.contains v) = names.filter fun v => !b.contains v :=
    List.filter_congr fun v hv => by rw [OrderedMap.contains, OrderedMap.contains, h v hv]
  have hkey : Table.keyFor names a = Table.keyFor names b := by
    rw [Table.keyFor, Table.keyFor, hmissing, List.filterMap_congr h]
  rw [Table.indicator, Table.indicator, hkey]

/-- Queries for covered variables are answered as before. -/
theorem Keeps.marginal_eq (h : m.Keeps m') (hnames : ∀ v ∈ names, v ∈ m.names) :
    m'.marginal names = m.marginal names := by
  have hcontains : ∀ v ∈ names, m'.conditioned.contains v = m.conditioned.contains v :=
    fun v hv => by
      rw [OrderedMap.contains, OrderedMap.contains, h.get?_conditioned v (hnames v hv)]
  have hfree : ∀ vs, m'.freeMarginal vs = m.freeMarginal vs := fun vs => by
    rw [freeMarginal, freeMarginal, source?, source?, total, total, h.factors_eq, h.logTotal_eq]
  have hpoint : ∀ vs, (∀ v ∈ vs, v ∈ names) → m'.pointMass vs = m.pointMass vs := fun vs hvs => by
    have hmissing : (vs.filter fun v => !m'.cards.contains v)
        = vs.filter fun v => !m.cards.contains v := List.filter_congr fun v hv => by
      rw [OrderedMap.contains, OrderedMap.contains, h.get?_cards v (hnames v (hvs v hv))]
    have hcounts : vs.filterMap m'.cards.get? = vs.filterMap m.cards.get? :=
      List.filterMap_congr fun v hv => h.get?_cards v (hnames v (hvs v hv))
    rw [pointMass, pointMass, hmissing, hcounts,
      indicator_congr fun v hv => h.get?_conditioned v (hnames v (hvs v hv))]
  have hunobserved : (names.filter fun v => !m'.conditioned.contains v)
      = names.filter fun v => !m.conditioned.contains v :=
    List.filter_congr fun v hv => by rw [hcontains v hv]
  rw [marginal, marginal, hunobserved, List.filter_congr hcontains, hfree]
  dsimp only
  rw [hpoint _ fun v hv => (List.mem_filter.1 hv).1]

end MarginalSet

end ExactInference
