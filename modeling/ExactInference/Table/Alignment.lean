import ExactInference.Grid
import ExactInference.Table.Basic

/-!
# Tables as arrays

The numbers of a table as a rectangular array, and how its axes are aligned with a list of names
that stands for the axes of another array. The axes that the table has are put into the order of
the names, and for every name that it lacks an axis of the length one is inserted where the name
stands. An array whose axes are those of a scope is a table again. The main statements say that the
aligned array holds at a joint state just what the table holds there, and that two aligned arrays
fit together if no variable has two numbers of states.
-/

namespace ExactInference

theorem stateCount_eq_entryCount (axes : List Axis) :
    stateCount axes = entryCount (axes.map Axis.card) := by
  induction axes with
  | nil => rfl
  | cons a rest ih => simp [stateCount, entryCount, ih]

theorem position_eq_offset (axes : List Axis) (x : JointState) :
    position axes x = offset (axes.map Axis.card) ((axes.map Axis.name).map x) := by
  induction axes with
  | nil => rfl
  | cons a rest ih => simp [position, offset, ih, stateCount_eq_entryCount]

/-- The joint states of some axes are enumerated like the indices. -/
theorem map_completions_eq_indices {axes : List Axis} (hd : (axes.map Axis.name).Nodup)
    (base : JointState) :
    ((completions axes base).map fun x => (axes.map Axis.name).map x)
      = indices (axes.map Axis.card) := by
  induction axes generalizing base with
  | nil => rfl
  | cons a rest ih =>
    obtain ⟨ha, hrest⟩ := List.nodup_cons.1 hd
    change _ = indices (a.card :: rest.map Axis.card)
    rw [completions_cons, indices_cons, List.map_flatMap]
    congr 1
    funext i
    rw [← ih hrest (base.set a.name i), List.map_map]
    refine List.map_congr_left fun x hx => ?_
    have hself : x a.name = i := by
      rw [((mem_completions hrest).1 hx).1 a.name ha, JointState.set_self]
    simp [hself]

/-- What is built over all indices of some axes is what is read at their joint states. -/
theorem map_indices_eq {β : Type} {axes : List Axis} (hd : (axes.map Axis.name).Nodup)
    {f : List Nat → β} {F : JointState → β}
    (h : ∀ x, InRange axes x → f ((axes.map Axis.name).map x) = F x) :
    (indices (axes.map Axis.card)).map f = (completions axes JointState.origin).map F := by
  rw [← map_completions_eq_indices hd JointState.origin, List.map_map]
  exact List.map_congr_left fun x hx => h x ((mem_completions hd).1 hx).2

/-- A list is looked up at the place that another list gives to an element, if equal places mean
equal values. -/
theorem getD_idxOf_map {γ κ β : Type} [BEq κ] [LawfulBEq κ] {key : γ → κ} {value : γ → β}
    {l : List γ} {c : γ} (hc : c ∈ l) (hkey : ∀ b ∈ l, key b = key c → value b = value c) (d : β) :
    (l.map value).getD ((l.map key).idxOf (key c)) d = value c := by
  induction l with
  | nil => cases hc
  | cons b rest ih =>
    rw [List.map_cons, List.map_cons, List.idxOf_cons]
    by_cases h : key b = key c
    · simp [h, hkey b List.mem_cons_self h]
    · have hrest : c ∈ rest := (List.mem_cons.1 hc).resolve_left fun hcb => h (hcb ▸ rfl)
      rw [beq_false_of_ne h, cond_false, List.getD_cons_succ]
      exact ih hrest fun e he => hkey e (List.mem_cons_of_mem b he)

/-- An entry is inserted right after the first part of a list. -/
theorem insertIdx_length_append {β : Type} (before after : List β) (c : β) :
    (before ++ after).insertIdx before.length c = before ++ c :: after := by
  induction before with
  | nil => simp
  | cons b before ih => simp [ih]

/-- One entry for every name that fails a test, inserted at the places of these names in turn, fills
up the entries of the names that pass it. -/
theorem foldl_insertIdx_eq_map {β : Type} (p : String → Bool) (value : String → β) (c : β)
    (names : List String) (before : List β) :
    (((names.zipIdx before.length).filter fun e => !p e.1).map Prod.snd).foldl
        (fun entries i => entries.insertIdx i c) (before ++ (names.filter p).map value)
      = before ++ names.map fun n => if p n then value n else c := by
  induction names generalizing before with
  | nil => simp
  | cons n rest ih =>
    have hnext := fun b => ih (before ++ [b])
    simp only [List.length_append, List.length_singleton, List.append_assoc,
      List.singleton_append] at hnext
    rw [List.zipIdx_cons, List.map_cons]
    by_cases h : p n = true
    · simp only [h, Bool.not_true, Bool.false_eq_true, not_false_eq_true, List.filter_cons_of_neg,
        List.filter_cons_of_pos, List.map_cons, if_true]
      exact hnext (value n)
    · simp only [h, Bool.not_false, Bool.false_eq_true, not_false_eq_true, List.filter_cons_of_neg,
        List.filter_cons_of_pos, List.map_cons, List.foldl_cons, insertIdx_length_append, if_false]
      exact hnext c

namespace Scope

variable {s u : Scope}

/-- The number of states on the axis of a name, as it stands among the numbers of states. -/
def cardAt (s : Scope) (name : String) : Nat := s.cards.getD (s.names.idxOf name) 0

theorem cardAt_eq {a : Axis} (ha : a ∈ s.axes) : s.cardAt a.name = a.card :=
  getD_idxOf_map ha
    (fun _ hb hname => congrArg Axis.card (axis_eq_of_name_eq s.distinct hb ha hname)) 0

/-- A joint state in range gives every name of the scope one of its states. -/
theorem lt_cardAt {x : JointState} (hx : InRange s.axes x) {n : String} (hn : n ∈ s.names) :
    x n < s.cardAt n := by
  obtain ⟨a, ha, rfl⟩ := List.mem_map.1 hn
  exact cardAt_eq ha ▸ hx a ha

theorem has_iff {n : String} : s.has n = true ↔ n ∈ s.names := by simp [has]

/-- Scopes without a conflict count the states of a variable alike. -/
theorem card_eq_of_conflict?_eq_none (h : s.conflict? u = none) {a b : Axis} (ha : a ∈ s.axes)
    (hb : b ∈ u.axes) (hname : a.name = b.name) : a.card = b.card := by
  have hfound := find?_name_eq_some_iff.2 ⟨ha, hname⟩
  have hchecked := List.findSome?_eq_none_iff.1 h b hb
  simpa [card?, hfound] using hchecked

/-- A joint state in range of the join of such scopes is in range of the second one. -/
theorem inRange_right_of_join (h : s.conflict? u = none) {x : JointState}
    (hx : InRange (s.join u).axes x) : InRange u.axes x := by
  intro b hb
  by_cases hold : s.has b.name = true
  · obtain ⟨a, ha, hname⟩ := List.mem_map.1 (has_iff.1 hold)
    rw [← hname, ← card_eq_of_conflict?_eq_none h ha hb hname]
    exact hx a (List.mem_append_left _ ha)
  · exact hx b (List.mem_append_right _ (List.mem_filter.2 ⟨hb, by simp [hold]⟩))

end Scope

namespace Table

variable {α : Type}

/-- The numbers of a table as an array. -/
def grid (t : Table α) : Grid α :=
  ⟨t.cards, t.data, t.data_size.trans (stateCount_eq_entryCount t.scope.axes)⟩

/-- The table of an array that has the axes of a scope. -/
def ofGrid (s : Scope) (g : Grid α) (h : g.shape = s.cards) : Table α :=
  ⟨s, g.entries, by rw [g.entries_size, h]; exact (stateCount_eq_entryCount s.axes).symm⟩

/-- The axes of the table in the order in which their names stand in a list. -/
def sharedAxes (t : Table α) (target : List String) : List Nat :=
  (target.filter t.scope.has).map fun n => t.names.idxOf n

/-- The places in a list of names at which the table lacks the name. -/
def missingAxes (t : Table α) (target : List String) : List Nat :=
  (target.zipIdx.filter fun e => !t.scope.has e.1).map Prod.snd

/-- Looking the axes of a table up in another order of their names gives its own order. -/
theorem map_range_getD_idxOf {t : Table α} {ns : List String} (hns : ∀ n, n ∈ ns ↔ n ∈ t.names)
    (x : JointState) :
    ((List.range t.cards.length).map fun axis =>
        (ns.map x).getD ((ns.map fun n => t.names.idxOf n).idxOf axis) 0) = t.names.map x := by
  have hlength : t.cards.length = t.names.length := by
    simp [cards, names, Scope.cards, Scope.names]
  refine List.ext_getElem (by simp [hlength]) fun i hi _ => ?_
  have hin : i < t.names.length := by simpa [hlength] using hi
  have hplace : t.names.idxOf t.names[i] = i := t.scope.distinct.idxOf_getElem i hin
  have hsame : ∀ b ∈ ns, t.names.idxOf b = t.names.idxOf t.names[i] → x b = x t.names[i] := by
    intro b hb hidx
    have hlt := List.idxOf_lt_length_of_mem ((hns b).1 hb)
    have hb' : t.names[t.names.idxOf b] = b := List.getElem_idxOf hlt
    simp only [hidx, hplace] at hb'
    rw [hb']
  have hfound := getD_idxOf_map ((hns _).2 (List.getElem_mem hin)) hsame 0
  rw [hplace] at hfound
  simpa using hfound

/-- The axes in the order of some names. -/
def axesInOrder (t : Table α) (names : List String) : List Axis :=
  names.filterMap fun n => t.scope.axes.find? fun a => a.name == n

/-- The axes in the order of some names are the axes that have such a name. -/
theorem mem_axesInOrder {t : Table α} {names : List String} {a : Axis} :
    a ∈ t.axesInOrder names ↔ a ∈ t.scope.axes ∧ a.name ∈ names := by
  simp only [axesInOrder, List.mem_filterMap, Scope.find?_name_eq_some_iff]
  constructor
  · intro h
    obtain ⟨n, hn, ha, rfl⟩ := h
    exact ⟨ha, hn⟩
  · intro h
    exact ⟨a.name, h.2, h.1, rfl⟩

/-- They have these names in their order, if the table has all of them. -/
theorem map_name_axesInOrder {t : Table α} {names : List String} (h : ∀ n ∈ names, n ∈ t.names) :
    (t.axesInOrder names).map Axis.name = names := by
  induction names with
  | nil => rfl
  | cons n rest ih =>
    obtain ⟨a, ha, rfl⟩ := List.mem_map.1 (h n List.mem_cons_self)
    have hfound := Scope.find?_name_eq_some_iff.2 ⟨ha, rfl⟩
    have hcons : t.axesInOrder (a.name :: rest) = a :: t.axesInOrder rest := by
      simp only [axesInOrder, List.filterMap_cons, hfound]
    rw [hcons, List.map_cons, ih fun m hm => h m (List.mem_cons_of_mem _ hm)]

variable [WeightScale α]

/-- The entries of a table are its numbers. -/
theorem entry_grid (t : Table α) (x : JointState) :
    t.grid.entry (t.names.map x) = t.weightAt x := by
  rw [weightAt, position_eq_offset]
  rfl

/-- With its axes in the order of some names, a table has their numbers of states in that order. -/
theorem shape_transpose_grid (t : Table α) (ns : List String) :
    (t.grid.transpose (ns.map fun n => t.names.idxOf n)).shape = ns.map t.scope.cardAt :=
  List.map_map

/-- With its axes in the order of some names, a table has its numbers at the states in that order.
-/
theorem entry_transpose_grid {t : Table α} {ns : List String} (hns : ∀ n, n ∈ ns ↔ n ∈ t.names)
    {x : JointState} (hx : InRange t.scope.axes x) :
    (t.grid.transpose (ns.map fun n => t.names.idxOf n)).entry (ns.map x) = t.weightAt x := by
  have hindex : ns.map x ∈ indices (t.grid.transpose (ns.map fun n => t.names.idxOf n)).shape := by
    rw [shape_transpose_grid]
    exact map_mem_indices fun n hn => Scope.lt_cardAt hx ((hns n).1 hn)
  refine (Grid.entry_build _ hindex).trans ?_
  rw [← entry_grid]
  exact congrArg t.grid.entry (map_range_getD_idxOf hns x)

/-- The numbers of a table with its axes in another order are those at the joint states in that
order. -/
theorem toList_transpose_grid {t : Table α} {axes : List Axis} (hd : (axes.map Axis.name).Nodup)
    (hin : ∀ a ∈ axes, a ∈ t.scope.axes) (hall : ∀ n ∈ t.names, n ∈ axes.map Axis.name) :
    (t.grid.transpose ((axes.map Axis.name).map fun n => t.names.idxOf n)).entries.toList
      = (completions axes JointState.origin).map t.weightAt := by
  have hnames : ∀ n, n ∈ axes.map Axis.name ↔ n ∈ t.names := by
    refine fun n => ⟨fun hn => ?_, hall n⟩
    obtain ⟨a, ha, rfl⟩ := List.mem_map.1 hn
    exact List.mem_map_of_mem (hin a ha)
  have hcards : (axes.map Axis.name).map t.scope.cardAt = axes.map Axis.card := by
    rw [List.map_map]
    exact List.map_congr_left fun a ha => Scope.cardAt_eq (hin a ha)
  change (indices (t.grid.transpose ((axes.map Axis.name).map _)).shape).map _ = _
  rw [shape_transpose_grid, hcards]
  refine map_indices_eq hd fun x _ => ?_
  rw [← entry_grid]
  exact congrArg t.grid.entry (map_range_getD_idxOf hnames x)

/-- The array of the table with the axes of a list of names, among them all names of the table. An
axis that the table lacks has the length one. -/
def broadcastInto (t : Table α) (target : List String) : Grid α :=
  (t.missingAxes target).foldl Grid.insertAxis (t.grid.transpose (t.sharedAxes target))

/-- An axis of the aligned array has the states of its variable, or the length one. -/
theorem shape_broadcastInto (t : Table α) (target : List String) :
    (t.broadcastInto target).shape
      = target.map fun n => if t.scope.has n then t.scope.cardAt n else 1 := by
  rw [broadcastInto, Grid.shape_foldl_insertAxis]
  have hshared : (t.grid.transpose (t.sharedAxes target)).shape
      = (target.filter t.scope.has).map t.scope.cardAt := shape_transpose_grid t _
  rw [hshared]
  exact foldl_insertIdx_eq_map t.scope.has t.scope.cardAt 1 target []

/-- The aligned array is read at a joint state of its names as the table is. -/
theorem entry_broadcastInto {t : Table α} {target : List String}
    (htarget : ∀ n ∈ t.names, n ∈ target) {x : JointState} (hx : InRange t.scope.axes x) :
    (t.broadcastInto target).entry (pinned (t.broadcastInto target).shape (target.map x))
      = t.weightAt x := by
  have hpinned : pinned (t.broadcastInto target).shape (target.map x)
      = target.map fun n => if t.scope.has n then x n else 0 := by
    rw [shape_broadcastInto, pinned, List.zipWith_map, List.zipWith_self]
    refine List.map_congr_left fun n _ => ?_
    by_cases h : t.scope.has n = true
    · have hlt := Scope.lt_cardAt hx (Scope.has_iff.1 h)
      simp only [h, if_true]
      split <;> omega
    · simp [h]
  have hnames : ∀ n, n ∈ target.filter t.scope.has ↔ n ∈ t.names := by
    intro n
    rw [List.mem_filter, Scope.has_iff]
    exact ⟨And.right, fun hn => ⟨htarget n hn, hn⟩⟩
  calc (t.broadcastInto target).entry (pinned (t.broadcastInto target).shape (target.map x))
      = (t.broadcastInto target).entry ((t.missingAxes target).foldl
          (fun index axis => index.insertIdx axis 0) ((target.filter t.scope.has).map x)) := by
        rw [hpinned]
        exact congrArg _ (foldl_insertIdx_eq_map t.scope.has x 0 target []).symm
    _ = (t.grid.transpose (t.sharedAxes target)).entry ((target.filter t.scope.has).map x) :=
        Grid.entry_foldl_insertAxis _ _ _
    _ = t.weightAt x := entry_transpose_grid hnames hx

/-- Two tables that are aligned with the names of both fit together, if they count the states of no
variable differently, and have the axes of the join of their scopes then. -/
theorem stretched?_broadcastInto {t u : Table α} (h : t.scope.conflict? u.scope = none) :
    stretched? (t.broadcastInto (t.scope.join u.scope).names).shape
      (u.broadcastInto (t.scope.join u.scope).names).shape = some (t.scope.join u.scope).cards := by
  rw [shape_broadcastInto, shape_broadcastInto, Scope.names, List.map_map, List.map_map]
  refine stretched?_map fun a ha => ?_
  rcases List.mem_append.1 ha with ha | ha
  · -- An axis of the first table; the second table has it with the same number of states, or not.
    have hleft : t.scope.has a.name = true := Scope.has_iff.2 (List.mem_map_of_mem ha)
    refine Or.inl ⟨by simp [hleft, Scope.cardAt_eq ha], ?_⟩
    by_cases hright : u.scope.has a.name = true
    · obtain ⟨b, hb, hname⟩ := List.mem_map.1 (Scope.has_iff.1 hright)
      refine Or.inl ?_
      rw [Function.comp_apply, if_pos hright, ← hname, Scope.cardAt_eq hb]
      exact (Scope.card_eq_of_conflict?_eq_none h ha hb hname.symm).symm
    · exact Or.inr (by simp [hright])
  · -- A new axis of the second table.
    obtain ⟨hb, hnew⟩ := List.mem_filter.1 ha
    have hleft : t.scope.has a.name = false := by simpa using hnew
    have hright : u.scope.has a.name = true := Scope.has_iff.2 (List.mem_map_of_mem hb)
    exact Or.inr ⟨by simp [hleft], by simp [hright, Scope.cardAt_eq hb]⟩

end Table

end ExactInference
