import Mathlib.Data.List.Nodup
import Mathlib.Data.List.Pairwise
import Mathlib.Data.List.Perm.Basic
import Mathlib.Logic.Relation
import ExactInference.Grouping

/-!
# Groups are classes of linked items

Merging the groups that a link touches loses no item and repeats none. Two items stand in one group
exactly if a chain of links connects them.
-/

namespace ExactInference

variable {α : Type} [BEq α] {link : List α} {groups : List (List α)} {g : List α}
  {x y : α}

/-- A group after a merge was not touched, or it holds all items of the touched groups. -/
theorem mem_mergeLinked : g ∈ mergeLinked link groups ↔
    (g ∈ groups ∧ touches link g = false) ∨
      ((∃ h ∈ groups, touches link h = true) ∧ g = (groups.filter (touches link)).flatten) := by
  induction groups with
  | nil => simp [mergeLinked]
  | cons h rest ih =>
    by_cases hh : touches link h = true
    · have hmerge : mergeLinked link (h :: rest)
          = (h ++ (rest.filter (touches link)).flatten) :: rest.filter fun k => !touches link k :=
        if_pos hh
      have hfilter : ((h :: rest).filter (touches link)).flatten
          = h ++ (rest.filter (touches link)).flatten := by
        rw [List.filter_cons_of_pos hh, List.flatten_cons]
      have hsome : ∃ k ∈ h :: rest, touches link k = true := ⟨h, List.mem_cons_self, hh⟩
      rw [hmerge, hfilter, List.mem_cons, List.mem_filter, Bool.not_eq_true']
      constructor
      · rintro (he | ⟨hg, hno⟩)
        · exact Or.inr ⟨hsome, he⟩
        · exact Or.inl ⟨List.mem_cons_of_mem h hg, hno⟩
      · rintro (⟨hg, hno⟩ | ⟨-, he⟩)
        · rcases List.mem_cons.1 hg with rfl | hg
          · rw [hh] at hno
            cases hno
          · exact Or.inr ⟨hg, hno⟩
        · exact Or.inl he
    · have hmerge : mergeLinked link (h :: rest) = h :: mergeLinked link rest := if_neg hh
      have hfilter : (h :: rest).filter (touches link) = rest.filter (touches link) :=
        List.filter_cons_of_neg hh
      rw [hmerge, hfilter, List.mem_cons, ih]
      have hno : touches link h = false := by simpa using hh
      constructor
      · rintro (rfl | ⟨hg, hno⟩ | ⟨⟨k, hk, hkt⟩, he⟩)
        · exact Or.inl ⟨List.mem_cons_self, hno⟩
        · exact Or.inl ⟨List.mem_cons_of_mem h hg, hno⟩
        · exact Or.inr ⟨⟨k, List.mem_cons_of_mem h hk, hkt⟩, he⟩
      · rintro (⟨hg, hgn⟩ | ⟨⟨k, hk, hkt⟩, he⟩)
        · rcases List.mem_cons.1 hg with rfl | hg
          · exact Or.inl rfl
          · exact Or.inr (Or.inl ⟨hg, hgn⟩)
        · rcases List.mem_cons.1 hk with rfl | hk
          · exact absurd hkt hh
          · exact Or.inr (Or.inr ⟨⟨k, hk, hkt⟩, he⟩)

/-- Merging keeps all items. -/
theorem flatten_mergeLinked_perm (link : List α) (groups : List (List α)) :
    (mergeLinked link groups).flatten.Perm groups.flatten := by
  induction groups with
  | nil => exact List.Perm.refl _
  | cons h rest ih =>
    by_cases hh : touches link h = true
    · have hmerge : mergeLinked link (h :: rest)
          = (h ++ (rest.filter (touches link)).flatten) :: rest.filter fun k => !touches link k :=
        if_pos hh
      rw [hmerge, List.flatten_cons, List.flatten_cons, List.append_assoc, ← List.flatten_append]
      exact ((List.filter_append_perm (touches link) rest).flatten).append_left h
    · have hmerge : mergeLinked link (h :: rest) = h :: mergeLinked link rest := if_neg hh
      rw [hmerge, List.flatten_cons, List.flatten_cons]
      exact ih.append_left h

/-- The groups hold every item once. -/
theorem flatten_groupsOf_perm (items : List α) (links : List (List α)) :
    (groupsOf items links).flatten.Perm items := by
  have hfold : ∀ (links : List (List α)) (groups : List (List α)),
      (links.foldl (fun groups link => mergeLinked link groups) groups).flatten.Perm
        groups.flatten := by
    intro links
    induction links with
    | nil => exact fun _ => List.Perm.refl _
    | cons link links ih => exact fun groups => (ih _).trans (flatten_mergeLinked_perm link groups)
  refine (hfold links _).trans (List.Perm.of_eq ?_)
  rw [← List.flatMap_def, List.flatMap_singleton']

/-- Two groups share no item. -/
theorem pairwise_disjoint_groupsOf {items : List α} (hitems : items.Nodup)
    (links : List (List α)) : (groupsOf items links).Pairwise List.Disjoint :=
  (List.nodup_flatten.1 ((flatten_groupsOf_perm items links).nodup_iff.2 hitems)).2

theorem eq_of_mem_groupsOf {items : List α} (hitems : items.Nodup) {links : List (List α)}
    {h : List α} (hg : g ∈ groupsOf items links) (hh : h ∈ groupsOf items links) (hxg : x ∈ g)
    (hxh : x ∈ h) : g = h := by
  by_contra hne
  have : Std.Symm (List.Disjoint (α := α)) := ⟨fun _ _ h _ hx hy => h hy hx⟩
  exact (pairwise_disjoint_groupsOf hitems links).forall hg hh hne hxg hxh

/-- Whether every item of a group is preceded by an item of another one. -/
def Leads (before : α → α → Prop) (g h : List α) : Prop := ∀ y ∈ h, ∃ x ∈ g, before x y

/-- Merging keeps the order of the groups. -/
theorem leads_mergeLinked {before : α → α → Prop} (link : List α)
    (h : groups.Pairwise (Leads before)) : (mergeLinked link groups).Pairwise (Leads before) := by
  induction groups with
  | nil => exact h
  | cons g rest ih =>
    obtain ⟨hg, hrest⟩ := List.pairwise_cons.1 h
    by_cases ht : touches link g = true
    · have hmerge : mergeLinked link (g :: rest)
          = (g ++ (rest.filter (touches link)).flatten) :: rest.filter fun k => !touches link k :=
        if_pos ht
      rw [hmerge]
      refine List.pairwise_cons.2 ⟨fun k hk y hy => ?_, hrest.filter _⟩
      obtain ⟨x, hx, hxy⟩ := hg k (List.mem_filter.1 hk).1 y hy
      exact ⟨x, List.mem_append_left _ hx, hxy⟩
    · have hmerge : mergeLinked link (g :: rest) = g :: mergeLinked link rest := if_neg ht
      rw [hmerge]
      refine List.pairwise_cons.2 ⟨fun k hk y hy => ?_, ih hrest⟩
      have hflat : y ∈ rest.flatten := (flatten_mergeLinked_perm link rest).mem_iff.1
        (List.mem_flatten.2 ⟨k, hk, hy⟩)
      obtain ⟨l, hl, hyl⟩ := List.mem_flatten.1 hflat
      exact hg l hl y hyl

/-- Groups of items in order come in the order of their first items. -/
theorem leads_groupsOf {before : α → α → Prop} {items : List α} (h : items.Pairwise before)
    (links : List (List α)) : (groupsOf items links).Pairwise (Leads before) := by
  have hstart : (items.map ([·])).Pairwise (Leads before) := by
    refine List.pairwise_map.2 (h.imp fun {a b} hab y hy => ⟨a, List.mem_singleton_self a, ?_⟩)
    rw [List.mem_singleton.1 hy]
    exact hab
  unfold groupsOf
  generalize items.map ([·]) = groups at hstart
  induction links generalizing groups with
  | nil => exact hstart
  | cons link links ih => exact ih _ (leads_mergeLinked link hstart)

/-- Two items that stand in one link. -/
def Linked (links : List (List α)) (x y : α) : Prop := ∃ link ∈ links, x ∈ link ∧ y ∈ link

omit [BEq α] in
theorem Linked.mono {links more : List (List α)} (hsub : ∀ l ∈ links, l ∈ more)
    (h : Linked links x y) : Linked more x y := by
  obtain ⟨link, hl, hx, hy⟩ := h
  exact ⟨link, hsub link hl, hx, hy⟩

/-- What holds of groups while links are merged: items of one group are connected, and the items of
a merged link stand in one group. -/
structure Grouped (items : List α) (links groups : List (List α)) : Prop where
  /-- No group is empty. -/
  ne_nil : ∀ g ∈ groups, g ≠ []
  /-- Every item has a group. -/
  exists_group : ∀ x ∈ items, ∃ g ∈ groups, x ∈ g
  /-- Groups are connected. -/
  connected : ∀ g ∈ groups, ∀ x ∈ g, ∀ y ∈ g, Relation.ReflTransGen (Linked links) x y
  /-- Links do not leave a group. -/
  closed : ∀ g ∈ groups, ∀ x ∈ g, ∀ y ∈ items, Linked links x y → y ∈ g

omit [BEq α] in
theorem Grouped.start (items : List α) : Grouped items [] (items.map ([·])) where
  ne_nil g hg := by
    obtain ⟨z, -, rfl⟩ := List.mem_map.1 hg
    simp
  exists_group x hx := ⟨[x], List.mem_map_of_mem hx, List.mem_singleton_self x⟩
  connected g hg x hx y hy := by
    obtain ⟨z, -, rfl⟩ := List.mem_map.1 hg
    rw [List.mem_singleton.1 hx, List.mem_singleton.1 hy]
  closed g _ x _ y _ h := by
    obtain ⟨link, hl, -⟩ := h
    simp at hl

variable [LawfulBEq α]

theorem touches_iff : touches link g = true ↔ ∃ x ∈ g, x ∈ link := by
  simp [touches, List.any_eq_true]

theorem Grouped.merge {items : List α} {links : List (List α)} (h : Grouped items links groups) :
    Grouped items (links ++ [link]) (mergeLinked link groups) := by
  have hmono : ∀ {x y}, Relation.ReflTransGen (Linked links) x y →
      Relation.ReflTransGen (Linked (links ++ [link])) x y := fun hxy =>
    Relation.ReflTransGen.mono
      (fun _ _ (hl : Linked links _ _) => hl.mono fun _ hl => List.mem_append_left _ hl) _ _ hxy
  have hnew : ∀ {x y}, x ∈ link → y ∈ link → Linked (links ++ [link]) x y := fun hx hy =>
    ⟨link, by simp, hx, hy⟩
  have hmerged : ∀ x, x ∈ (groups.filter (touches link)).flatten ↔
      ∃ k ∈ groups, touches link k = true ∧ x ∈ k := by
    intro x
    simp only [List.mem_flatten, List.mem_filter, and_assoc]
  constructor
  case ne_nil =>
    intro g hg
    rcases mem_mergeLinked.1 hg with ⟨hg, -⟩ | ⟨⟨k, hk, hkt⟩, rfl⟩
    · exact h.ne_nil g hg
    · obtain ⟨x, hx, -⟩ := touches_iff.1 hkt
      exact List.ne_nil_of_mem ((hmerged x).2 ⟨k, hk, hkt, hx⟩)
  case exists_group =>
    intro x hx
    obtain ⟨g, hg, hxg⟩ := h.exists_group x hx
    by_cases ht : touches link g = true
    · exact ⟨_, mem_mergeLinked.2 (Or.inr ⟨⟨g, hg, ht⟩, rfl⟩), (hmerged x).2 ⟨g, hg, ht, hxg⟩⟩
    · exact ⟨g, mem_mergeLinked.2 (Or.inl ⟨hg, by simpa using ht⟩), hxg⟩
  case connected =>
    intro g hg x hx y hy
    rcases mem_mergeLinked.1 hg with ⟨hg, -⟩ | ⟨-, rfl⟩
    · exact hmono (h.connected g hg x hx y hy)
    · -- Both items are connected to an item of the link.
      obtain ⟨k, hk, htk, hxk⟩ := (hmerged x).1 hx
      obtain ⟨l, hl, htl, hyl⟩ := (hmerged y).1 hy
      obtain ⟨u, huk, hu⟩ := touches_iff.1 htk
      obtain ⟨w, hwl, hw⟩ := touches_iff.1 htl
      exact ((hmono (h.connected k hk x hxk u huk)).tail (hnew hu hw)).trans
        (hmono (h.connected l hl w hwl y hyl))
  case closed =>
    intro g hg x hx y hy hxy
    obtain ⟨l, hl, hxl, hyl⟩ := hxy
    obtain ⟨k, hk, hyk⟩ := h.exists_group y hy
    rcases mem_mergeLinked.1 hg with ⟨hg, hno⟩ | ⟨-, rfl⟩
    · rcases List.mem_append.1 hl with hl | hl
      · exact h.closed g hg x hx y hy ⟨l, hl, hxl, hyl⟩
      · rw [List.mem_singleton.1 hl] at hxl
        rw [touches_iff.2 ⟨x, hx, hxl⟩] at hno
        cases hno
    · obtain ⟨j, hj, htj, hxj⟩ := (hmerged x).1 hx
      rcases List.mem_append.1 hl with hl | hl
      · exact (hmerged y).2 ⟨j, hj, htj, h.closed j hj x hxj y hy ⟨l, hl, hxl, hyl⟩⟩
      · rw [List.mem_singleton.1 hl] at hyl
        exact (hmerged y).2 ⟨k, hk, touches_iff.2 ⟨y, hyk, hyl⟩, hyk⟩

theorem grouped_groupsOf (items : List α) (links : List (List α)) :
    Grouped items links (groupsOf items links) := by
  have hfold : ∀ (more done : List (List α)) (groups : List (List α)),
      Grouped items done groups → Grouped items (done ++ more)
        (more.foldl (fun groups link => mergeLinked link groups) groups) := by
    intro more
    induction more with
    | nil => exact fun done groups h => by rwa [List.append_nil]
    | cons link more ih =>
      intro done groups h
      have hrest := ih (done ++ [link]) (mergeLinked link groups) h.merge
      rwa [List.append_assoc] at hrest
  exact hfold links [] _ (Grouped.start items)

/-- No group is listed twice. -/
theorem nodup_groupsOf {items : List α} (hitems : items.Nodup) (links : List (List α)) :
    (groupsOf items links).Nodup := by
  refine (pairwise_disjoint_groupsOf hitems links).imp_of_mem fun {a b} ha _ hdisjoint he => ?_
  obtain ⟨x, hx⟩ := List.exists_mem_of_ne_nil a ((grouped_groupsOf items links).ne_nil a ha)
  exact hdisjoint hx (he ▸ hx)

/-- Items stand in one group exactly if a chain of links connects them. -/
theorem mem_group_iff {items : List α} {links : List (List α)}
    (hlinks : ∀ l ∈ links, ∀ x ∈ l, x ∈ items) (hg : g ∈ groupsOf items links) (hx : x ∈ g) :
    y ∈ g ↔ y ∈ items ∧ Relation.ReflTransGen (Linked links) x y := by
  have h := grouped_groupsOf items links
  have hitems : ∀ z ∈ g, z ∈ items := fun z hz =>
    (flatten_groupsOf_perm items links).mem_iff.1 (List.mem_flatten.2 ⟨g, hg, hz⟩)
  constructor
  · exact fun hy => ⟨hitems y hy, h.connected g hg x hx y hy⟩
  · rintro ⟨-, hxy⟩
    induction hxy with
    | refl => exact hx
    | tail _ hstep ih =>
      obtain ⟨l, hl, hw, hz⟩ := hstep
      exact h.closed g hg _ ih _ (hlinks l hl _ hz) ⟨l, hl, hw, hz⟩

end ExactInference
