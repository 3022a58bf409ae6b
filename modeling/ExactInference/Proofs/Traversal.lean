import ExactInference.CliqueTree.Traversal
import ExactInference.Proofs.Groups
import ExactInference.Proofs.TreeView

/-!
# Components and traceback order

The components of a tree are the classes of cliques that edges connect. A depth-first preorder with
as much depth as there are items reaches everything that can be reached, visits nothing twice, and
visits every item but the first after one of its neighbors. So the traceback order goes through one
component after the other, and in each of them every clique but the first is adjacent to an earlier
one.
-/

namespace ExactInference

section Preorder

variable {neighbors : ℕ → List ℕ} {count depth u w k : ℕ} {seen out : List ℕ}

/-- Every item but the first is a neighbor of an earlier one. -/
def Attached (neighbors : ℕ → List ℕ) (l : List ℕ) : Prop :=
  ∀ before w after, l = before ++ w :: after → before ≠ [] → ∃ u ∈ before, w ∈ neighbors u

theorem Attached.concat (h : Attached neighbors seen)
    (hw : seen = [] ∨ ∃ u ∈ seen, w ∈ neighbors u) : Attached neighbors (seen ++ [w]) := by
  intro before v after he hne
  rcases List.eq_nil_or_concat after with rfl | ⟨rest, last, rfl⟩
  · obtain ⟨rfl, hv⟩ := List.append_inj' he rfl
    rw [List.cons.injEq] at hv
    exact hv.1 ▸ hw.resolve_left hne
  · have he' : seen ++ [w] = (before ++ v :: rest) ++ [last] := by simpa using he
    obtain ⟨rfl, -⟩ := List.append_inj' he' rfl
    exact h before v rest rfl hne

theorem Attached.of_append {before after : List ℕ} (h : Attached neighbors (before ++ after)) :
    Attached neighbors before := fun front w rest he hne =>
  h front w (rest ++ after) (by rw [he]; simp) hne

/-- Every item is connected with the first one by neighbors among the items. -/
theorem Attached.connected {l : List ℕ} (h : Attached neighbors l) (hhead : l.head? = some u)
    (hw : w ∈ l) :
    Relation.ReflTransGen (fun a b => a ∈ l ∧ b ∈ l ∧ b ∈ neighbors a) u w := by
  induction l using List.reverseRecOn generalizing w with
  | nil => simp at hw
  | append_singleton l v ih =>
    by_cases hnil : l = []
    · subst hnil
      simp only [List.nil_append, List.head?_cons, Option.some.injEq] at hhead
      rw [List.nil_append, List.mem_singleton] at hw
      rw [hw, hhead]
    · have hhead' : l.head? = some u := by
        rwa [List.head?_append_of_ne_nil _ hnil] at hhead
      have hold : ∀ {w}, w ∈ l → Relation.ReflTransGen
          (fun a b => a ∈ l ++ [v] ∧ b ∈ l ++ [v] ∧ b ∈ neighbors a) u w := fun hw =>
        Relation.ReflTransGen.mono (fun a b hab =>
          ⟨List.mem_append_left _ hab.1, List.mem_append_left _ hab.2.1, hab.2.2⟩) u _
          (ih h.of_append hhead' hw)
      rcases List.mem_append.1 hw with hw | hw
      · exact hold hw
      · obtain ⟨p, hp, hv⟩ := h l v [] rfl hnil
        rw [List.mem_singleton.1 hw]
        exact (hold hp).tail ⟨List.mem_append_left _ hp,
          List.mem_append_right _ (List.mem_singleton_self v), hv⟩

/-- A search that went on from what was seen before. All neighbors of new items have been seen. -/
structure Explored (neighbors : ℕ → List ℕ) (count : ℕ) (seen out : List ℕ) : Prop where
  /-- The new items come last. -/
  grows : seen <+: out
  /-- No item is seen twice. -/
  nodup : out.Nodup
  /-- All items are in range. -/
  lt_count : ∀ w ∈ out, w < count
  /-- The search follows neighbors. -/
  attached : Attached neighbors out
  /-- Nothing next to a new item is left out. -/
  closed : ∀ w ∈ out, w ∉ seen → ∀ k ∈ neighbors w, k ∈ out

theorem Explored.refl (hnodup : seen.Nodup) (hlt : ∀ w ∈ seen, w < count)
    (hattached : Attached neighbors seen) : Explored neighbors count seen seen :=
  ⟨List.prefix_refl seen, hnodup, hlt, hattached, fun _ hw hn => absurd hw hn⟩

theorem Explored.trans {mid : List ℕ} (h : Explored neighbors count seen mid)
    (h' : Explored neighbors count mid out) : Explored neighbors count seen out where
  grows := h.grows.trans h'.grows
  nodup := h'.nodup
  lt_count := h'.lt_count
  attached := h'.attached
  closed w hw hn k hk := by
    by_cases hm : w ∈ mid
    · exact h'.grows.subset (h.closed w hm hn k hk)
    · exact h'.closed w hw hm k hk

/-- With as much depth as there are unseen items, a visit explores all that can be reached. -/
theorem explored_visitFrom (hlt : ∀ u < count, ∀ k ∈ neighbors u, k < count) (hu : u < count)
    (hdepth : count ≤ seen.length + depth) (hseen : Explored neighbors count seen seen)
    (hattach : seen = [] ∨ ∃ p ∈ seen, u ∈ neighbors p) :
    Explored neighbors count seen (visitFrom neighbors depth seen u) ∧
      u ∈ visitFrom neighbors depth seen u := by
  induction depth generalizing seen u with
  | zero =>
    -- Everything has been seen.
    have hall : (List.range count).Subperm seen := by
      have hsub : seen.Subperm (List.range count) := hseen.nodup.subperm fun w hw =>
        List.mem_range.2 (hseen.lt_count w hw)
      exact (hsub.perm_of_length_le (by simpa using hdepth)).symm.subperm
    exact ⟨hseen, hall.subset (List.mem_range.2 hu)⟩
  | succ depth ih =>
    rw [visitFrom]
    by_cases hin : u ∈ seen
    · rw [if_pos hin]
      exact ⟨hseen, hin⟩
    · rw [if_neg hin]
      have hstart : Explored neighbors count (seen ++ [u]) (seen ++ [u]) := by
        refine Explored.refl ?_ ?_ (hseen.attached.concat hattach)
        · exact List.nodup_append.2 ⟨hseen.nodup, List.nodup_singleton u, fun w hw v hv he =>
            hin (List.mem_singleton.1 hv ▸ he ▸ hw)⟩
        · intro w hw
          rcases List.mem_append.1 hw with hw | hw
          · exact hseen.lt_count w hw
          · exact List.mem_singleton.1 hw ▸ hu
      have hfold : ∀ (ks acc : List ℕ), (∀ k ∈ ks, k ∈ neighbors u) →
          Explored neighbors count acc acc → u ∈ acc → seen.length + 1 ≤ acc.length →
          Explored neighbors count acc (ks.foldl (visitFrom neighbors depth) acc) ∧
            ∀ k ∈ ks, k ∈ ks.foldl (visitFrom neighbors depth) acc := by
        intro ks
        induction ks with
        | nil => exact fun acc _ hacc _ _ => ⟨hacc, by simp⟩
        | cons k ks ihk =>
          intro acc hks hacc huacc hlen
          obtain ⟨hvisit, hk⟩ := ih (hlt u hu k (hks k List.mem_cons_self)) (by omega) hacc
            (Or.inr ⟨u, huacc, hks k List.mem_cons_self⟩)
          obtain ⟨hrest, hmem⟩ := ihk (visitFrom neighbors depth acc k)
            (fun j hj => hks j (List.mem_cons_of_mem k hj))
            (Explored.refl hvisit.nodup hvisit.lt_count hvisit.attached)
            (hvisit.grows.subset huacc) (hlen.trans hvisit.grows.length_le)
          refine ⟨hvisit.trans hrest, fun j hj => ?_⟩
          rcases List.mem_cons.1 hj with rfl | hj
          · exact hrest.grows.subset hk
          · exact hmem j hj
      obtain ⟨hout, hmem⟩ := hfold (neighbors u) (seen ++ [u]) (fun k hk => hk) hstart (by simp)
        (by simp)
      have hself : u ∈ (neighbors u).foldl (visitFrom neighbors depth) (seen ++ [u]) :=
        hout.grows.subset (by simp)
      refine ⟨⟨(List.prefix_append seen [u]).trans hout.grows, hout.nodup, hout.lt_count,
        hout.attached, fun w hw hn k hk => ?_⟩, hself⟩
      by_cases hwu : w = u
      · exact hmem k (hwu ▸ hk)
      · exact hout.closed w hw (by simp [hn, hwu]) k hk

/-- A preorder starts at its start, and holds exactly what is closed under neighbors. -/
theorem explored_preorder (hlt : ∀ u < count, ∀ k ∈ neighbors u, k < count) (hu : u < count) :
    Explored neighbors count [] (preorder neighbors count u) ∧ u ∈ preorder neighbors count u := by
  refine explored_visitFrom hlt hu (by simp) (Explored.refl List.nodup_nil (by simp) ?_)
    (Or.inl rfl)
  intro before w after he
  simp at he

theorem prefix_foldl {f : List ℕ → ℕ → List ℕ} (hf : ∀ acc k, acc <+: f acc k) (ks acc : List ℕ) :
    acc <+: ks.foldl f acc := by
  induction ks generalizing acc with
  | nil => exact List.prefix_refl acc
  | cons k ks ih => exact (hf acc k).trans (ih _)

theorem prefix_visitFrom (neighbors : ℕ → List ℕ) (depth : ℕ) (seen : List ℕ) (u : ℕ) :
    seen <+: visitFrom neighbors depth seen u := by
  induction depth generalizing seen u with
  | zero => exact List.prefix_refl seen
  | succ depth ih =>
    rw [visitFrom]
    split
    · exact List.prefix_refl seen
    · exact (List.prefix_append seen [u]).trans (prefix_foldl ih _ _)

/-- A preorder starts at its start. -/
theorem head?_preorder (neighbors : ℕ → List ℕ) (hcount : 0 < count) :
    (preorder neighbors count u).head? = some u := by
  cases count with
  | zero => exact absurd hcount (lt_irrefl 0)
  | succ depth =>
    obtain ⟨rest, hrest⟩ := prefix_foldl (prefix_visitFrom neighbors depth) (neighbors u) [u]
    have hpre : preorder neighbors (depth + 1) u
        = (neighbors u).foldl (visitFrom neighbors depth) [u] := by
      rw [preorder, visitFrom, if_neg (by simp)]
      rfl
    rw [hpre, ← hrest]
    rfl

end Preorder

/-- The components of a graph on the numbers below `size`, in the order of their lowest numbers. -/
structure ComponentsOf (G : SimpleGraph ℕ) (size : ℕ) (cs : List (List ℕ)) : Prop where
  /-- Every vertex lies in one component. -/
  perm : cs.flatten.Perm (List.range size)
  /-- A component is not empty. -/
  ne_nil : ∀ c ∈ cs, c ≠ []
  /-- A component holds what is connected with one of its vertices. -/
  mem_iff : ∀ c ∈ cs, ∀ i ∈ c, ∀ j, j ∈ c ↔ G.Reachable i j
  /-- No vertex of a component is lower than all of an earlier one. -/
  ascending : cs.Pairwise fun c d => ∀ j ∈ d, ∃ i ∈ c, i < j

/-- A search from a vertex along the edges of a graph. -/
structure SearchOrder (G : SimpleGraph ℕ) (u : ℕ) (l : List ℕ) : Prop where
  /-- It begins at its start. -/
  head?_eq : l.head? = some u
  /-- It visits no vertex twice. -/
  nodup : l.Nodup
  /-- It visits what is connected with the start. -/
  mem_iff : ∀ w, w ∈ l ↔ G.Reachable u w
  /-- Every vertex but the first is adjacent to an earlier one. -/
  attached : ∀ before w after, l = before ++ w :: after → before ≠ [] → ∃ p ∈ before, G.Adj p w

/-- An order in which cliques can be decoded one after the other. A clique comes either before
everything that it is connected with, or after a neighbor whose side holds everything earlier that
it is connected with. -/
def Traceback (G : SimpleGraph ℕ) (order : List ℕ) : Prop :=
  ∀ before i after, order = before ++ i :: after → i ∉ before ∧
    ((∀ k ∈ before, ¬ G.Reachable k i) ∨
      ∃ p ∈ before, G.Adj p i ∧ ∀ k ∈ before, G.Reachable k i → OnSide G p i k)

/-- An item of a flattened list lies in one of its blocks, behind all blocks before. -/
theorem exists_of_flatMap_eq {α β : Type} {f : α → List β} {cs : List α} {before after : List β}
    {b : β} (h : cs.flatMap f = before ++ b :: after) :
    ∃ first c rest front back, cs = first ++ c :: rest ∧ f c = front ++ b :: back ∧
      before = first.flatMap f ++ front := by
  induction cs generalizing before with
  | nil => simp at h
  | cons c cs ih =>
    rw [List.flatMap_cons] at h
    have hrest : ∀ {mid}, cs.flatMap f = mid ++ b :: after → before = f c ++ mid →
        ∃ first c' rest front back, c :: cs = first ++ c' :: rest ∧ f c' = front ++ b :: back ∧
          before = first.flatMap f ++ front := by
      intro mid hmid hbefore
      obtain ⟨first, c', rest, front, back, hcs, hc', hm⟩ := ih hmid
      exact ⟨c :: first, c', rest, front, back, by rw [hcs]; rfl, hc',
        by rw [hbefore, hm, List.flatMap_cons, List.append_assoc]⟩
    rcases List.append_eq_append_iff.1 h with ⟨mid, hbefore, hmid⟩ | ⟨mid, hc, hmid⟩
    · exact hrest hmid hbefore
    · cases mid with
      | nil =>
        rw [List.append_nil] at hc
        have hrest' : cs.flatMap f = [] ++ b :: after := hmid.symm
        exact hrest hrest' (by rw [List.append_nil, hc])
      | cons b' back =>
        rw [List.cons_append, List.cons.injEq] at hmid
        obtain ⟨rfl, -⟩ := hmid
        exact ⟨[], c, cs, before, back, rfl, hc, rfl⟩

section Search

variable {G : SimpleGraph ℕ} {size i p u : ℕ} {cs : List (List ℕ)} {c front back : List ℕ}
  {entry : List ℕ → ℕ} {search : ℕ → List ℕ}

/-- Everything before a vertex stays connected when an edge to that vertex is removed. -/
theorem SearchOrder.onSide (h : SearchOrder G u (front ++ i :: back)) (hp : p ∈ front) :
    ∀ k ∈ front, OnSide G p i k := by
  have hi : i ∉ front := fun hin =>
    (List.nodup_append.1 h.nodup).2.2 i hin i List.mem_cons_self rfl
  have hpath : ∀ l, l <+: front → ∀ w ∈ l, (G.deleteEdges {s(p, i)}).Reachable u w := by
    intro l
    induction l using List.reverseRecOn with
    | nil => exact fun _ w hw => absurd hw List.not_mem_nil
    | append_singleton l v ih =>
      rintro ⟨rest, hfront⟩ w hw
      have hl : l <+: front := ⟨v :: rest, by rw [← hfront, List.append_assoc]; rfl⟩
      have hsplit : front ++ i :: back = l ++ v :: (rest ++ i :: back) := by
        rw [← hfront]
        simp
      rcases List.mem_append.1 hw with hw | hw
      · exact ih hl w hw
      · rw [List.mem_singleton.1 hw]
        by_cases hnil : l = []
        · have hhead := h.head?_eq
          rw [hsplit, hnil, List.nil_append, List.head?_cons] at hhead
          rw [Option.some.inj hhead]
        · obtain ⟨q, hq, hadj⟩ := h.attached l v _ hsplit hnil
          have hv : v ∈ front := by
            rw [← hfront]
            simp
          refine (ih hl q hq).trans (SimpleGraph.Adj.reachable ?_)
          rw [SimpleGraph.deleteEdges_adj]
          refine ⟨hadj, fun he => ?_⟩
          -- Neither end of the edge is the vertex itself.
          rcases Sym2.eq_iff.1 he with ⟨-, rfl⟩ | ⟨rfl, -⟩
          · exact hi hv
          · exact hi (hl.subset hq)
  exact fun k hk => (hpath front (List.prefix_refl _) p hp).symm.trans
    (hpath front (List.prefix_refl _) k hk)

namespace ComponentsOf

variable (h : ComponentsOf G size cs)
include h

theorem lt_size (hc : c ∈ cs) (hi : i ∈ c) : i < size :=
  List.mem_range.1 (h.perm.mem_iff.1 (List.mem_flatten.2 ⟨c, hc, hi⟩))

theorem flatten_nodup : cs.flatten.Nodup := h.perm.nodup_iff.2 List.nodup_range

variable (hentry : ∀ c ∈ cs, entry c ∈ c) (hsearch : ∀ u < size, SearchOrder G u (search u))
include hentry hsearch

/-- A search from a vertex of a component visits the component. -/
theorem searchOrder (hc : c ∈ cs) : SearchOrder G (entry c) (search (entry c)) :=
  hsearch _ (h.lt_size hc (hentry c hc))

theorem mem_search_iff (hc : c ∈ cs) : i ∈ search (entry c) ↔ i ∈ c := by
  rw [(h.searchOrder hentry hsearch hc).mem_iff, h.mem_iff c hc _ (hentry c hc)]

/-- Searching one component after the other visits every vertex once. -/
theorem flatMap_perm : (cs.flatMap fun c => search (entry c)).Perm (List.range size) := by
  have hblock : ∀ c ∈ cs, (search (entry c)).Perm c := by
    intro c hc
    have hnodup : c.Nodup := (List.nodup_flatten.1 h.flatten_nodup).1 c hc
    rw [List.perm_ext_iff_of_nodup (h.searchOrder hentry hsearch hc).nodup hnodup]
    exact fun i => h.mem_search_iff hentry hsearch hc
  have hflat := (List.Perm.flatMap_left cs hblock).trans (List.Perm.of_eq List.flatMap_id)
  exact hflat.trans h.perm

/-- Searching one component after the other gives an order in which cliques can be decoded. -/
theorem traceback : Traceback G (cs.flatMap fun c => search (entry c)) := by
  intro before i after he
  obtain ⟨first, c, rest, front, back, hcs, hblock, rfl⟩ := exists_of_flatMap_eq he
  have hc : c ∈ cs := by
    rw [hcs]
    exact List.mem_append_right _ List.mem_cons_self
  have horder := h.searchOrder hentry hsearch hc
  have hic : i ∈ c := by
    rw [← h.mem_search_iff hentry hsearch hc, hblock]
    exact List.mem_append_right _ List.mem_cons_self
  rw [hblock] at horder
  have hearlier : ∀ k ∈ first.flatMap fun d => search (entry d), ¬ G.Reachable k i := by
    intro k hk hreach
    obtain ⟨d, hd, hkd⟩ := List.mem_flatMap.1 hk
    have hdin : d ∈ cs := by
      rw [hcs]
      exact List.mem_append_left _ hd
    have hkd' : k ∈ d := (h.mem_search_iff hentry hsearch hdin).1 hkd
    have hid : i ∈ d := (h.mem_iff d hdin k hkd' i).2 hreach
    have hall := h.flatten_nodup
    rw [hcs, List.flatten_append, List.flatten_cons] at hall
    exact (List.nodup_append.1 hall).2.2 i (List.mem_flatten.2 ⟨d, hd, hid⟩) i
      (List.mem_append_left _ hic) rfl
  refine ⟨fun hin => ?_, ?_⟩
  · rcases List.mem_append.1 hin with hin | hin
    · exact hearlier i hin (SimpleGraph.Reachable.refl i)
    · exact (List.nodup_append.1 horder.nodup).2.2 i hin i List.mem_cons_self rfl
  · by_cases hfront : front = []
    · subst hfront
      exact Or.inl fun k hk => hearlier k (by rwa [List.append_nil] at hk)
    · obtain ⟨p, hp, hadj⟩ := horder.attached front i back rfl hfront
      refine Or.inr ⟨p, List.mem_append_right _ hp, hadj, fun k hk hreach => ?_⟩
      exact horder.onSide hp k ((List.mem_append.1 hk).resolve_left fun hk => hearlier k hk hreach)

end ComponentsOf

end Search

namespace CliqueTree

variable {W L : Type} {t : CliqueTree W L} {c : List ℕ} {i j k u : ℕ} {roots : List Int}

theorem mem_adjacent : k ∈ t.adjacent u ↔ t.graph.Adj u k := by
  have hlt : ∀ {i j}, (i, j) ∈ t.edges → i < j := by
    intro i j he
    obtain ⟨c, -, n, -, hlt, hj⟩ := mem_edges.1 he
    omega
  rw [adjacent, List.mem_filterMap, graph, SimpleGraph.fromRel_adj]
  constructor
  · rintro ⟨⟨i, j⟩, he, hk⟩
    have hne := (hlt he).ne
    simp only at hk
    split at hk
    · next hi =>
      cases hk
      exact ⟨hi ▸ hne, Or.inl (hi ▸ he)⟩
    · split at hk
      · next hj =>
        cases hk
        exact ⟨hj ▸ hne.symm, Or.inr (hj ▸ he)⟩
      · cases hk
  · rintro ⟨hne, he | he⟩
    · exact ⟨(u, k), he, by simp⟩
    · exact ⟨(k, u), he, by simp [hne.symm]⟩

theorem lt_size_of_edge {e : ℕ × ℕ} {axes : List Axis} (h : t.WellBuilt axes) (he : e ∈ t.edges) :
    e.1 < t.size ∧ e.2 < t.size := by
  have hadj : t.graph.Adj e.1 e.2 := by
    obtain ⟨c, -, n, -, hlt, hj⟩ := mem_edges.1 he
    rw [graph, SimpleGraph.fromRel_adj]
    exact ⟨by omega, Or.inl he⟩
  exact ⟨h.forest.lt_size hadj, h.forest.lt_size hadj.symm⟩

theorem components_eq_of_frame_eq {u : CliqueTree W L} (h : t.frame = u.frame) :
    t.components = u.components := by
  rw [components, components, size_eq_of_frame_eq h, edges_eq_of_frame_eq h]

/-- The components hold every clique once. -/
theorem components_perm (t : CliqueTree W L) : t.components.flatten.Perm (List.range t.size) :=
  flatten_groupsOf_perm _ _

theorem lt_size_of_mem_component (hc : c ∈ t.components) (hi : i ∈ c) : i < t.size :=
  List.mem_range.1 ((components_perm t).mem_iff.1 (List.mem_flatten.2 ⟨c, hc, hi⟩))

theorem nodup_component (hc : c ∈ t.components) : c.Nodup :=
  (List.nodup_flatten.1 ((components_perm t).nodup_iff.2 List.nodup_range)).1 c hc

/-- A component holds what edges connect. -/
theorem mem_component_iff {axes : List Axis} (h : t.WellBuilt axes) (hc : c ∈ t.components)
    (hi : i ∈ c) : j ∈ c ↔ t.graph.Reachable i j := by
  have hlinks : ∀ l ∈ t.edges.map (fun e => [e.1, e.2]), ∀ x ∈ l, x ∈ List.range t.size := by
    intro l hl x hx
    obtain ⟨e, he, rfl⟩ := List.mem_map.1 hl
    obtain ⟨h₁, h₂⟩ := lt_size_of_edge h he
    simp only [List.mem_cons, List.not_mem_nil, or_false] at hx
    rw [List.mem_range]
    rcases hx with rfl | rfl
    · exact h₁
    · exact h₂
  have hedge : ∀ {i j}, t.graph.Adj i j → (i, j) ∈ t.edges ∨ (j, i) ∈ t.edges := fun hadj => by
    rw [graph, SimpleGraph.fromRel_adj] at hadj
    exact hadj.2
  rw [mem_group_iff hlinks hc hi]
  constructor
  · rintro ⟨-, hij⟩
    induction hij with
    | refl => exact SimpleGraph.Reachable.refl i
    | tail _ hstep ih =>
      obtain ⟨l, hl, ha, hb⟩ := hstep
      obtain ⟨e, he, rfl⟩ := List.mem_map.1 hl
      simp only [List.mem_cons, List.not_mem_nil, or_false] at ha hb
      by_cases hne : e.1 = e.2
      · rcases ha with rfl | rfl <;> rcases hb with rfl | rfl <;> simp_all
      · have hadj : t.graph.Adj e.1 e.2 := by
          rw [graph, SimpleGraph.fromRel_adj]
          exact ⟨hne, Or.inl he⟩
        rcases ha with rfl | rfl <;> rcases hb with rfl | rfl
        · exact ih
        · exact ih.trans hadj.reachable
        · exact ih.trans hadj.symm.reachable
        · exact ih
  · intro hij
    have hstep : ∀ {u w}, t.graph.Adj u w →
        Linked (t.edges.map fun e : ℕ × ℕ => [e.1, e.2]) u w := fun {u w} hadj => by
      rcases hedge hadj with he | he
      · exact ⟨[u, w], List.mem_map.2 ⟨(u, w), he, rfl⟩, by simp, by simp⟩
      · exact ⟨[w, u], List.mem_map.2 ⟨(w, u), he, rfl⟩, by simp, by simp⟩
    have hbase : i ∈ List.range t.size := List.mem_range.2 (lt_size_of_mem_component hc hi)
    exact reachable_induct (P := fun j => j ∈ List.range t.size ∧
        Relation.ReflTransGen (Linked (t.edges.map fun e : ℕ × ℕ => [e.1, e.2])) i j) hij
      ⟨hbase, Relation.ReflTransGen.refl⟩ fun u w hu hadj =>
        ⟨List.mem_range.2 (h.forest.lt_size hadj.symm), hu.2.tail (hstep hadj)⟩

theorem component_ne_nil (hc : c ∈ t.components) : c ≠ [] :=
  (grouped_groupsOf _ _).ne_nil c hc

/-- The components are those of the graph of the edges. -/
theorem WellBuilt.componentsOf {axes : List Axis} (h : t.WellBuilt axes) :
    ComponentsOf t.graph t.size t.components where
  perm := components_perm t
  ne_nil _ hc := component_ne_nil hc
  mem_iff _ hc _ hi _ := mem_component_iff h hc hi
  ascending := leads_groupsOf List.pairwise_lt_range _

/-- A preorder along the edges is a search. -/
theorem WellBuilt.searchOrder {axes : List Axis} (h : t.WellBuilt axes) (hu : u < t.size) :
    SearchOrder t.graph u (preorder t.adjacent t.size u) := by
  have hnear : ∀ u < t.size, ∀ k ∈ t.adjacent u, k < t.size := fun u _ k hk =>
    h.forest.lt_size (mem_adjacent.1 hk).symm
  have hhead := head?_preorder (u := u) t.adjacent (Nat.zero_lt_of_lt hu)
  obtain ⟨hexplored, hself⟩ := explored_preorder hnear hu
  refine ⟨hhead, hexplored.nodup, fun w => ⟨fun hw => ?_, fun hw => ?_⟩, ?_⟩
  · have hpath := hexplored.attached.connected hhead hw
    induction hpath with
    | refl => exact SimpleGraph.Reachable.refl u
    | tail _ hstep ih =>
      exact (ih hstep.1).trans (mem_adjacent.1 hstep.2.2).reachable
  · exact reachable_induct (P := fun w => w ∈ preorder t.adjacent t.size u) hw hself
      fun x y hx hadj => hexplored.closed x hx (by simp) y (mem_adjacent.2 hadj)
  · intro before w after he hne
    obtain ⟨p, hp, hw⟩ := hexplored.attached before w after he hne
    exact ⟨p, hp, mem_adjacent.1 hw⟩

theorem entryOf_mem (roots : List Int) (hc : c ∈ t.components) : entryOf roots c ∈ c := by
  unfold entryOf rootIn?
  cases hm : (c.filter fun (i : ℕ) => roots.contains (i : Int)).min? with
  | some r => exact (List.mem_filter.1 (List.min?_mem hm)).1
  | none =>
    cases hmin : c.min? with
    | some r => exact List.min?_mem hmin
    | none => exact absurd (List.min?_eq_none_iff.1 hmin) (component_ne_nil hc)

/-- The traceback order goes through one component after the other, each from clique to attached
clique. -/
theorem traceback_tracebackOrder {axes : List Axis} (h : t.WellBuilt axes) (roots : List Int) :
    Traceback t.graph (t.tracebackOrder roots) :=
  h.componentsOf.traceback (fun _ hc => entryOf_mem roots hc) fun _ hu => h.searchOrder hu

theorem tracebackOrder_eq_of_frame_eq {u : CliqueTree W L} (h : t.frame = u.frame)
    (roots : List Int) : t.tracebackOrder roots = u.tracebackOrder roots := by
  have hadjacent : t.adjacent = u.adjacent := by
    funext i
    rw [adjacent, adjacent, edges_eq_of_frame_eq h]
  rw [tracebackOrder, tracebackOrder, components_eq_of_frame_eq h, size_eq_of_frame_eq h, hadjacent]

/-- The traceback order holds every clique. -/
theorem mem_tracebackOrder {axes : List Axis} (h : t.WellBuilt axes) (roots : List Int) :
    i ∈ t.tracebackOrder roots ↔ i < t.size := by
  have hperm := h.componentsOf.flatMap_perm (fun _ hc => entryOf_mem roots hc)
    fun _ hu => h.searchOrder hu
  rw [tracebackOrder, hperm.mem_iff, List.mem_range]

end CliqueTree

end ExactInference
