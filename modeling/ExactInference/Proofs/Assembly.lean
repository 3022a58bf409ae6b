import ExactInference.Proofs.PassedTrees
import ExactInference.Proofs.Traversal

/-!
# Putting a marginal set together

Once the marginals of all cliques are taken out, with one root for each component, their totals are
multiplied and the marginals of each component are scaled. Whatever the weights are, this only fails
if the total is zero, or if the ratio of two totals is too large to be written.
-/

namespace ExactInference

variable {W L : Type}

/-- What can go wrong with the totals of a tree: the product of all is zero, or the ratio of two is
too large to be written. -/
def Fault.IsOfTotals (e : Fault) : Prop := e = .zeroProbability ∨ e = .exponentialTooLarge

namespace CliqueTree

variable {t : CliqueTree W L} {axes : List Axis} {roots : List Int} {r : ℕ}

/-- The roots as natural numbers. -/
def rootSet (roots : List Int) : Finset ℕ := (roots.map Int.toNat).toFinset

namespace RootsOf

theorem mem_rootSet (h : RootsOf t roots) : r ∈ rootSet roots ↔ (r : Int) ∈ roots := by
  rw [rootSet, List.mem_toFinset, List.mem_map]
  constructor
  · rintro ⟨n, hn, hr⟩
    obtain ⟨s, rfl, -⟩ := h.lt_size hn
    rw [Int.toNat_natCast] at hr
    exact hr ▸ hn
  · exact fun hr => ⟨r, hr, Int.toNat_natCast r⟩

theorem nodup_toNat (h : RootsOf t roots) : (roots.map Int.toNat).Nodup := by
  refine List.Nodup.map_on (fun m hm n hn he => ?_) h.nodup
  obtain ⟨r, rfl, -⟩ := h.lt_size hm
  obtain ⟨s, rfl, -⟩ := h.lt_size hn
  rw [Int.toNat_natCast, Int.toNat_natCast] at he
  rw [he]

theorem map_ofNat (h : RootsOf t roots) : (roots.map Int.toNat).map Int.ofNat = roots := by
  rw [List.map_map]
  refine (List.map_congr_left fun n hn => ?_).trans (List.map_id roots)
  obtain ⟨r, rfl, -⟩ := h.lt_size hn
  rfl

/-- Roots in another order are roots as well. -/
theorem perm {more : List Int} (h : RootsOf t roots) (hp : more.Perm roots) : RootsOf t more where
  lt_size hn := h.lt_size (hp.mem_iff.1 hn)
  nodup := hp.nodup_iff.2 h.nodup
  exists_root hi := by
    obtain ⟨r, hr, hreach⟩ := h.exists_root hi
    exact ⟨r, hp.mem_iff.2 hr, hreach⟩
  unique hr hs := h.unique (hp.mem_iff.1 hr) (hp.mem_iff.1 hs)

/-- The root of a component. -/
theorem rootIn?_eq (h : RootsOf t roots) (hbuilt : t.WellBuilt axes) {c : List ℕ}
    (hc : c ∈ t.components) :
    ∃ r, rootIn? roots c = some r ∧ r ∈ c ∧ (r : Int) ∈ roots := by
  obtain ⟨i, hi⟩ := List.exists_mem_of_ne_nil c (component_ne_nil hc)
  obtain ⟨r, hr, hreach⟩ := h.exists_root (lt_size_of_mem_component hc hi)
  have hrc : r ∈ c := (mem_component_iff hbuilt hc hi).2 hreach.symm
  have hmem : r ∈ c.filter fun (i : ℕ) => roots.contains (i : Int) :=
    List.mem_filter.2 ⟨hrc, by simpa using hr⟩
  cases hmin : rootIn? roots c with
  | none =>
    rw [rootIn?, List.min?_eq_none_iff] at hmin
    rw [hmin] at hmem
    simp at hmem
  | some s =>
    have hs := List.min?_mem hmin
    obtain ⟨hsc, hsr⟩ := List.mem_filter.1 hs
    exact ⟨s, rfl, hsc, by simpa using hsr⟩

end RootsOf

end CliqueTree

namespace Passing

open CliqueTree

variable [WeightScale W] [WeightScale L] [LogConversion W L] {t : CliqueTree W L}
  {axes : List Axis} {roots : List Int} {ms : List (Factor W L)}
  {conditioned cards : OrderedMap String Int}

/-- Scale the marginal of one clique. -/
def scaleAt (offset : L) (ms : List (Factor W L)) (i : ℕ) : Except Fault (List (Factor W L)) := do
  let scaled ← (← elementAt ms (i : Int)).scaleLog offset
  .ok (ms.set i scaled)

/-- The marginals of a component are scaled by the total over that of the root. -/
theorem rescaleComponent_eq {logTotal own : L} {c : List ℕ} {r : ℕ} {m : Factor W L}
    (hroot : rootIn? roots c = some r) (hm : ms[r]? = some m) (hown : m.totalLogWeight = .ok own) :
    rescaleComponent logTotal roots ms c
      = c.foldlM (scaleAt (WeightScale.quotient logTotal own)) ms := by
  rw [rescaleComponent, hroot]
  change (elementAt ms (r : Int) >>= fun m => m.totalLogWeight >>= fun own =>
    c.foldlM (scaleAt (WeightScale.quotient logTotal own)) ms) = _
  rw [elementAt_eq_ok hm]
  change (m.totalLogWeight >>= fun own =>
    c.foldlM (scaleAt (WeightScale.quotient logTotal own)) ms) = _
  rw [hown]
  rfl

/-- A marginal set only depends on the components of a tree. -/
theorem assemble_eq_of_frame_eq {u : CliqueTree W L} (h : t.frame = u.frame) :
    assemble t ms roots conditioned cards = assemble u ms roots conditioned cards := by
  rw [assemble, assemble, components_eq_of_frame_eq h]

/-- Roots are not dropped, and there is one. -/
theorem assemble_eq (h : RootsOf t roots) (hsize : 0 < t.size) :
    assemble t ms roots conditioned cards = logTotalOf ms (ascending roots) >>= fun logTotal =>
      if LogConversion.isBottom W logTotal then .error .zeroProbability
      else (if roots.length > 1 then t.components.foldlM (rescaleComponent logTotal roots) ms
        else .ok ms) >>= fun scaled => .ok ⟨scaled, logTotal, conditioned, cards⟩ := by
  have hroots : roots.foldl addOnce [] = roots :=
    foldl_addOnce h.nodup fun _ _ => List.not_mem_nil
  have hne : roots.isEmpty = false := by
    obtain ⟨r, hr, -⟩ := h.exists_root hsize
    cases roots with
    | nil => simp at hr
    | cons => rfl
  unfold assemble
  simp only [hroots, hne, Bool.false_eq_true, if_false]
  cases logTotalOf ms (ascending roots) with
  | error e => rfl
  | ok c =>
    change (if LogConversion.isBottom W c = true then _ else _) = _
    change _ = (if LogConversion.isBottom W c = true then _ else _)
    by_cases hb : LogConversion.isBottom W c = true
    · rw [if_pos hb, if_pos hb]
      rfl
    · rw [if_neg hb, if_neg hb]
      by_cases hmany : roots.length > 1
      · rw [if_pos hmany, if_pos hmany]
      · rw [if_neg hmany, if_neg hmany]

/-- Every clique has a marginal whose variables have states. -/
def Weighable (t : CliqueTree W L) (ms : List (Factor W L)) : Prop :=
  ∀ i < t.size, ∃ m, ms[i]? = some m ∧ ∀ a ∈ m.scope.axes, 0 < a.card

omit [WeightScale W] [WeightScale L] [LogConversion W L] in
/-- The marginals that are taken out of a tree are weighable. -/
theorem weighable_of_isComplete (hbuilt : t.WellBuilt axes) (hpos : ∀ a ∈ axes, 0 < a.card)
    (h : List.Forall₂ (IsComplete (Coherent axes) t) (List.range t.size) ms) :
    Weighable t ms := by
  intro i hi
  have hi' : i < ms.length := by
    rw [← h.length_eq, List.length_range]
    exact hi
  have hget := h.get (by rwa [List.length_range]) hi'
  rw [List.get_eq_getElem, List.get_eq_getElem, List.getElem_range] at hget
  obtain ⟨c, hc, hscope⟩ := hget.exists_scope_eq
  refine ⟨ms[i], List.getElem?_eq_getElem hi', fun a ha => hpos a ?_⟩
  rw [hscope] at ha
  exact hbuilt.within hc a ha

/-- Scaling one marginal keeps the axes of all. -/
theorem Weighable.scaleAt (offset : L) (h : Weighable t ms) {i : ℕ} (hi : i < t.size) :
    Yields Fault.IsOfTotals (Weighable t) (scaleAt offset ms i) := by
  obtain ⟨m, hm, hpos⟩ := h i hi
  rw [Passing.scaleAt, elementAt_eq_ok hm]
  change Yields _ _ (m.scaleLog offset >>= fun n => .ok (ms.set i n))
  rcases m.scaleLog_cases offset with ⟨n, hn, hscope⟩ | hlarge
  · rw [hn]
    intro j hj
    by_cases hij : i = j
    · subst hij
      refine ⟨n, List.getElem?_set_self (List.getElem?_eq_some_iff.1 hm).1, ?_⟩
      rw [hscope]
      exact hpos
    · rw [List.getElem?_set_ne hij]
      exact h j hj
  · rw [hlarge]
    exact Or.inr rfl

/-- Scaling the marginals of one component keeps the axes of all. -/
theorem Weighable.rescaleComponent (h : Weighable t ms) (hroots : RootsOf t roots)
    (hbuilt : t.WellBuilt axes) (logTotal : L) {c : List ℕ} (hc : c ∈ t.components) :
    Yields Fault.IsOfTotals (Weighable t) (rescaleComponent logTotal roots ms c) := by
  have hlt : ∀ i ∈ c, i < t.size := fun i hi => lt_size_of_mem_component hc hi
  obtain ⟨r, hrin, hr, -⟩ := hroots.rootIn?_eq hbuilt hc
  obtain ⟨m, hm, hpos⟩ := h r (hlt r hr)
  obtain ⟨own, hown⟩ := m.exists_totalLogWeight hpos
  rw [rescaleComponent_eq hrin hm hown]
  exact Yields.foldlM (fun ms i hi hms => hms.scaleAt _ (hlt i hi)) h

/-- The total of some cliques can be taken. -/
theorem Weighable.exists_logTotalOf (h : Weighable t ms) (ns : List Int)
    (hns : ∀ n ∈ ns, ∃ r : ℕ, n = r ∧ r < t.size) : ∃ c : L, logTotalOf ms ns = .ok c := by
  have hyields : Yields (fun _ => False) (fun _ : L => True) (logTotalOf ms ns) := by
    refine Yields.foldlM (fun sum n hn _ => ?_) trivial
    obtain ⟨r, rfl, hr⟩ := hns n hn
    obtain ⟨m, hm, hpos⟩ := h r hr
    obtain ⟨c, hc⟩ := m.exists_totalLogWeight hpos
    rw [elementAt_eq_ok hm]
    change Yields _ _ (m.totalLogWeight >>= fun c => .ok (WeightScale.mul sum c))
    rw [hc]
    trivial
  cases hc : logTotalOf ms ns with
  | ok c => exact ⟨c, rfl⟩
  | error e => exact (hyields.fault_of_eq_error hc).elim

/-- Marginals of all cliques, with one root for each component, make a marginal set. -/
theorem Weighable.assemble (h : Weighable t ms) (hroots : RootsOf t roots)
    (hbuilt : t.WellBuilt axes) (hsize : 0 < t.size) :
    Yields Fault.IsOfTotals (fun _ => True) (assemble t ms roots conditioned cards) := by
  obtain ⟨c, hc⟩ := h.exists_logTotalOf (ascending roots) fun n hn =>
    hroots.lt_size ((arrange_perm _ roots).mem_iff.1 hn)
  rw [assemble_eq hroots hsize, hc]
  change Yields _ _ (if LogConversion.isBottom W c = true then _ else _)
  split
  · exact Or.inl rfl
  · refine Yields.bind (?_ : Yields _ (Weighable t) _) fun _ _ => trivial
    split
    · exact Yields.foldlM (fun ms d hd hms => hms.rescaleComponent hroots hbuilt c hd) h
    · exact h

end Passing

end ExactInference
