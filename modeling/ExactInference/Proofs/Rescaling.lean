import ExactInference.Proofs.Assembly

/-!
# Totals and rescaling

A final marginal sums to the total of its component. The product of the totals of the roots is the
total of all cliques, and scaling the marginals of a component by the totals of the others turns
them into marginals of all cliques. Every clique lies in one component, so it is scaled once, and
the root of a component has not been scaled when its total is read.
-/

namespace ExactInference

variable {W L : Type} [Semifield W] [LinearOrder W] [WeightScale W] [WeightScale L]
  [LogConversion W L]

namespace CliqueTree

variable {t : CliqueTree W L} {axes : List Axis} {mode : Mode} {roots : List Int}
  {ms : List (Factor W L)} {i r : ℕ} {m : Factor W L}

/-- The total of the component of a clique. -/
noncomputable def totalOf (mode : Mode) (axes : List Axis) (t : CliqueTree W L) (i : ℕ) : W :=
  cliqueMarginal mode axes t.scopeOf t.weightOf (treeOf t.size t.graph i) ∅ JointState.origin

/-- The total of all cliques. -/
noncomputable def grandTotal (mode : Mode) (axes : List Axis) (t : CliqueTree W L) : W :=
  cliqueMarginal mode axes t.scopeOf t.weightOf (Finset.range t.size) ∅ JointState.origin

/-- Connected cliques lie in one component. -/
theorem totalOf_eq_of_reachable (h : t.graph.Reachable r i) :
    t.totalOf mode axes r = t.totalOf mode axes i := by
  rw [totalOf, totalOf, IsJoinForest.treeOf_eq_of_reachable h]

namespace RootsOf

variable [IsStrictOrderedRing W] [CanonicallyOrderedAdd W]

/-- The totals of the components multiply to the total of all cliques. -/
theorem grandTotal_eq (h : RootsOf t roots) (hbuilt : t.WellBuilt axes)
    (hd : (axes.map Axis.name).Nodup) (hpos : ∀ a ∈ axes, 0 < a.card) :
    t.grandTotal mode axes = ∏ r ∈ rootSet roots, t.totalOf mode axes r := by
  refine hbuilt.forest.cliqueMarginal_trees mode hd t.reads_weightOf hbuilt.scopeOf_subset
    (fun i hi => ?_) (fun r hr s hs => ?_) ∅ (inRange_origin hpos)
  · obtain ⟨r, hr, hreach⟩ := h.exists_root hi
    exact ⟨r, h.mem_rootSet.2 hr, hreach⟩
  · exact h.unique (h.mem_rootSet.1 hr) (h.mem_rootSet.1 hs)

/-- A marginal of one component, times the total of all cliques over that of the component, is the
marginal of all cliques. -/
theorem treeMarginal_scaled (h : RootsOf t roots) (hbuilt : t.WellBuilt axes)
    (hd : (axes.map Axis.name).Nodup) (hpos : ∀ a ∈ axes, 0 < a.card)
    (hne : t.grandTotal mode axes ≠ 0) (hi : i < t.size) {x : JointState} (hx : InRange axes x) :
    t.treeMarginal mode axes i x * (t.grandTotal mode axes / t.totalOf mode axes i)
      = cliqueMarginal mode axes t.scopeOf t.weightOf (Finset.range t.size) (t.scopeOf i) x := by
  obtain ⟨r, hr, hreach⟩ := h.exists_root hi
  have hnumber : ∀ cliques : Finset ℕ,
      cliqueMarginal mode axes t.scopeOf t.weightOf cliques ∅ JointState.origin
        = cliqueMarginal mode axes t.scopeOf t.weightOf cliques ∅ x := fun cliques =>
    reads_cliqueMarginal mode t.reads_weightOf hbuilt.scopeOf_subset cliques ∅ _ _
      fun n hn => absurd hn (Finset.notMem_empty n)
  have hfactor : t.totalOf mode axes r ≠ 0 := by
    rw [h.grandTotal_eq hbuilt hd hpos] at hne
    exact fun hz => hne (Finset.prod_eq_zero (h.mem_rootSet.2 hr) hz)
  rw [← totalOf_eq_of_reachable hreach, grandTotal, totalOf, hnumber, hnumber]
  rw [totalOf, hnumber] at hfactor
  refine hbuilt.forest.cliqueMarginal_scaled mode hd t.reads_weightOf hbuilt.scopeOf_subset
    (fun i hi => ?_) (fun r hr s hs => ?_) (h.mem_rootSet.2 hr) hreach hi hx hfactor
  · obtain ⟨r, hr, hreach⟩ := h.exists_root hi
    exact ⟨r, h.mem_rootSet.2 hr, hreach⟩
  · exact h.unique (h.mem_rootSet.1 hr) (h.mem_rootSet.1 hs)

end RootsOf

namespace IsFinal

/-- A final marginal is over some of the axes. -/
theorem within (h : IsFinal mode axes t i m) (hbuilt : t.WellBuilt axes) :
    m.scope.Within axes := by
  obtain ⟨⟨c, hc, hscope⟩, -⟩ := h
  rw [hscope]
  exact hbuilt.within hc

variable [CanonicallyOrderedAdd W] [ExactScale W]

/-- A final marginal sums to the total of its component. -/
theorem totalWeight_eq (h : IsFinal .sum axes t i m) (hbuilt : t.WellBuilt axes)
    (hd : (axes.map Axis.name).Nodup) (hpos : ∀ a ∈ axes, 0 < a.card) (hi : i < t.size) :
    m.totalWeight = t.totalOf .sum axes i := by
  have horigin : InRange axes JointState.origin := inRange_origin hpos
  rw [Factor.totalWeight_eq_collapse hd (h.within hbuilt) JointState.origin,
    Mode.collapse_congr .sum fun y hy => h.2 y (inRange_of_mem_variants hd horigin hy), h.vars_eq]
  exact collapse_cliqueMarginal .sum hd (IsJoinForest.scope_subset_tree t.scopeOf hi)
    JointState.origin

variable [ExactLog W L]

theorem totalLogWeight_spec (h : IsFinal .sum axes t i m) (hbuilt : t.WellBuilt axes)
    (hd : (axes.map Axis.name).Nodup) (hpos : ∀ a ∈ axes, 0 < a.card) (hi : i < t.size) :
    ∃ c : L, m.totalLogWeight = .ok c ∧ LogConversion.exp c = t.totalOf .sum axes i := by
  obtain ⟨c, hc, hexp⟩ := m.totalLogWeight_spec fun a ha => hpos a (h.within hbuilt a ha)
  exact ⟨c, hc, hexp.trans (h.totalWeight_eq hbuilt hd hpos hi)⟩

end IsFinal

end CliqueTree

namespace Passing

open CliqueTree

variable [ExactLog W L] {t : CliqueTree W L} {axes : List Axis} {roots : List Int}
  {ms : List (Factor W L)}

/-- The totals of some marginals are multiplied. -/
theorem logTotalOf_spec {rs : List ℕ} {total : ℕ → W} (h : ∀ r ∈ rs, ∃ m, ms[r]? = some m ∧
      ∃ c : L, m.totalLogWeight = .ok c ∧ LogConversion.exp c = total r) :
    ∃ c : L, logTotalOf ms (rs.map Int.ofNat) = .ok c ∧
      LogConversion.exp c = (rs.map total).prod := by
  have hfrom : ∀ (rs : List ℕ) (start : L), (∀ r ∈ rs, ∃ m, ms[r]? = some m ∧
      ∃ c : L, m.totalLogWeight = .ok c ∧ LogConversion.exp c = total r) →
      ∃ c : L, (rs.map Int.ofNat).foldlM (fun sum root => do
          .ok (WeightScale.mul sum (← (← elementAt ms root).totalLogWeight))) start
            = (.ok c : Except Fault L) ∧
        LogConversion.exp c = (LogConversion.exp start : W) * (rs.map total).prod := by
    intro rs
    induction rs with
    | nil => exact fun start _ => ⟨start, rfl, by simp⟩
    | cons r rs ih =>
      intro start h
      obtain ⟨m, hm, c, hc, hexp⟩ := h r List.mem_cons_self
      obtain ⟨c', hc', hexp'⟩ := ih (WeightScale.mul start c) fun s hs =>
        h s (List.mem_cons_of_mem r hs)
      refine ⟨c', ?_, ?_⟩
      · rw [List.map_cons, List.foldlM_cons]
        change (elementAt ms (r : Int) >>= fun m => m.totalLogWeight >>= fun c =>
          .ok (WeightScale.mul start c)) >>= _ = _
        rw [elementAt_eq_ok hm]
        change (m.totalLogWeight >>= fun c => .ok (WeightScale.mul start c)) >>= _ = _
        rw [hc]
        exact hc'
      · rw [hexp', ExactLog.exp_mul, hexp, List.map_cons, List.prod_cons, mul_assoc]
  obtain ⟨c, hc, hexp⟩ := hfrom rs WeightScale.one h
  exact ⟨c, hc, by rw [hexp, ExactLog.exp_one, one_mul]⟩

variable [ExactScale W]

/-- The marginals of the listed cliques are scaled, each once, and the others stay. -/
theorem foldlM_scaleAt (offset : L) {is : List ℕ} (his : is.Nodup) (hlt : ∀ i ∈ is, i < ms.length) :
    ∃ out, is.foldlM (scaleAt offset) ms = .ok out ∧ out.length = ms.length ∧
      (∀ i ∉ is, out[i]? = ms[i]?) ∧
      ∀ i ∈ is, ∀ m, ms[i]? = some m → ∃ n, out[i]? = some n ∧ n.scope = m.scope ∧
        ∀ x, InRange m.scope.axes x →
          n.weightAt x = m.weightAt x * LogConversion.exp offset := by
  induction is generalizing ms with
  | nil => exact ⟨ms, rfl, rfl, fun _ _ => rfl, fun i hi => absurd hi List.not_mem_nil⟩
  | cons j is ih =>
    obtain ⟨hj, his⟩ := List.nodup_cons.1 his
    have hjlt := hlt j List.mem_cons_self
    obtain ⟨n, hn, hscope, hweight⟩ := ms[j].scaleLog_spec offset
    have hlt' : ∀ i ∈ is, i < (ms.set j n).length := fun i hi => by
      rw [List.length_set]
      exact hlt i (List.mem_cons_of_mem j hi)
    obtain ⟨out, hout, hlength, hother, hscaled⟩ := ih his hlt'
    have hstep : scaleAt offset ms j = .ok (ms.set j n) := by
      rw [scaleAt, elementAt_eq_ok (List.getElem?_eq_getElem hjlt)]
      change (ms[j].scaleLog offset >>= fun n => .ok (ms.set j n)) = _
      rw [hn]
      rfl
    refine ⟨out, ?_, ?_, ?_, ?_⟩
    · rw [List.foldlM_cons, hstep]
      exact hout
    · rw [hlength, List.length_set]
    · intro i hi
      rw [List.mem_cons, not_or] at hi
      rw [hother i hi.2, List.getElem?_set_ne (Ne.symm hi.1)]
    · intro i hi m hm
      rcases List.mem_cons.1 hi with rfl | hi
      · rw [List.getElem?_eq_getElem hjlt, Option.some.injEq] at hm
        subst hm
        refine ⟨n, ?_, hscope, hweight⟩
        rw [hother i hj, List.getElem?_set_self hjlt]
      · have hij : j ≠ i := fun he => hj (he ▸ hi)
        exact hscaled i hi m (by rw [List.getElem?_set_ne hij]; exact hm)

/-- Whether a factor is the marginal of all cliques over the variables of one of them. -/
def IsGlobal (axes : List Axis) (t : CliqueTree W L) (i : ℕ) (m : Factor W L) : Prop :=
  (∃ c, t.cliques[i]? = some c ∧ m.scope = c.factor.scope) ∧ ∀ x, InRange axes x →
    m.weightAt x
      = cliqueMarginal .sum axes t.scopeOf t.weightOf (Finset.range t.size) (t.scopeOf i) x

variable [IsStrictOrderedRing W] [CanonicallyOrderedAdd W]

omit [ExactScale W] [ExactLog W L] in
/-- A final marginal becomes one of all cliques if it is scaled by the totals of the other
components. -/
theorem isGlobal_of_scaled (hroots : RootsOf t roots) (hbuilt : t.WellBuilt axes)
    (hd : (axes.map Axis.name).Nodup) (hpos : ∀ a ∈ axes, 0 < a.card)
    (hne : t.grandTotal .sum axes ≠ 0) {i : ℕ} (hi : i < t.size) {m n : Factor W L}
    (hm : IsFinal .sum axes t i m) (hscope : n.scope = m.scope)
    (hweight : ∀ x, InRange m.scope.axes x →
      n.weightAt x = m.weightAt x * (t.grandTotal .sum axes / t.totalOf .sum axes i)) :
    IsGlobal axes t i n := by
  obtain ⟨c, hc, hcscope⟩ := hm.1
  refine ⟨⟨c, hc, hscope.trans hcscope⟩, fun x hx => ?_⟩
  rw [hweight x ((hm.within hbuilt).inRange hx), hm.2 x hx]
  exact hroots.treeMarginal_scaled hbuilt hd hpos hne hi hx

/-- The marginals of one component are scaled by the totals of the others. -/
theorem rescaleComponent_spec (hroots : RootsOf t roots) (hbuilt : t.WellBuilt axes)
    (hd : (axes.map Axis.name).Nodup) (hpos : ∀ a ∈ axes, 0 < a.card)
    (hne : t.grandTotal .sum axes ≠ 0) {logTotal : L}
    (htotal : LogConversion.exp logTotal = t.grandTotal .sum axes) {c : List ℕ}
    (hc : c ∈ t.components)
    (hfinal : ∀ i ∈ c, ∃ m, ms[i]? = some m ∧ IsFinal .sum axes t i m) :
    ∃ out, rescaleComponent logTotal roots ms c = .ok out ∧ (∀ i ∉ c, out[i]? = ms[i]?) ∧
      ∀ i ∈ c, ∃ n, out[i]? = some n ∧ IsGlobal axes t i n := by
  have hlt : ∀ i ∈ c, i < t.size := fun i hi => lt_size_of_mem_component hc hi
  obtain ⟨r, hrin, hr, hroot⟩ := hroots.rootIn?_eq hbuilt hc
  obtain ⟨m, hm, hfin⟩ := hfinal r hr
  obtain ⟨own, hown, hexp⟩ := hfin.totalLogWeight_spec (L := L) hbuilt hd hpos (hlt r hr)
  have hone : t.totalOf .sum axes r ≠ 0 := by
    rw [hroots.grandTotal_eq hbuilt hd hpos] at hne
    exact fun hz => hne (Finset.prod_eq_zero (hroots.mem_rootSet.2 hroot) hz)
  have hoffset : LogConversion.exp (WeightScale.quotient logTotal own)
      = t.grandTotal .sum axes / t.totalOf .sum axes r := by
    rw [ExactLog.exp_quotient _ _ (by rw [hexp]; exact hone), htotal, hexp]
  have hbound : ∀ i ∈ c, i < ms.length := fun i hi => by
    obtain ⟨m, hm, -⟩ := hfinal i hi
    exact (List.getElem?_eq_some_iff.1 hm).1
  obtain ⟨out, hout, -, hother, hscaled⟩ :=
    foldlM_scaleAt (WeightScale.quotient logTotal own) (nodup_component hc) hbound
  refine ⟨out, ?_, hother, fun i hi => ?_⟩
  · rw [rescaleComponent_eq hrin hm hown]
    exact hout
  · obtain ⟨m, hm, hfin⟩ := hfinal i hi
    obtain ⟨n, hn, hscope, hweight⟩ := hscaled i hi m hm
    refine ⟨n, hn, isGlobal_of_scaled hroots hbuilt hd hpos hne (hlt i hi) hfin hscope ?_⟩
    have hreach : t.graph.Reachable r i := (mem_component_iff hbuilt hc hr).1 hi
    intro x hx
    rw [hweight x hx, hoffset, totalOf_eq_of_reachable hreach]

/-- All components are scaled, one after the other. -/
theorem foldlM_rescaleComponent (hroots : RootsOf t roots) (hbuilt : t.WellBuilt axes)
    (hd : (axes.map Axis.name).Nodup) (hpos : ∀ a ∈ axes, 0 < a.card)
    (hne : t.grandTotal .sum axes ≠ 0) {logTotal : L}
    (htotal : LogConversion.exp logTotal = t.grandTotal .sum axes) {cs : List (List ℕ)}
    (hcs : ∀ c ∈ cs, c ∈ t.components) (hnodup : cs.flatten.Nodup)
    (hfinal : ∀ i ∈ cs.flatten, ∃ m, ms[i]? = some m ∧ IsFinal .sum axes t i m) :
    ∃ out, cs.foldlM (rescaleComponent logTotal roots) ms = .ok out ∧
      (∀ i ∉ cs.flatten, out[i]? = ms[i]?) ∧
      ∀ i ∈ cs.flatten, ∃ n, out[i]? = some n ∧ IsGlobal axes t i n := by
  induction cs generalizing ms with
  | nil => exact ⟨ms, rfl, fun _ _ => rfl, fun i hi => absurd hi List.not_mem_nil⟩
  | cons c cs ih =>
    rw [List.flatten_cons, List.nodup_append] at hnodup
    obtain ⟨-, hrest, hdis⟩ := hnodup
    have happart : ∀ i ∈ cs.flatten, i ∉ c := fun i hi hic => hdis i hic i hi rfl
    obtain ⟨mid, hmid, hother, hglobal⟩ := rescaleComponent_spec hroots hbuilt hd hpos hne htotal
      (hcs c List.mem_cons_self) fun i hi =>
        hfinal i (by rw [List.flatten_cons]; exact List.mem_append_left _ hi)
    have hfinal' : ∀ i ∈ cs.flatten, ∃ m, mid[i]? = some m ∧ IsFinal .sum axes t i m := by
      intro i hi
      rw [hother i (happart i hi)]
      exact hfinal i (by rw [List.flatten_cons]; exact List.mem_append_right _ hi)
    obtain ⟨out, hout, hother', hglobal'⟩ :=
      ih (fun d hd => hcs d (List.mem_cons_of_mem c hd)) hrest hfinal'
    refine ⟨out, ?_, fun i hi => ?_, fun i hi => ?_⟩
    · rw [List.foldlM_cons, hmid]
      exact hout
    · rw [List.flatten_cons, List.mem_append, not_or] at hi
      rw [hother' i hi.2, hother i hi.1]
    · by_cases hin : i ∈ cs.flatten
      · exact hglobal' i hin
      · rw [List.flatten_cons, List.mem_append] at hi
        rw [hother' i hin]
        exact hglobal i (hi.resolve_right hin)

variable {conditioned cards : OrderedMap String Int}

/-- The totals of the roots multiply to the total of all cliques. -/
theorem logTotalOf_roots (h : Passed .sum axes t roots ms) (hbuilt : t.WellBuilt axes)
    (hd : (axes.map Axis.name).Nodup) (hpos : ∀ a ∈ axes, 0 < a.card) :
    ∃ c : L, logTotalOf ms (ascending roots) = .ok c ∧
      LogConversion.exp c = t.grandTotal .sum axes := by
  have hsorted : RootsOf t (ascending roots) := h.roots.perm (arrange_perm _ roots)
  have htotals : ∀ r ∈ (ascending roots).map Int.toNat, ∃ m, ms[r]? = some m ∧
      ∃ c : L, m.totalLogWeight = .ok c ∧ LogConversion.exp c = t.totalOf .sum axes r := by
    intro r hr
    obtain ⟨n, hn, rfl⟩ := List.mem_map.1 hr
    obtain ⟨r, rfl, hlt⟩ := hsorted.lt_size hn
    obtain ⟨m, hm, hfin⟩ := h.marginal hlt
    exact ⟨m, hm, hfin.totalLogWeight_spec hbuilt hd hpos hlt⟩
  obtain ⟨c, hc, hexp⟩ := logTotalOf_spec htotals
  refine ⟨c, by rw [hsorted.map_ofNat] at hc; exact hc, ?_⟩
  rw [hexp, hsorted.grandTotal_eq hbuilt hd hpos, rootSet, List.prod_toFinset _ hsorted.nodup_toNat]

/-- There is no marginal set if the total is zero. -/
theorem assemble_of_zero (h : Passed .sum axes t roots ms) (hbuilt : t.WellBuilt axes)
    (hd : (axes.map Axis.name).Nodup) (hpos : ∀ a ∈ axes, 0 < a.card) (hsize : 0 < t.size)
    (hzero : t.grandTotal .sum axes = 0) :
    assemble t ms roots conditioned cards = .error .zeroProbability := by
  obtain ⟨c, hc, hexp⟩ := logTotalOf_roots h hbuilt hd hpos
  have hbottom : LogConversion.isBottom W c = true :=
    (ExactLog.isBottom_iff c).2 (hexp.trans hzero)
  rw [assemble_eq h.roots hsize, hc]
  change (if LogConversion.isBottom W c = true then _ else _) = _
  rw [if_pos hbottom]

omit [ExactScale W] [ExactLog W L] in
/-- A single component needs no scaling. -/
theorem isGlobal_of_single (hroots : RootsOf t roots) (hbuilt : t.WellBuilt axes)
    (hd : (axes.map Axis.name).Nodup) (hpos : ∀ a ∈ axes, 0 < a.card)
    (hne : t.grandTotal .sum axes ≠ 0) (hsingle : ¬ roots.length > 1) {i : ℕ} (hi : i < t.size)
    {m : Factor W L} (hm : IsFinal .sum axes t i m) : IsGlobal axes t i m := by
  obtain ⟨r, hr, hreach⟩ := hroots.exists_root hi
  have hset : rootSet roots = {r} := by
    ext s
    rw [Finset.mem_singleton]
    constructor
    · intro hs
      have hone : roots.length = 1 := by
        have hpos := List.length_pos_of_mem hr
        omega
      obtain ⟨n, rfl⟩ := List.length_eq_one_iff.1 hone
      have hs' : (s : Int) = n := List.mem_singleton.1 (hroots.mem_rootSet.1 hs)
      have hr' : (r : Int) = n := List.mem_singleton.1 hr
      exact_mod_cast hs'.trans hr'.symm
    · rintro rfl
      exact hroots.mem_rootSet.2 hr
  have hall : t.grandTotal .sum axes = t.totalOf .sum axes i := by
    rw [hroots.grandTotal_eq hbuilt hd hpos, hset, Finset.prod_singleton,
      totalOf_eq_of_reachable hreach]
  refine isGlobal_of_scaled hroots hbuilt hd hpos hne hi hm rfl fun x _ => ?_
  rw [← hall, div_self hne, mul_one]

/-- The marginal set holds the marginals of all cliques, with the total of all cliques. -/
theorem assemble_of_ne_zero (conditioned cards : OrderedMap String Int)
    (h : Passed .sum axes t roots ms) (hbuilt : t.WellBuilt axes) (hd : (axes.map Axis.name).Nodup)
    (hpos : ∀ a ∈ axes, 0 < a.card) (hsize : 0 < t.size)
    (hne : t.grandTotal .sum axes ≠ 0) :
    ∃ (fs : List (Factor W L)) (c : L),
      assemble t ms roots conditioned cards = .ok ⟨fs, c, conditioned, cards⟩ ∧
      LogConversion.exp c = t.grandTotal .sum axes ∧
      List.Forall₂ (IsGlobal axes t) (List.range t.size) fs := by
  obtain ⟨c, hc, hexp⟩ := logTotalOf_roots h hbuilt hd hpos
  have hbottom : ¬ LogConversion.isBottom W c = true := fun hb =>
    hne (hexp.symm.trans ((ExactLog.isBottom_iff c).1 hb))
  have hopen : ∀ fs : List (Factor W L),
      (if roots.length > 1 then t.components.foldlM (rescaleComponent c roots) ms else .ok ms)
        = .ok fs →
      assemble t ms roots conditioned cards = .ok ⟨fs, c, conditioned, cards⟩ := fun fs hfs => by
    rw [assemble_eq h.roots hsize, hc]
    change (if LogConversion.isBottom W c = true then _ else _) = _
    rw [if_neg hbottom, hfs]
    rfl
  by_cases hmany : roots.length > 1
  · have hmem : ∀ {i}, i ∈ t.components.flatten ↔ i < t.size := fun {i} => by
      rw [(components_perm t).mem_iff, List.mem_range]
    obtain ⟨fs, hfs, hother, hglobal⟩ := foldlM_rescaleComponent h.roots hbuilt hd hpos hne hexp
      (fun c hc => hc) ((components_perm t).nodup_iff.2 List.nodup_range)
      fun i hi => h.marginal (hmem.1 hi)
    refine ⟨fs, c, hopen fs (by rw [if_pos hmany]; exact hfs), hexp, ?_⟩
    have hlength : fs.length = t.size := by
      refine le_antisymm (not_lt.1 fun hlt => ?_) (not_lt.1 fun hlt => ?_)
      · have hnone := hother t.size fun hin => lt_irrefl _ (hmem.1 hin)
        rw [List.getElem?_eq_none h.length_eq.le, List.getElem?_eq_getElem hlt] at hnone
        cases hnone
      · obtain ⟨n, hn, -⟩ := hglobal fs.length (hmem.2 hlt)
        rw [List.getElem?_eq_none le_rfl] at hn
        cases hn
    refine List.forall₂_iff_get.2 ⟨by rw [List.length_range, hlength], fun i hi hi' => ?_⟩
    rw [List.length_range] at hi
    obtain ⟨n, hn, hg⟩ := hglobal i (hmem.2 hi)
    rw [List.getElem?_eq_getElem hi', Option.some.injEq] at hn
    simpa [hn] using hg
  · refine ⟨ms, c, hopen ms (by rw [if_neg hmany]), hexp, ?_⟩
    refine List.forall₂_iff_get.2 ⟨h.final.length_eq, fun i hi hi' => ?_⟩
    rw [List.length_range] at hi
    obtain ⟨m, hm, hfin⟩ := h.marginal hi
    rw [List.getElem?_eq_getElem hi', Option.some.injEq] at hm
    have hg := isGlobal_of_single h.roots hbuilt hd hpos hne hmany hi hfin
    simpa [hm] using hg

end Passing

end ExactInference
