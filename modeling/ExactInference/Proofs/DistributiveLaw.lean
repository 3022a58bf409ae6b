import ExactInference.Proofs.PointwiseProducts

/-!
# Eliminating variables in steps and out of products

Summing or maximizing variables out of a factor collects its weights over their states. States can
be collected in any order, so it makes no difference in how many steps variables are eliminated or
which step comes first. A factor that does not have the variables may be multiplied before or after
they are eliminated, since it is a common factor of all weights that are collected. The only
difference is one of size: variables that are eliminated later need room in the product.
-/

namespace ExactInference

open Passing

namespace Scope

variable {s t : Scope} {p : String → Bool}

/-- A joint state of the kept axes that is completed over the others is one of the whole scope. -/
theorem inRange_of_mem_completions {x y : JointState} (hx : InRange (s.keep fun n => !p n).axes x)
    (hy : y ∈ completions (s.axes.filter fun a => p a.name) x) : InRange s.axes y := by
  have hnodup : ((s.axes.filter fun a => p a.name).map Axis.name).Nodup :=
    (List.filter_sublist.map Axis.name).nodup s.distinct
  obtain ⟨hoff, hin⟩ := (mem_completions hnodup).1 hy
  intro a ha
  by_cases hp : p a.name = true
  · exact hin a (List.mem_filter.2 ⟨ha, hp⟩)
  · have hout : a.name ∉ (s.axes.filter fun a => p a.name).map Axis.name := by
      intro hmem
      obtain ⟨b, hb, hname⟩ := List.mem_map.1 hmem
      exact hp (hname ▸ (List.mem_filter.1 hb).2)
    rw [hoff a.name hout]
    exact hx a (List.mem_filter.2 ⟨ha, by simpa using hp⟩)

/-- Names are dropped from a join by dropping them from both scopes. -/
theorem keep_join (s t : Scope) (p : String → Bool) :
    (s.join t).keep p = (s.keep p).join (t.keep p) := by
  refine eq_of_axes_eq ?_
  have hnew : ∀ b : Axis, (p b.name && decide (b.name ∉ s.names))
      = (decide (b.name ∉ (s.keep p).names) && p b.name) := by
    intro b
    by_cases hp : p b.name = true <;> simp [mem_names_keep, hp]
  calc ((s.join t).keep p).axes
      = (s.join t).axes.filter fun a => p a.name := rfl
    _ = s.axes.filter (fun a => p a.name)
          ++ (t.axes.filter fun b => b.name ∉ s.names).filter fun a => p a.name := by
        rw [axes_join, List.filter_append]
    _ = (s.keep p).axes ++ (t.keep p).axes.filter fun b => b.name ∉ (s.keep p).names := by
        simp only [keep, List.filter_filter, hnew]
    _ = ((s.keep p).join (t.keep p)).axes := (axes_join _ _).symm

/-- A scope that keeps all of its names stays as it is. -/
theorem keep_eq_self (h : ∀ n ∈ s.names, p n = true) : s.keep p = s :=
  eq_of_axes_eq (List.filter_eq_self.2 fun a ha => h a.name (List.mem_map_of_mem ha))

/-- Names are dropped in any order. -/
theorem keep_keep (s : Scope) (p q : String → Bool) :
    (s.keep p).keep q = s.keep fun n => p n && q n :=
  eq_of_axes_eq (by simp only [keep, List.filter_filter, Bool.and_comm])

/-- Scopes agree on the names that they keep. -/
theorem Conflicts.of_keep (h : (s.keep p).Conflicts (t.keep p)) : s.Conflicts t := by
  obtain ⟨a, ha, b, hb, hname, hcard⟩ := h
  exact ⟨a, (List.mem_filter.1 ha).1, b, (List.mem_filter.1 hb).1, hname, hcard⟩

/-- Where the kept names outgrow every array, all names do. -/
theorem Outgrows.of_keep (h : (s.keep p).Outgrows (t.keep p)) : s.Outgrows t := by
  obtain ⟨⟨n, hn, hout⟩, hfit⟩ := h
  rw [mem_names_keep] at hn hout
  constructor
  · exact ⟨n, hn.1, fun hs => hout ⟨hs, hn.2⟩⟩
  · intro hall
    rw [← keep_join] at hfit
    exact hfit (hall.of_subperm (List.filter_sublist.map Axis.card).subperm)

/-- The first conflict with a scope is about a name of that scope, so it is found among the names
that are kept if these are all of its names. -/
theorem conflict?_keep (h : ∀ n ∈ s.names, p n = true) :
    s.conflict? (t.keep p) = s.conflict? t := by
  have hother : ∀ b : Axis, p b.name = false → s.card? b.name = none := by
    intro b hb
    cases hfound : s.axes.find? fun a => a.name == b.name with
    | none => rw [card?, hfound, Option.map_none]
    | some a =>
      obtain ⟨ha, hname⟩ := find?_name_eq_some_iff.1 hfound
      have hkept := h a.name (List.mem_map_of_mem ha)
      rw [hname, hb] at hkept
      cases hkept
  rw [conflict?, conflict?]
  change (t.axes.filter fun b => p b.name).findSome? _ = t.axes.findSome? _
  induction t.axes with
  | nil => rfl
  | cons b rest ih =>
    by_cases hb : p b.name = true
    · rw [List.filter_cons, if_pos hb, List.findSome?_cons, List.findSome?_cons, ih]
    · rw [List.filter_cons, if_neg hb, ih, List.findSome?_cons, hother b (Bool.eq_false_iff.2 hb)]

end Scope

namespace Mode

variable {W : Type} [Semifield W] [LinearOrder W] {axes : List Axis} {F G : JointState → W}
  {x : JointState}

/-- Values that agree on all completions are collected alike. -/
theorem along_congr (mode : Mode) (h : ∀ y ∈ completions axes x, F y = G y) :
    mode.along axes F x = mode.along axes G x := by
  rw [along, along, List.map_congr_left h]

variable [IsStrictOrderedRing W] [CanonicallyOrderedAdd W]

/-- A factor that reads no name on the axes can be taken out. -/
theorem along_mul_left (mode : Mode) (hd : (axes.map Axis.name).Nodup) {names : Finset String}
    (hG : Reads G names) (hdis : ∀ n ∈ names, n ∉ axes.map Axis.name) :
    mode.along axes (fun y => G y * F y) x = G x * mode.along axes F x := by
  have hsame : ∀ y ∈ completions axes x, G y * F y = G x * F y := by
    intro y hy
    rw [hG y x fun n hn => ((mem_completions hd).1 hy).1 n (hdis n hn)]
  rw [along_congr mode hsame]
  exact collect_map_mul mode _ (G x) F

end Mode

namespace Factor

variable {W L : Type} [WeightScale W] [WeightScale L] {f g r : Factor W L} {x : JointState}
  {ns ms : List String}

theorem form_reduced (mode : Mode) (f : Factor W L) (names : List String) :
    (f.reduced mode names).form = f.form := by
  cases mode <;> cases f <;> rfl

/-- Eliminating names only looks at which names are listed. -/
theorem reduced_congr (mode : Mode) (f : Factor W L) (h : ∀ n, n ∈ ns ↔ n ∈ ms) :
    f.reduced mode ns = f.reduced mode ms := by
  have hcontains : ∀ n, ns.contains n = ms.contains n := by
    intro n
    rw [Bool.eq_iff_iff, List.contains_iff_mem, List.contains_iff_mem, h]
  cases mode <;> cases f <;> simp only [reduced, Table.reduce, Table.axesOf, hcontains]

/-- The axes of two lists of names are those of the first, and those of the second that the first
leaves. -/
theorem axesOf_append_perm (mode : Mode) (f : Factor W L) (ns ms : List String) :
    (f.axesOf (ns ++ ms)).Perm ((f.reduced mode ns).axesOf ms ++ f.axesOf ns) := by
  have hsplit := List.filter_append_perm (fun a : Axis => ns.contains a.name) (f.axesOf (ns ++ ms))
  have hfirst : (f.axesOf (ns ++ ms)).filter (fun a => ns.contains a.name) = f.axesOf ns := by
    rw [axesOf, List.filter_filter]
    refine List.filter_congr fun a _ => ?_
    by_cases ha : a.name ∈ ns <;> simp [ha]
  have hsecond : (f.axesOf (ns ++ ms)).filter (fun a => !ns.contains a.name)
      = (f.reduced mode ns).axesOf ms := by
    rw [axesOf, List.filter_filter, axesOf, scope_reduced]
    change _ = (f.scope.axes.filter _).filter _
    rw [List.filter_filter]
    refine List.filter_congr fun a _ => ?_
    by_cases ha : a.name ∈ ns <;> simp [ha]
  rw [hfirst, hsecond] at hsplit
  exact hsplit.symm.trans List.perm_append_comm

/-- Own variables that have states are eliminated. -/
theorem eliminate_eq_reduced (mode : Mode) (hf : f.scope.HasStates) (hns : ∀ n ∈ ns, n ∈ f.names) :
    eliminate mode f ns = .ok (f.reduced mode ns) :=
  eliminate_eq_ok mode hf (fun _ ha => ha) hns

theorem hasStates_reduced (mode : Mode) (hf : f.scope.HasStates) (ns : List String) :
    (f.reduced mode ns).scope.HasStates := by
  rw [scope_reduced]
  exact hf.keep _

variable [LogConversion W L]

/-- If the first factor does not have the names, the axes of these names in a product are those of
the second factor. -/
theorem axesOf_product (hr : f.product g = .ok r) (hns : ∀ n ∈ ns, n ∉ f.names) :
    r.axesOf ns = g.axesOf ns := by
  have hfirst : (f.scope.axes.filter fun a => ns.contains a.name) = [] := by
    refine List.filter_eq_nil_iff.2 fun a ha hin => ?_
    exact hns a.name (List.contains_iff_mem.1 hin) (List.mem_map_of_mem ha)
  rw [axesOf, scope_product hr, Scope.axes_join, List.filter_append, hfirst, List.nil_append,
    List.filter_filter]
  refine List.filter_congr fun a _ => ?_
  by_cases ha : a.name ∈ ns
  · have hnew : a.name ∉ f.scope.names := hns a.name ha
    simp [hnew]
  · simp [ha]

/-- Factors that outgrow every array have no product. -/
theorem product_of_outgrows (h : f.scope.Outgrows g.scope) : ∃ e, f.product g = .error e := by
  cases hr : f.product g with
  | error e => exact ⟨e, rfl⟩
  | ok r => exact ((exists_product_iff.1 ⟨r, hr⟩).2 h).elim

variable [Semifield W] [LinearOrder W] [CanonicallyOrderedAdd W] [ExactScale W] [ExactLog W L]

/-- What remains when variables are eliminated collects the weights over their states. -/
theorem weightAt_reduced_along (mode : Mode) (f : Factor W L) (names : List String)
    (hx : InRange (f.reduced mode names).scope.axes x) :
    (f.reduced mode names).weightAt x = mode.along (f.axesOf names) f.weightAt x := by
  have haxes : f.weights.axesOf names = f.axesOf names := by
    rw [Table.axesOf, FactorGraph.scope_weights]
    rfl
  have hreduced := inRange_weights hx
  cases mode with
  | sum =>
    rw [weights_reduced_sum] at hreduced
    rw [weightAt, weights_reduced_sum, Table.weightAt_reduce _ _ _ hreduced, Mode.total_eq_collect,
      haxes]
    rfl
  | max =>
    rw [weights_reduced_max] at hreduced
    rw [weightAt, weights_reduced_max, Table.weightAt_reduce _ _ _ hreduced,
      Mode.largest_eq_collect, haxes]
    rfl

/-- Names that are eliminated one list after the other are all eliminated. -/
theorem reduced_reduced (mode : Mode) (f : Factor W L) (ns ms : List String) :
    (f.reduced mode ns).reduced mode ms = f.reduced mode (ns ++ ms) := by
  have hscope : ((f.reduced mode ns).reduced mode ms).scope
      = (f.reduced mode (ns ++ ms)).scope := by
    rw [scope_reduced, scope_reduced, scope_reduced, Scope.keep_keep]
    congr 1
    funext n
    simp
  refine eq_of_weightAt ?_ hscope fun x hx => ?_
  · rw [form_reduced, form_reduced, form_reduced]
  · have hinner : ∀ y ∈ completions ((f.reduced mode ns).axesOf ms) x,
        (f.reduced mode ns).weightAt y = mode.along (f.axesOf ns) f.weightAt y := by
      intro y hy
      rw [scope_reduced] at hx
      exact weightAt_reduced_along mode f ns (Scope.inRange_of_mem_completions hx hy)
    calc ((f.reduced mode ns).reduced mode ms).weightAt x
        = mode.along ((f.reduced mode ns).axesOf ms) (f.reduced mode ns).weightAt x :=
          weightAt_reduced_along mode _ ms hx
      _ = mode.along ((f.reduced mode ns).axesOf ms) (mode.along (f.axesOf ns) f.weightAt) x :=
          Mode.along_congr mode hinner
      _ = mode.along ((f.reduced mode ns).axesOf ms ++ f.axesOf ns) f.weightAt x := by
          rw [Mode.along_append]
      _ = mode.along (f.axesOf (ns ++ ms)) f.weightAt x := by
          rw [Mode.along_perm mode (axesOf_append_perm mode f ns ms) (f.nodup_axesOf (ns ++ ms))]
      _ = (f.reduced mode (ns ++ ms)).weightAt x :=
          (weightAt_reduced_along mode f _ (hscope ▸ hx)).symm

/-- Variables are eliminated one list after the other if no variable is in both lists. -/
theorem eliminate_eliminate (mode : Mode) (hf : f.scope.HasStates) (hns : ∀ n ∈ ns, n ∈ f.names)
    (hms : ∀ n ∈ ms, n ∈ f.names) (hdis : ns.Disjoint ms) :
    (eliminate mode f ns >>= fun r => eliminate mode r ms)
      = .ok (f.reduced mode (ns ++ ms)) := by
  have hleft : ∀ n ∈ ms, n ∈ (f.reduced mode ns).names := by
    intro n hn
    rw [names, scope_reduced, Scope.mem_names_keep]
    exact ⟨hms n hn, by simpa using fun hin => hdis hin hn⟩
  calc (eliminate mode f ns >>= fun r => eliminate mode r ms)
      = eliminate mode (f.reduced mode ns) ms := by
        rw [eliminate_eq_reduced mode hf hns]
        rfl
    _ = .ok ((f.reduced mode ns).reduced mode ms) :=
        eliminate_eq_reduced mode (hasStates_reduced mode hf ns) hleft
    _ = .ok (f.reduced mode (ns ++ ms)) := by rw [reduced_reduced]

/-- What remains of a factor when variables are eliminated. -/
structure IsElimination (mode : Mode) (f : Factor W L) (names : List String) (r : Factor W L) :
    Prop where
  /-- It is stored as the factor is. -/
  form_eq : r.form = f.form
  /-- It has the other axes, in their order. -/
  axes_eq : r.scope.axes = f.scope.axes.filter fun a => !names.contains a.name
  /-- Its weights collect the weights of the factor over all states of the variables. -/
  weightAt_eq : ∀ x, InRange r.scope.axes x →
    r.weightAt x = mode.along (f.axesOf names) f.weightAt x

theorem isElimination_reduced (mode : Mode) (f : Factor W L) (names : List String) :
    IsElimination mode f names (f.reduced mode names) where
  form_eq := form_reduced mode f names
  axes_eq := by
    rw [scope_reduced]
    rfl
  weightAt_eq _ hx := weightAt_reduced_along mode f names hx

variable [IsStrictOrderedRing W]

/-- A product in which names of the second factor are eliminated is the product with what remains
of that factor. -/
theorem product_reduced (mode : Mode) (hr : f.product g = .ok r) (hns : ∀ n ∈ ns, n ∉ f.names) :
    f.product (g.reduced mode ns) = .ok (r.reduced mode ns) := by
  have hkept : ∀ n ∈ f.scope.names, (!ns.contains n) = true := by
    intro n hn
    simpa using fun hin => hns n hin hn
  obtain ⟨k, hk⟩ : ∃ k, f.product (g.reduced mode ns) = .ok k := by
    obtain ⟨hagree, hfits⟩ := exists_product_iff.1 ⟨r, hr⟩
    rw [exists_product_iff, scope_reduced, ← Scope.keep_eq_self hkept]
    exact ⟨fun h => hagree h.of_keep, fun h => hfits h.of_keep⟩
  have hscope : k.scope = (r.reduced mode ns).scope := by
    rw [scope_product hk, scope_reduced, scope_reduced, scope_product hr, Scope.keep_join,
      Scope.keep_eq_self hkept]
  rw [hk]
  refine congrArg Except.ok (eq_of_weightAt ?_ hscope fun x hx => ?_)
  · rw [form_of_product hk, form_reduced, form_of_product hr]
  · have hxg := (((isProduct_of_product hk).inRange_iff x).1 hx).2
    have hxr : InRange (r.reduced mode ns).scope.axes x := hscope ▸ hx
    have hpointwise : ∀ y ∈ completions (r.axesOf ns) x,
        r.weightAt y = f.weightAt y * g.weightAt y := by
      intro y hy
      rw [scope_reduced] at hxr
      exact weightAt_product hr (Scope.inRange_of_mem_completions hxr hy)
    calc k.weightAt x
        = f.weightAt x * mode.along (g.axesOf ns) g.weightAt x := by
          rw [weightAt_product hk hx, weightAt_reduced_along mode g ns hxg]
      _ = mode.along (g.axesOf ns) (fun y => f.weightAt y * g.weightAt y) x := by
          refine (Mode.along_mul_left mode (g.nodup_axesOf ns) f.reads_weightAt ?_).symm
          intro n hn hin
          obtain ⟨a, ha, rfl⟩ := List.mem_map.1 hin
          exact hns a.name (List.contains_iff_mem.1 (List.mem_filter.1 ha).2) (mem_vars.1 hn)
      _ = mode.along (r.axesOf ns) r.weightAt x := by
          rw [← axesOf_product hr hns, Mode.along_congr mode hpointwise]
      _ = (r.reduced mode ns).weightAt x := (weightAt_reduced_along mode r ns hxr).symm

/-- Unless the factors outgrow every array, variables that only the second factor has can be
eliminated before or after the multiplication. -/
theorem product_eliminate (mode : Mode) (hf : f.scope.HasStates) (hg : g.scope.HasStates)
    (hns : ∀ n ∈ ns, n ∈ g.names ∧ n ∉ f.names) (hfits : ¬ f.scope.Outgrows g.scope) :
    (f.product g >>= fun r => eliminate mode r ns)
      = (eliminate mode g ns >>= fun k => f.product k) := by
  rw [eliminate_eq_reduced mode hg fun n hn => (hns n hn).1]
  change _ = f.product (g.reduced mode ns)
  cases hconflict : f.scope.conflict? g.scope with
  | some fault =>
    have hkept : f.scope.conflict? (g.reduced mode ns).scope = some fault := by
      rw [scope_reduced, Scope.conflict?_keep, hconflict]
      intro n hn
      simpa using fun hin => (hns n hin).2 hn
    rw [product_eq_conflict hconflict, product_eq_conflict hkept]
    rfl
  | none =>
    obtain ⟨r, hr⟩ := exists_product_iff.2 ⟨Scope.conflict?_eq_none_iff.1 hconflict, hfits⟩
    have hstates : r.scope.HasStates := by
      rw [scope_product hr]
      exact hf.join hg
    have hown : ∀ n ∈ ns, n ∈ r.names := by
      intro n hn
      rw [names, scope_product hr, Scope.mem_names_join]
      exact Or.inr (hns n hn).1
    rw [hr, product_reduced mode hr fun n hn => (hns n hn).2]
    exact eliminate_eq_reduced mode hstates hown

/-- In both modes, variables can be eliminated in two steps, in either order, or at once: the same
factor remains, and its weights collect those of the given factor over all states of the variables.
Variables of a second factor that the first one does not have can be eliminated before or after the
two are multiplied, unless the factors outgrow every array, in which case they have no product. -/
theorem eliminate_in_steps_and_in_products (mode : Mode) (hf : f.scope.HasStates) :
    (∀ ns ms : List String, (∀ n ∈ ns, n ∈ f.names) → (∀ n ∈ ms, n ∈ f.names) → ns.Disjoint ms →
      ∃ r, eliminate mode f (ns ++ ms) = .ok r ∧ IsElimination mode f (ns ++ ms) r ∧
        (eliminate mode f ns >>= fun k => eliminate mode k ms) = .ok r ∧
        (eliminate mode f ms >>= fun k => eliminate mode k ns) = .ok r) ∧
    ∀ (g : Factor W L) (ns : List String), g.scope.HasStates →
      (∀ n ∈ ns, n ∈ g.names ∧ n ∉ f.names) →
      (f.scope.Outgrows g.scope → ∃ e, f.product g = .error e) ∧
      (¬ f.scope.Outgrows g.scope →
        (f.product g >>= fun r => eliminate mode r ns)
            = (eliminate mode g ns >>= fun k => f.product k) ∧
          (¬ f.scope.Conflicts g.scope →
            ∃ r, (f.product g >>= fun r => eliminate mode r ns) = .ok r)) := by
  constructor
  · intro ns ms hns hms hdis
    have hboth : ∀ n ∈ ns ++ ms, n ∈ f.names := by
      intro n hn
      exact (List.mem_append.1 hn).elim (hns n) (hms n)
    refine ⟨f.reduced mode (ns ++ ms), eliminate_eq_reduced mode hf hboth,
      isElimination_reduced mode f _, eliminate_eliminate mode hf hns hms hdis, ?_⟩
    rw [eliminate_eliminate mode hf hms hns hdis.symm]
    exact congrArg Except.ok (reduced_congr mode f fun n => by simp [or_comm])
  · intro g ns hg hns
    constructor
    · exact product_of_outgrows
    · intro hfits
      have hlaw := product_eliminate mode hf hg hns hfits
      constructor
      · exact hlaw
      · intro hagree
        obtain ⟨r, hr⟩ := exists_product_iff.2 ⟨hagree, hfits⟩
        refine ⟨r.reduced mode ns, ?_⟩
        rw [hlaw, eliminate_eq_reduced mode hg fun n hn => (hns n hn).1]
        exact product_reduced mode hr fun n hn => (hns n hn).2

open CliqueTree in
/-- Two variables are summed out one after the other, and a variable of one of two factors is
maximized out before and after they are multiplied. -/
theorem eliminate_in_steps_and_in_products_pairs :
    ∃ f g r s : Factor ℚ≥0 (FormalLog ℚ≥0),
      f = pairFactor "A" "B" 1 0 2 3 ∧ g = pairFactor "B" "C" 0 5 7 11 ∧
      f.scope.HasStates ∧ g.scope.HasStates ∧ ¬ f.scope.Outgrows g.scope ∧
      (eliminate .sum f ["B"] >>= fun k => eliminate .sum k ["A"]) = .ok r ∧
      IsElimination .sum f ["A", "B"] r ∧ r.valuesFor [] = .ok [6] ∧
      (f.product g >>= fun k => eliminate .max k ["C"]) = .ok s ∧
      (eliminate .max g ["C"] >>= fun k => f.product k) = .ok s ∧
      s.valuesFor ["A", "B"] = .ok [5, 0, 10, 33] := by
  let f : Factor ℚ≥0 (FormalLog ℚ≥0) := pairFactor "A" "B" 1 0 2 3
  let g : Factor ℚ≥0 (FormalLog ℚ≥0) := pairFactor "B" "C" 0 5 7 11
  have hf : f.scope.HasStates := by
    change ∀ a ∈ f.scope.axes, 0 < a.card
    decide +kernel
  have hg : g.scope.HasStates := by
    change ∀ a ∈ g.scope.axes, 0 < a.card
    decide +kernel
  have hfits : ¬ f.scope.Outgrows g.scope := by
    intro h
    exact h.2 (by decide +kernel)
  obtain ⟨s, hs, hlisted⟩ := exists_of_passes
    (x := eliminate .max g ["C"] >>= fun k => f.product k)
    (fun s => passes (fun ws => decide (ws = [5, 0, 10, 33])) (s.valuesFor ["A", "B"]))
    (by decide +kernel)
  obtain ⟨ws, hws, hvalues⟩ := exists_of_passes _ hlisted
  obtain ⟨hsteps, -⟩ := eliminate_in_steps_and_in_products .sum hf
  obtain ⟨-, hproducts⟩ := eliminate_in_steps_and_in_products .max hf
  obtain ⟨r, -, hr, -, htwice⟩ := hsteps ["A"] ["B"] (by decide +kernel) (by decide +kernel)
    (by simp)
  obtain ⟨-, hlaw⟩ := hproducts g ["C"] hg (by decide +kernel)
  refine ⟨f, g, r, s, rfl, rfl, hf, hg, hfits, htwice, hr, ?_, (hlaw hfits).1.trans hs, hs, ?_⟩
  · have hsum : (eliminate .sum f ["B"] >>= fun k => eliminate .sum k ["A"] >>= fun r =>
        r.valuesFor []) = .ok [6] := by decide +kernel
    rw [← bind_assoc, htwice] at hsum
    exact hsum
  · rw [hws, of_decide_eq_true hvalues]

/-- A factor over sixty-four variables cannot be multiplied with a factor over one variable more,
but it can be multiplied with what remains of that factor when its variable is eliminated. -/
theorem refused_before_elimination :
    ∃ f g k r : Factor ℚ≥0 (FormalLog ℚ≥0), wide = .ok f ∧ g = uniformOver "W" 1 ∧
      f.scope.HasStates ∧ g.scope.HasStates ∧ g.names = ["W"] ∧ "W" ∉ f.names ∧
      g.marginalize ["W"] = .ok k ∧ f.product k = .ok r ∧
      f.product g = .error (.tooManyAxes 64 65) := by
  let g : Factor ℚ≥0 (FormalLog ℚ≥0) := uniformOver "W" 1
  obtain ⟨f, hf, hcheck⟩ := exists_of_passes (x := wide)
    (fun f => decide ((∀ a ∈ f.scope.axes, 0 < a.card) ∧ "W" ∉ f.names) &&
      failsWith (.tooManyAxes 64 65) (f.product g) &&
      passes (fun k => (f.product k).toBool) (g.marginalize ["W"])) (by decide +kernel)
  rw [Bool.and_eq_true, Bool.and_eq_true, decide_eq_true_eq] at hcheck
  obtain ⟨⟨⟨hstates, hnew⟩, hrefused⟩, hlater⟩ := hcheck
  obtain ⟨k, hk, hmultiplied⟩ := exists_of_passes _ hlater
  obtain ⟨r, hr⟩ := exists_of_toBool hmultiplied
  have hg : g.scope.HasStates := by
    change ∀ a ∈ g.scope.axes, 0 < a.card
    decide +kernel
  exact ⟨f, g, k, r, hf, rfl, hstates, hg, rfl, hnew, hk, hr, eq_error_of_failsWith hrefused⟩

end Factor

end ExactInference
