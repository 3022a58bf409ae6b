import ExactInference.Proofs.DistributiveLaw

/-!
# Messages that are divided out again

A clique that answers a neighbor has the neighbor's message in its marginal already. The message is
a common factor of all weights that are collected, so it can be divided out of the answer: what is
left is the answer that would have been given without it. The exception is where the message is
zero. There the weights are lost, and since the inverse of zero is zero, the answer is zero too.
-/

namespace ExactInference

open Passing

namespace Factor

variable {W L : Type} {f g h k m r : Factor W L} {ns : List String} {e : Fault} {x : JointState}

/-- Whether variables can be eliminated is seen from the form and the scope. -/
theorem refusal?_congr (mode : Mode) (hform : k.form = f.form) (hscope : k.scope = f.scope)
    (ns : List String) : k.refusal? mode ns = f.refusal? mode ns := by
  have haxes : k.axesOf ns = f.axesOf ns := by rw [axesOf, hscope, axesOf]
  cases mode <;> simp only [refusal?, hform, hscope, haxes]

variable [WeightScale W] [WeightScale L] [LogConversion W L]

/-- A message multiplied in before some variables are eliminated, and divided out of what remains.
-/
def dividedOut (mode : Mode) (f m : Factor W L) (ns : List String) : Except Fault (Factor W L) :=
  f.product m >>= fun k => eliminate mode k ns >>= fun r => r.product m.invert

/-- A factor over some of the own axes can be multiplied in, and all axes stay. -/
theorem exists_product_of_within (hm : m.scope.Within f.scope.axes) :
    ∃ k, f.product m = .ok k ∧ k.scope = f.scope :=
  exists_product f.scope.distinct (fun _ ha => ha) hm fun _ hn => hm.mem_names hn

section DividedOut

variable (mode : Mode) (hm : m.scope.Within f.scope.axes)
  (hns : ∀ n ∈ ns, n ∈ f.names ∧ n ∉ m.names)

include hm hns

/-- Variables that the factor alone cannot have eliminated cannot be eliminated with the message. -/
theorem dividedOut_eq_error (he : eliminate mode f ns = .error e) :
    dividedOut mode f m ns = .error e := by
  obtain ⟨k, hk, hscope⟩ := exists_product_of_within hm
  have hnames : k.names = f.names := by rw [names, hscope, names]
  have hown : ∀ n ∈ ns, n ∈ f.names := fun n hn => (hns n hn).1
  have hsame : eliminate mode k ns = .error e := by
    rw [eliminate_eq mode f hown] at he
    rw [eliminate_eq mode k (hnames ▸ hown), refusal?_congr mode (form_of_product hk) hscope ns]
    cases hrefused : f.refusal? mode ns with
    | none =>
      rw [hrefused] at he
      cases he
    | some e' =>
      rw [hrefused] at he
      exact he
  rw [dividedOut, hk]
  change (eliminate mode k ns >>= _) = _
  rw [hsame]
  rfl

end DividedOut

variable [Semifield W]

/-- What remains of a factor but for the places where a message is zero. -/
structure IsDividedOut (r m h : Factor W L) : Prop where
  /-- It is stored as the factor is. -/
  form_eq : h.form = r.form
  /-- It has the axes of the factor. -/
  scope_eq : h.scope = r.scope
  /-- Where the message is not zero it has the weights of the factor. -/
  weightAt_eq : ∀ x, InRange r.scope.axes x → m.weightAt x ≠ 0 → h.weightAt x = r.weightAt x
  /-- Where the message is zero, so is the weight. -/
  weightAt_eq_zero : ∀ x, InRange r.scope.axes x → m.weightAt x = 0 → h.weightAt x = 0

variable [LinearOrder W] [IsStrictOrderedRing W] [CanonicallyOrderedAdd W] [ExactScale W]
  [ExactLog W L]

/-- A common factor of the weights is a factor of what is collected. -/
theorem weightAt_reduced_product (mode : Mode) (hk : f.product m = .ok k)
    (hscope : k.scope = f.scope) (hns : ∀ n ∈ ns, n ∉ m.names)
    (hx : InRange (f.reduced mode ns).scope.axes x) :
    (k.reduced mode ns).weightAt x = m.weightAt x * (f.reduced mode ns).weightAt x := by
  have haxes : k.axesOf ns = f.axesOf ns := by rw [axesOf, hscope, axesOf]
  have hkx : InRange (k.reduced mode ns).scope.axes x := by
    rw [scope_reduced, hscope, ← scope_reduced mode]
    exact hx
  have hpointwise : ∀ y ∈ completions (f.axesOf ns) x,
      k.weightAt y = m.weightAt y * f.weightAt y := by
    intro y hy
    rw [scope_reduced] at hx
    rw [weightAt_product hk (hscope ▸ Scope.inRange_of_mem_completions hx hy), mul_comm]
  calc (k.reduced mode ns).weightAt x
      = mode.along (f.axesOf ns) k.weightAt x := by
        rw [weightAt_reduced_along mode k ns hkx, haxes]
    _ = mode.along (f.axesOf ns) (fun y => m.weightAt y * f.weightAt y) x :=
        Mode.along_congr mode hpointwise
    _ = m.weightAt x * mode.along (f.axesOf ns) f.weightAt x := by
        refine Mode.along_mul_left mode (f.nodup_axesOf ns) m.reads_weightAt fun n hn hin => ?_
        obtain ⟨a, ha, rfl⟩ := List.mem_map.1 hin
        exact hns a.name (List.contains_iff_mem.1 (List.mem_filter.1 ha).2) (mem_vars.1 hn)
    _ = m.weightAt x * (f.reduced mode ns).weightAt x := by
        rw [weightAt_reduced_along mode f ns hx]

section DividedOut

variable (mode : Mode) (hm : m.scope.Within f.scope.axes)
  (hns : ∀ n ∈ ns, n ∈ f.names ∧ n ∉ m.names)

include hm hns

/-- What remains without the message remains with it, but for the places where it is zero. -/
theorem exists_dividedOut (hr : eliminate mode f ns = .ok r) :
    ∃ h, dividedOut mode f m ns = .ok h ∧ IsDividedOut r m h := by
  obtain ⟨k, hk, hscope⟩ := exists_product_of_within hm
  have hnames : k.names = f.names := by rw [names, hscope, names]
  have hown : ∀ n ∈ ns, n ∈ f.names := fun n hn => (hns n hn).1
  rw [eliminate_eq mode f hown] at hr
  have hrefused : f.refusal? mode ns = none := by
    cases hrefused : f.refusal? mode ns with
    | none => rfl
    | some e =>
      rw [hrefused] at hr
      cases hr
  rw [hrefused] at hr
  cases hr
  have hkept : eliminate mode k ns = .ok (k.reduced mode ns) := by
    rw [eliminate_eq mode k (hnames ▸ hown), refusal?_congr mode (form_of_product hk) hscope ns,
      hrefused]
    rfl
  have hkscope : (k.reduced mode ns).scope = (f.reduced mode ns).scope := by
    rw [scope_reduced, hscope, scope_reduced]
  -- The message has none of the eliminated variables, so all its axes are left.
  have hleft : m.invert.scope.Within (k.reduced mode ns).scope.axes := by
    intro a ha
    rw [scope_invert] at ha
    rw [hkscope, scope_reduced]
    refine List.mem_filter.2 ⟨hm a ha, ?_⟩
    have hout : a.name ∉ ns := fun hin => (hns a.name hin).2 (List.mem_map_of_mem ha)
    simpa using hout
  obtain ⟨h, hh, hhscope⟩ := exists_product_of_within hleft
  have hweight : ∀ x, InRange (f.reduced mode ns).scope.axes x →
      h.weightAt x = m.weightAt x * (f.reduced mode ns).weightAt x * (m.weightAt x)⁻¹ := by
    intro x hx
    have hxk : InRange (k.reduced mode ns).scope.axes x := hkscope ▸ hx
    have hxm : InRange m.scope.axes x := fun a ha => hxk a (hleft a (by rwa [scope_invert]))
    rw [weightAt_product hh (hhscope ▸ hxk), weightAt_invert m hxm,
      weightAt_reduced_product mode hk hscope (fun n hn => (hns n hn).2) hx]
  refine ⟨h, ?_, ?_, hhscope.trans hkscope, fun x hx hne => ?_, fun x hx hzero => ?_⟩
  · rw [dividedOut, hk]
    change (eliminate mode k ns >>= _) = _
    rw [hkept]
    exact hh
  · rw [form_of_product hh, form_reduced, form_of_product hk, form_reduced]
  · rw [hweight x hx, mul_comm (m.weightAt x), mul_inv_cancel_right₀ hne]
  · rw [hweight x hx, hzero, zero_mul, zero_mul]

/-- A message over some variables of a factor, which is multiplied in before other variables are
eliminated and divided out of what remains, makes no difference but where it is zero: there what
remains is zero. In both modes this is refused exactly if it is refused without the message, for the
same reason. -/
theorem message_divides_out :
    (∀ e, eliminate mode f ns = .error e → dividedOut mode f m ns = .error e) ∧
    ∀ r, eliminate mode f ns = .ok r → ∃ h, dividedOut mode f m ns = .ok h ∧ IsDividedOut r m h :=
  ⟨fun _ => dividedOut_eq_error mode hm hns, fun _ => exists_dividedOut mode hm hns⟩

end DividedOut

open CliqueTree in

/-- A message that is zero at one of two states. -/
theorem message_divides_out_pair :
    ∃ f m r h : Factor ℚ≥0 (FormalLog ℚ≥0), f = pairFactor "A" "B" 1 0 2 3 ∧
      m.scope.Within f.scope.axes ∧ m.valuesFor ["A"] = .ok [0, 5] ∧
      eliminate .sum f ["B"] = .ok r ∧ r.valuesFor ["A"] = .ok [1, 5] ∧
      dividedOut .sum f m ["B"] = .ok h ∧ IsDividedOut r m h ∧
      h.valuesFor ["A"] = .ok [0, 5] := by
  let f : Factor ℚ≥0 (FormalLog ℚ≥0) := pairFactor "A" "B" 1 0 2 3
  let m : Factor ℚ≥0 (FormalLog ℚ≥0) := .plain (Table.ofFn ⟨[⟨"A", 2⟩], List.nodup_singleton "A"⟩
    fun x => ([0, 5].getD (x "A") 0 : ℕ))
  have hm : m.scope.Within f.scope.axes := by
    change ∀ a ∈ m.scope.axes, a ∈ f.scope.axes
    decide +kernel
  have hns : ∀ n ∈ ["B"], n ∈ f.names ∧ n ∉ m.names := by decide +kernel
  obtain ⟨r, hr, hlisted⟩ := exists_of_passes (fun r => passes (fun ws => decide (ws = [1, 5]))
    (r.valuesFor ["A"])) (by decide +kernel : passes _ (eliminate .sum f ["B"]) = true)
  obtain ⟨ws, hws, hvalues⟩ := exists_of_passes _ hlisted
  obtain ⟨h, hh, hdivided⟩ := (message_divides_out .sum hm hns).2 r hr
  have hlast : (dividedOut .sum f m ["B"] >>= fun h => h.valuesFor ["A"]) = .ok [0, 5] := by
    decide +kernel
  rw [hh] at hlast
  refine ⟨f, m, r, h, rfl, hm, by decide +kernel, hr, ?_, hh, hdivided, hlast⟩
  rw [hws, of_decide_eq_true hvalues]

/-- The message of a clique that has the receiver's own message in its marginal is the message
that it would have without it, but for the places where the receiver's message is zero. -/
theorem messageFrom_of_folded (mode : Mode) {t : CliqueTree W L} {s : Separator}
    {start stop : Int} {c : Clique W L} (hc : t.cliqueAt start = .ok c) (hfolded : stop ∈ c.folded)
    (hmessage : t.message? stop start = .ok (some m)) (hm : m.scope.Within f.scope.axes)
    (hshared : ∀ v ∈ m.names, v ∈ s.shared) (hg : f.product m = .ok g)
    (hr : eliminate mode f (f.names.filter fun v => !s.shared.contains v) = .ok r) :
    ∃ h, messageFrom mode t s start stop g = .ok h ∧ IsDividedOut r m h := by
  have hnames : g.names = f.names := by
    obtain ⟨k, hk, hscope⟩ := exists_product_of_within hm
    cases hg.symm.trans hk
    rw [names, hscope, names]
  have hdropped : ∀ n ∈ f.names.filter (fun v => !s.shared.contains v),
      n ∈ f.names ∧ n ∉ m.names := by
    intro n hn
    obtain ⟨hown, hout⟩ := List.mem_filter.1 hn
    exact ⟨hown, fun hin => by simp [hshared n hin] at hout⟩
  have hsame : messageFrom mode t s start stop g
      = dividedOut mode f m (f.names.filter fun v => !s.shared.contains v) := by
    rw [messageFrom, dividedOut, hnames, hg, hc, hmessage]
    change _ = eliminate mode g _ >>= fun r => r.product m.invert
    refine congrArg (eliminate mode g _ >>= ·) (funext fun k => ?_)
    exact if_pos (List.contains_iff_mem.2 hfolded)
  rw [hsame]
  exact exists_dividedOut mode hm hdropped hr

end Factor

end ExactInference
