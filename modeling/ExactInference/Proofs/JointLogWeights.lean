import ExactInference.Proofs.ExactMarginals

/-!
# The early exit of joint weights

The logarithm of the joint weight at an assignment adds up the logarithms of the weights of all
factors and stops as soon as the sum is that of the weight zero. It is compared with the loop that
never stops. If every factor has a weight at the assignment, both give the same sum, and in every
order of the factors: what is added to the logarithm of zero does not change it. If some factor has
none, the loop fails in every order. The sum that stops fails in the same way, unless a factor of
weight zero comes before the first factor that has no weight; then it never gets there.
-/

namespace ExactInference

variable {W L : Type} [WeightScale W] [WeightScale L] [LogConversion W L]

section Assigned

variable {σ : Type} [StateValue σ] {a : OrderedMap String σ} {f : Factor W L}
  {fs gs : List (Factor W L)} {ws : List W} {e : Fault}

namespace FactorGraph

/-- Add the logarithms of the weights of all factors at an assignment to a logarithm. -/
def plainLogWeightFrom (a : OrderedMap String σ) (fs : List (Factor W L)) (sum : L) :
    Except Fault L :=
  fs.foldlM (fun sum f => WeightScale.mul sum <$> f.logWeightOf a) sum

/-- The logarithms of the weights of all factors at an assignment, added up. -/
def plainLogWeightOf (g : FactorGraph W L) (a : OrderedMap String σ) : Except Fault L :=
  plainLogWeightFrom a g.factors WeightScale.one

theorem plainLogWeightFrom_cons_ok {w : L} (hw : f.logWeightOf a = .ok w) (sum : L) :
    plainLogWeightFrom a (f :: fs) sum = plainLogWeightFrom a fs (WeightScale.mul sum w) := by
  rw [plainLogWeightFrom, List.foldlM_cons, hw]
  rfl

theorem plainLogWeightFrom_cons_error (hf : f.logWeightOf a = .error e) (sum : L) :
    plainLogWeightFrom a (f :: fs) sum = .error e := by
  rw [plainLogWeightFrom, List.foldlM_cons, hf]
  rfl

/-- In any order the same factors have weights, and the weights are the same. -/
theorem exists_weights_perm (hperm : gs.Perm fs) (h : fs.mapM (Factor.weightOf · a) = .ok ws) :
    ∃ vs, gs.mapM (Factor.weightOf · a) = .ok vs ∧ vs.Perm ws := by
  obtain ⟨vs, hvs, hsame⟩ := List.perm_comp_forall₂ hperm (mapM_eq_ok_iff.1 h)
  exact ⟨vs, mapM_eq_ok_iff.2 hvs, hsame⟩

/-- In any order some factor has no weight if one has none. -/
theorem exists_error_perm (hperm : gs.Perm fs) (h : fs.mapM (Factor.weightOf · a) = .error e) :
    ∃ e', gs.mapM (Factor.weightOf · a) = .error e' := by
  cases hgs : gs.mapM (Factor.weightOf · a) with
  | error e' => exact ⟨e', rfl⟩
  | ok vs =>
    obtain ⟨ws, hws, -⟩ := exists_weights_perm hperm.symm hgs
    cases h.symm.trans hws

variable [Semifield W]

/-- Whether a factor of weight zero comes before any factor that has no weight. -/
inductive VanishesFirst (a : OrderedMap String σ) : List (Factor W L) → Prop
  /-- The first factor has the weight zero. -/
  | here {f : Factor W L} {fs : List (Factor W L)} :
    f.weightOf a = .ok 0 → VanishesFirst a (f :: fs)
  /-- The first factor has a weight, and what is asked for holds of the others. -/
  | later {f : Factor W L} {fs : List (Factor W L)} {w : W} :
    f.weightOf a = .ok w → VanishesFirst a fs → VanishesFirst a (f :: fs)

/-- Behind a first factor with another weight than zero the others decide. -/
theorem vanishesFirst_cons_iff {w : W} (hf : f.weightOf a = .ok w) (hw : w ≠ 0) :
    VanishesFirst a (f :: fs) ↔ VanishesFirst a fs := by
  constructor
  · intro h
    cases h with
    | here hzero =>
      cases hf.symm.trans hzero
      exact (hw rfl).elim
    | later _ h => exact h
  · exact VanishesFirst.later hf

/-- No factor vanishes before a first factor that has no weight. -/
theorem not_vanishesFirst (hf : f.weightOf a = .error e) : ¬ VanishesFirst a (f :: fs) := by
  intro h
  cases h with
  | here hzero => cases hf.symm.trans hzero
  | later hw _ => cases hf.symm.trans hw

end FactorGraph

variable [Semifield W] [LinearOrder W] [ExactScale W] [ExactLog W L]

/-- A factor without a weight has no logarithm of a weight. -/
theorem Factor.logWeightOf_eq_error (h : f.weightOf a = .error e) : f.logWeightOf a = .error e := by
  rw [logWeightOf_eq, show f.weights.lookup a = .error e from h]
  rfl

namespace FactorGraph

/-- Without stopping all weights are multiplied. -/
theorem plainLogWeightFrom_of_weights
    (h : List.Forall₂ (fun f w => f.weightOf a = .ok w) fs ws) (sum : L) :
    ∃ c : L, plainLogWeightFrom a fs sum = .ok c ∧
      LogConversion.exp c = (LogConversion.exp sum : W) * ws.prod := by
  induction h generalizing sum with
  | nil => exact ⟨sum, rfl, by simp⟩
  | @cons f v fs ws hv _ ih =>
    obtain ⟨w, hw, hexp⟩ := Factor.exists_logWeightOf hv
    obtain ⟨c, hc, hprod⟩ := ih (WeightScale.mul sum w)
    refine ⟨c, (plainLogWeightFrom_cons_ok hw sum).trans hc, ?_⟩
    rw [hprod, ExactLog.exp_mul, hexp, List.prod_cons, mul_assoc]

/-- Without stopping the first factor that has no weight is reached. -/
theorem plainLogWeightFrom_of_error (h : fs.mapM (Factor.weightOf · a) = .error e) (sum : L) :
    plainLogWeightFrom a fs sum = .error e := by
  induction fs generalizing sum with
  | nil => cases h
  | cons f fs ih =>
    rw [List.mapM_cons] at h
    cases hf : f.weightOf a with
    | error e' =>
      rw [hf] at h
      cases h
      exact plainLogWeightFrom_cons_error (Factor.logWeightOf_eq_error hf) sum
    | ok v =>
      have htail : fs.mapM (Factor.weightOf · a) = .error e := by
        cases hrest : fs.mapM (Factor.weightOf · a) with
        | error e' =>
          rw [hf, hrest] at h
          exact h
        | ok vs =>
          rw [hf, hrest] at h
          cases h
      obtain ⟨w, hw, -⟩ := Factor.exists_logWeightOf hf
      rw [plainLogWeightFrom_cons_ok hw]
      exact ih htail _

variable [IsStrictOrderedRing W] [CanonicallyOrderedAdd W]

instance decidableVanishesFirst (a : OrderedMap String σ) :
    DecidablePred (VanishesFirst (W := W) (L := L) a)
  | [] => isFalse fun h => by cases h
  | f :: fs =>
    match hf : f.weightOf a with
    | .error _ => isFalse (not_vanishesFirst hf)
    | .ok w =>
      if hw : w = 0 then isTrue (.here (hw ▸ hf))
      else
        have := decidableVanishesFirst a fs
        decidable_of_iff _ (vanishesFirst_cons_iff hf hw).symm

omit [IsStrictOrderedRing W] [CanonicallyOrderedAdd W] [ExactScale W] in
/-- Only the logarithm of the weight zero stands for it. -/
theorem eq_zero_of_exp_eq_zero {c : L} (h : (LogConversion.exp c : W) = 0) : c = WeightScale.zero :=
  ExactLog.exp_injective (h.trans (ExactLog.exp_zero (W := W)).symm)

/-- From a weight that is not zero, stopping makes no difference unless some factor vanishes before
one fails; then the sum is the logarithm of zero. -/
theorem logWeightFrom_cases (a : OrderedMap String σ) (fs : List (Factor W L)) {sum : L}
    (hsum : (LogConversion.exp sum : W) ≠ 0) :
    (VanishesFirst a fs ∧ logWeightFrom a fs sum = .ok WeightScale.zero) ∨
      (¬ VanishesFirst a fs ∧ logWeightFrom a fs sum = plainLogWeightFrom a fs sum) := by
  induction fs generalizing sum with
  | nil =>
    refine Or.inr ⟨fun h => ?_, rfl⟩
    cases h
  | cons f fs ih =>
    cases hf : f.weightOf a with
    | error e =>
      have hlog := Factor.logWeightOf_eq_error hf
      refine Or.inr ⟨not_vanishesFirst hf, ?_⟩
      rw [logWeightFrom, hlog, plainLogWeightFrom_cons_error hlog]
      rfl
    | ok v =>
      obtain ⟨w, hw, hexp⟩ := Factor.exists_logWeightOf hf
      have hnext : (LogConversion.exp (WeightScale.mul sum w) : W) = LogConversion.exp sum * v := by
        rw [ExactLog.exp_mul, hexp]
      have hstep : logWeightFrom a (f :: fs) sum
          = if LogConversion.isBottom W (WeightScale.mul sum w) then .ok (WeightScale.mul sum w)
            else logWeightFrom a fs (WeightScale.mul sum w) := by
        rw [logWeightFrom, hw]
        rfl
      by_cases hv : v = 0
      · subst hv
        rw [mul_zero] at hnext
        rw [hstep, if_pos ((ExactLog.isBottom_iff _).2 hnext), eq_zero_of_exp_eq_zero hnext]
        exact Or.inl ⟨.here hf, rfl⟩
      · have hpos : (LogConversion.exp (WeightScale.mul sum w) : W) ≠ 0 := by
          rw [hnext]
          exact mul_ne_zero hsum hv
        rw [hstep, if_neg fun hb => hpos ((ExactLog.isBottom_iff _).1 hb),
          plainLogWeightFrom_cons_ok hw, vanishesFirst_cons_iff hf hv]
        exact ih hpos

/-- The logarithm of the joint weight stops early, which cannot be seen where every factor has a
weight: it is that of the product of all weights, as for the loop that does not stop, in any order
of the factors. Where some factor has no weight, that loop fails in every order, and the logarithm
of the joint weight fails in the same way, unless a factor of weight zero comes before the first
factor that has no weight; then it is the logarithm of zero. -/
theorem early_exit_of_joint_weights (g : FactorGraph W L) (a : OrderedMap String σ) :
    (∀ ws, g.factors.mapM (Factor.weightOf · a) = .ok ws →
      ∃ c : L, LogConversion.exp c = ws.prod ∧
        ∀ h : FactorGraph W L, h.factors.Perm g.factors →
          h.logWeightOf a = .ok c ∧ h.plainLogWeightOf a = .ok c) ∧
    ∀ e, g.factors.mapM (Factor.weightOf · a) = .error e →
      g.plainLogWeightOf a = .error e ∧
      (∀ h : FactorGraph W L, h.factors.Perm g.factors → ∃ e', h.plainLogWeightOf a = .error e') ∧
      (¬ VanishesFirst a g.factors → g.logWeightOf a = .error e) ∧
      (VanishesFirst a g.factors → g.logWeightOf a = .ok WeightScale.zero) := by
  constructor
  · intro ws hws
    obtain ⟨c, -, hexp⟩ := logWeightFrom_of_weights (mapM_eq_ok_iff.1 hws) (WeightScale.one : L)
    refine ⟨c, by rw [hexp, ExactLog.exp_one, one_mul], fun h hperm => ?_⟩
    obtain ⟨vs, hvs, hsame⟩ := exists_weights_perm hperm hws
    rw [← hsame.prod_eq] at hexp
    obtain ⟨d, hd, hdexp⟩ := logWeightFrom_of_weights (mapM_eq_ok_iff.1 hvs) (WeightScale.one : L)
    obtain ⟨p, hp, hpexp⟩ :=
      plainLogWeightFrom_of_weights (mapM_eq_ok_iff.1 hvs) (WeightScale.one : L)
    have hdc : d = c := ExactLog.exp_injective (hdexp.trans hexp.symm)
    have hpc : p = c := ExactLog.exp_injective (hpexp.trans hexp.symm)
    exact ⟨hdc ▸ hd, hpc ▸ hp⟩
  · intro e he
    have hplain : g.plainLogWeightOf a = .error e := plainLogWeightFrom_of_error he _
    have hone : (LogConversion.exp (WeightScale.one : L) : W) ≠ 0 := by
      rw [ExactLog.exp_one]
      exact one_ne_zero
    refine ⟨hplain, fun h hperm => ?_, ?_⟩
    · obtain ⟨e', he'⟩ := exists_error_perm hperm he
      exact ⟨e', plainLogWeightFrom_of_error he' _⟩
    · rcases logWeightFrom_cases a g.factors hone with ⟨hfirst, hzero⟩ | ⟨hnot, hsame⟩
      · exact ⟨fun h => (h hfirst).elim, fun _ => hzero⟩
      · exact ⟨fun _ => hsame.trans hplain, fun h => (hnot h).elim⟩

end FactorGraph

end Assigned

namespace FactorGraph

/-- A factor over one variable with two states that rules the first one out. -/
def onlySecond (v : String) : Factor ℚ≥0 (FormalLog ℚ≥0) :=
  .plain (Table.ofFn ⟨[⟨v, 2⟩], by simp⟩ fun x => (x v : ℚ≥0))

/-- Two factors over different variables, at an assignment of both variables, at one that gives the
first factor the weight zero and does not assign the other variable, and at one that assigns
nothing. -/
theorem early_exit_of_joint_weights_onlySecond :
    ∃ g : FactorGraph ℚ≥0 (FormalLog ℚ≥0), ∃ c, ∃ both first : OrderedMap String Int,
      ofFactors [onlySecond "A", .uniformOver "B" 2] = .ok g ∧
      both = OrderedMap.ofList [("A", 1), ("B", 0)] ∧ first = OrderedMap.ofList [("A", 0)] ∧
      LogConversion.exp c = (1 : ℚ≥0) ∧
      g.logWeightOf both = .ok c ∧ g.plainLogWeightOf both = .ok c ∧
      VanishesFirst first g.factors ∧ g.logWeightOf first = .ok WeightScale.zero ∧
      g.plainLogWeightOf first = .error (.unassigned ["B"]) ∧
      g.logWeightOf (OrderedMap.empty : OrderedMap String Int) = .error (.unassigned ["A"]) := by
  let both : OrderedMap String Int := OrderedMap.ofList [("A", 1), ("B", 0)]
  let first : OrderedMap String Int := OrderedMap.ofList [("A", 0)]
  let unset : OrderedMap String Int := OrderedMap.empty
  obtain ⟨g, hg, hcheck⟩ := exists_of_passes
    (x := ofFactors [onlySecond "A", .uniformOver "B" 2])
    (fun g => passes (fun ws => decide (ws = [1, 1])) (g.factors.mapM (Factor.weightOf · both)) &&
      failsWith (.unassigned ["B"]) (g.factors.mapM (Factor.weightOf · first)) &&
      failsWith (.unassigned ["A"]) (g.factors.mapM (Factor.weightOf · unset)) &&
      decide (VanishesFirst first g.factors ∧ ¬ VanishesFirst unset g.factors))
    (by decide +kernel)
  simp only [Bool.and_eq_true, decide_eq_true_eq] at hcheck
  obtain ⟨⟨⟨hboth, hfirst⟩, hnone⟩, hvanishes, hnever⟩ := hcheck
  obtain ⟨ws, hws, hones⟩ := exists_of_passes _ hboth
  cases of_decide_eq_true hones
  obtain ⟨c, hc, hsame⟩ := (early_exit_of_joint_weights g both).1 _ hws
  obtain ⟨hplain, -, -, hzero⟩ :=
    (early_exit_of_joint_weights g first).2 _ (eq_error_of_failsWith hfirst)
  obtain ⟨-, -, hfails, -⟩ :=
    (early_exit_of_joint_weights g unset).2 _ (eq_error_of_failsWith hnone)
  obtain ⟨hlog, hlogPlain⟩ := hsame g (List.Perm.refl _)
  exact ⟨g, c, both, first, hg, rfl, rfl, by rw [hc]; simp, hlog, hlogPlain, hvanishes,
    hzero hvanishes, hplain, hfails hnever⟩

/-- A factor that is zero hides that another factor has no weight, if it is the first of the two. -/
theorem hidden_behind_zero :
    ∃ g h : FactorGraph ℚ≥0 (FormalLog ℚ≥0), ∃ a : OrderedMap String Int,
      ofFactors [onlySecond "A", .uniformOver "B" 2] = .ok g ∧
      ofFactors [.uniformOver "B" 2, onlySecond "A"] = .ok h ∧
      a = OrderedMap.ofList [("A", 0)] ∧
      g.logWeightOf a = .ok WeightScale.zero ∧
      g.plainLogWeightOf a = .error (.unassigned ["B"]) ∧
      h.logWeightOf a = .error (.unassigned ["B"]) := by
  let a : OrderedMap String Int := OrderedMap.ofList [("A", 0)]
  obtain ⟨g, hg, hcheck⟩ := exists_of_passes
    (x := ofFactors [onlySecond "A", .uniformOver "B" 2])
    (fun g => passes (fun c => LogConversion.isBottom ℚ≥0 c) (g.logWeightOf a) &&
      failsWith (.unassigned ["B"]) (g.plainLogWeightOf a)) (by decide +kernel)
  obtain ⟨h, hh, hfails⟩ := exists_of_passes
    (x := ofFactors [.uniformOver "B" 2, onlySecond "A"])
    (fun h => failsWith (.unassigned ["B"]) (h.logWeightOf a)) (by decide +kernel)
  rw [Bool.and_eq_true] at hcheck
  obtain ⟨c, hc, hbottom⟩ := exists_of_passes _ hcheck.1
  have hzero : c = WeightScale.zero :=
    eq_zero_of_exp_eq_zero ((ExactLog.isBottom_iff (W := ℚ≥0) c).1 hbottom)
  exact ⟨g, h, a, hg, hh, rfl, hzero ▸ hc, eq_error_of_failsWith hcheck.2,
    eq_error_of_failsWith hfails⟩

end FactorGraph

end ExactInference
