import ExactInference.FactorGraph.JointWeight
import ExactInference.Proofs.ExactWeights

/-!
# Factors as tables of weights

A change of scale that turns the operations of one scale into those of another can be made before or
after an operation on tables. Exponentials are such a change. So whatever a factor stores, each of
its operations is that operation on the table of its weights, and two factors with the same weights
cannot be told apart by any of them. Only sums of logarithms need that every variable has a state.
-/

namespace ExactInference

/-- The operations of one scale become those of another. -/
structure IsScaleHom {α β : Type} [WeightScale α] [WeightScale β] (φ : α → β) : Prop where
  /-- The weight zero. -/
  zero : φ WeightScale.zero = WeightScale.zero
  /-- Products. -/
  mul : ∀ a b, φ (WeightScale.mul a b) = WeightScale.mul (φ a) (φ b)
  /-- Quotients by what can be divided out. -/
  quotient : ∀ a b, WeightScale.normalizes b = true →
    φ (WeightScale.quotient a b) = WeightScale.quotient (φ a) (φ b)
  /-- Inverses. -/
  invert : ∀ a, φ (WeightScale.invert a) = WeightScale.invert (φ a)
  /-- Totals. -/
  total : ∀ as, φ (WeightScale.total as) = WeightScale.total (as.map φ)
  /-- Maxima. -/
  larger : ∀ a b, φ (WeightScale.larger a b) = WeightScale.larger (φ a) (φ b)
  /-- Comparisons of candidates. -/
  beats : ∀ a b, WeightScale.beats (φ a) (φ b) = WeightScale.beats a b
  /-- The test for the weight zero. -/
  isZero : ∀ a, WeightScale.isZero (φ a) = WeightScale.isZero a
  /-- The test for what can be divided out. -/
  normalizes : ∀ a, WeightScale.normalizes (φ a) = WeightScale.normalizes a

namespace IsScaleHom

variable {α β : Type} [WeightScale α] [WeightScale β] {φ : α → β}

theorem largest (hφ : IsScaleHom φ) (ws : List α) :
    φ (WeightScale.largest ws) = WeightScale.largest (ws.map φ) := by
  cases ws with
  | nil => exact hφ.zero
  | cons w ws =>
    change φ (ws.foldl WeightScale.larger w) = (ws.map φ).foldl WeightScale.larger (φ w)
    induction ws generalizing w with
    | nil => rfl
    | cons v ws ih => rw [List.map_cons, List.foldl_cons, List.foldl_cons, ih, hφ.larger]

end IsScaleHom

/-- Exponentials take logarithms and their operations to weights. -/
theorem isScaleHom_exp {W L : Type} [Semifield W] [LinearOrder W] [WeightScale W] [WeightScale L]
    [LogConversion W L] [ExactScale W] [ExactLog W L] :
    IsScaleHom (LogConversion.exp : L → W) where
  zero := by rw [ExactLog.exp_zero, ExactScale.zero_eq]
  mul a b := by rw [ExactLog.exp_mul, ExactScale.mul_eq]
  quotient a b hb := by
    have hne := (ExactLog.normalizes_iff (W := W) b).1 hb
    rw [ExactLog.exp_quotient a b hne, ExactScale.quotient_eq _ _ hne]
  invert a := by rw [ExactLog.exp_invert, ExactScale.invert_eq]
  total as := by rw [ExactLog.exp_total, ExactScale.total_eq]
  larger a b := by rw [ExactLog.exp_larger, ExactScale.larger_eq]
  beats a b := Bool.eq_iff_iff.2 ((ExactScale.beats_iff _ _).trans (ExactLog.beats_iff a b).symm)
  isZero a := Bool.eq_iff_iff.2 ((ExactScale.isZero_iff _).trans (ExactLog.isZero_iff a).symm)
  normalizes a :=
    Bool.eq_iff_iff.2 ((ExactScale.normalizes_iff _).trans (ExactLog.normalizes_iff a).symm)

namespace Table

variable {α β : Type} {φ : α → β}

theorem map_ofFn (φ : α → β) (s : Scope) (F : JointState → α) :
    (ofFn s F).map φ = ofFn s fun x => φ (F x) := by
  refine Table.ext rfl ?_
  simp [map, ofFn, Function.comp_def]

theorem toList_map (φ : α → β) (t : Table α) : (t.map φ).toList = t.toList.map φ := by
  simp [toList, map]

theorem map_map {γ : Type} (φ : α → β) (ψ : β → γ) (t : Table α) :
    (t.map φ).map ψ = t.map fun a => ψ (φ a) := by
  refine Table.ext rfl ?_
  simp [map, Function.comp_def]

theorem map_eq_self {φ : α → α} (hφ : ∀ a, φ a = a) (t : Table α) : t.map φ = t := by
  refine Table.ext rfl ?_
  simp [map, funext hφ]

variable [WeightScale α]

theorem scope_normalize (t : Table α) : t.normalize.scope = t.scope := by
  unfold normalize
  split <;> rfl

variable [WeightScale β]

/-- What is read out of range is the weight zero on both scales. -/
theorem weightAt_map_of_zero (hφ : φ WeightScale.zero = WeightScale.zero) (t : Table α) :
    (t.map φ).weightAt = fun x => φ (t.weightAt x) := by
  funext x
  by_cases h : position t.scope.axes x < t.data.size
  · simp [weightAt, map, Array.getD, h]
  · simp [weightAt, map, Array.getD, h, hφ]

variable (hφ : IsScaleHom φ)
include hφ

theorem map_product (t u : Table α) :
    map φ <$> t.product u = (t.map φ).product (u.map φ) := by
  rw [product_eq, product_eq]
  simp only [scope_map, weightAt_map_of_zero hφ.zero, ← hφ.mul]
  cases t.scope.conflict? u.scope with
  | some fault => rfl
  | none =>
    cases checkGrowth t.scope u.scope with
    | error fault => rfl
    | ok _ => exact congrArg Except.ok (map_ofFn φ _ _)

/-- Collecting numbers commutes with the change if collecting a list does. -/
theorem map_reduce {collect : List α → α} {collect' : List β → β}
    (hcollect : ∀ ws, φ (collect ws) = collect' (ws.map φ)) (t : Table α) (names : List String) :
    (t.reduce collect names).map φ = (t.map φ).reduce collect' names := by
  unfold reduce
  simp only [map_ofFn, axesOf, scope_map, weightAt_map_of_zero hφ.zero, hcollect, List.map_map,
    Function.comp_def]

theorem map_marginalize (t : Table α) (names : List String) :
    map φ <$> t.marginalize names = (t.map φ).marginalize names := by
  unfold marginalize
  rw [← map_reduce hφ hφ.total]
  change _ = (t.checkNames names >>= fun _ => _)
  cases t.checkNames names <;> rfl

theorem map_maxMarginalize (t : Table α) (names : List String) :
    map φ <$> t.maxMarginalize names = (t.map φ).maxMarginalize names := by
  unfold maxMarginalize
  rw [← map_reduce hφ hφ.largest]
  change _ = (t.checkNames names >>= fun _ => if stateCount (t.axesOf names) = 0 then _ else _)
  cases t.checkNames names with
  | error fault => rfl
  | ok _ => by_cases h : stateCount (t.axesOf names) = 0 <;> simp [h, bind, Except.bind]

theorem map_conditional {σ : Type} [StateValue σ] (t : Table α) (a : OrderedMap String σ) :
    map φ <$> t.conditional a = (t.map φ).conditional a := by
  unfold conditional
  simp only [scope_map, weightAt_map_of_zero hφ.zero]
  cases observedOn a t.scope.axes with
  | error fault => rfl
  | ok observed => exact congrArg Except.ok (map_ofFn φ _ _)

theorem map_scaled (t : Table α) (w : α) : (t.scaled w).map φ = (t.map φ).scaled (φ w) := by
  simp only [scaled, map_map, hφ.mul]

theorem map_invert (t : Table α) : t.invert.map φ = (t.map φ).invert := by
  simp only [invert, map_map, hφ.invert]

theorem total_map (t : Table α) : (t.map φ).total = φ t.total := by
  rw [total, toList_map, total, hφ.total]

theorem map_normalize (t : Table α) : t.normalize.map φ = (t.map φ).normalize := by
  unfold normalize
  rw [total_map hφ, hφ.normalizes]
  split
  · next h => simp only [map_map, hφ.quotient _ _ h]
  · rfl

theorem size_map (t : Table α) : (t.map φ).size = t.size := by
  simp only [size, toList_map, List.countP_map, Function.comp_def, hφ.isZero]

theorem argmax_map (t : Table α) : (t.map φ).argmax = t.argmax := by
  have hbest : ∀ xs, best? (fun x => φ (t.weightAt x)) xs = best? t.weightAt xs := by
    intro xs
    cases xs with
    | nil => rfl
    | cons x xs => simp only [best?, hφ.beats]
  unfold argmax
  rw [weightAt_map_of_zero hφ.zero, scope_map, hbest]
  rfl

theorem lookup_map {σ : Type} [StateValue σ] (t : Table α) (a : OrderedMap String σ) :
    (t.map φ).lookup a = φ <$> t.lookup a := by
  unfold lookup
  rw [weightAt_map_of_zero hφ.zero]
  change (keyFor t.names a >>= fun key => resolveKey t.cards key >>= _) = _
  cases keyFor t.names a with
  | error fault => rfl
  | ok key =>
    cases hkey : resolveKey t.cards key with
    | error fault => simp [hkey, bind, Except.bind, Functor.map, Except.map]
    | ok states =>
      simp [hkey, bind, Except.bind, Functor.map, Except.map]
      rfl

end Table

/-- Every variable has a state. -/
def Scope.HasStates (s : Scope) : Prop := ∀ a ∈ s.axes, 0 < a.card

theorem Scope.HasStates.keep {s : Scope} (hs : s.HasStates) (p : String → Bool) :
    (s.keep p).HasStates := fun a ha => hs a (List.mem_filter.1 ha).1

/-- A scope whose variables have states has joint states. -/
theorem Scope.stateCount_pos {axes : List Axis} (h : ∀ a ∈ axes, 0 < a.card) :
    0 < stateCount axes := by
  induction axes with
  | nil => exact Nat.one_pos
  | cons a rest ih =>
    exact Nat.mul_pos (h a List.mem_cons_self) (ih fun b hb => h b (List.mem_cons_of_mem a hb))

theorem Scope.HasStates.join {s t : Scope} (hs : s.HasStates) (ht : t.HasStates) :
    (s.join t).HasStates := fun a ha =>
  (List.mem_append.1 ha).elim (hs a) fun ha => ht a (List.mem_filter.1 ha).1

namespace Factor

variable {W L : Type} {f g : Factor W L}

/-- Logarithms can be summed if the variables have states. -/
theorem checkSum_eq_ok {α : Type} {t : Table α} (hpos : t.scope.HasStates) (axes : List Axis) :
    checkSum t axes = .ok () := by
  have hsize : t.scope.size ≠ 0 := (Scope.stateCount_pos hpos).ne'
  simp [checkSum, hsize]

variable [Semifield W] [LinearOrder W] [WeightScale W] [WeightScale L] [LogConversion W L]
  [ExactLog W L]

theorem weights_logWeights (f : Factor W L) :
    f.logWeights.map (LogConversion.exp : L → W) = f.weights := by
  cases f with
  | plain t =>
    change (t.map LogConversion.log).map _ = t
    rw [Table.map_map]
    exact Table.map_eq_self ExactLog.exp_log t
  | log t => rfl

/-- The logarithms of a factor have its weights. -/
theorem weights_toLog (f : Factor W L) : f.toLog.weights = f.weights := weights_logWeights f

variable [ExactScale W]

theorem weights_product (f g : Factor W L) :
    weights <$> f.product g = f.weights.product g.weights := by
  cases f with
  | plain t =>
    change weights <$> plain <$> t.product g.weights = t.product g.weights
    cases t.product g.weights <;> rfl
  | log t =>
    change weights <$> log <$> t.product g.logWeights = _
    rw [← weights_logWeights g, weights, ← Table.map_product isScaleHom_exp]
    cases t.product g.logWeights <;> rfl

theorem weights_scale (f : Factor W L) (w : W) : (f.scale w).weights = f.weights.scaled w := by
  cases f with
  | plain t => rfl
  | log t =>
    change (t.scaled (LogConversion.log w)).map _ = _
    rw [Table.map_scaled isScaleHom_exp, ExactLog.exp_log]
    rfl

theorem weights_scaleLog (f : Factor W L) (c : L) :
    weights <$> f.scaleLog c = .ok (f.weights.scaled (LogConversion.exp c)) := by
  cases f with
  | plain t =>
    simp only [scaleLog, LogConversion.tryExp, ExactLog.exp?_eq]
    rfl
  | log t => exact congrArg Except.ok (Table.map_scaled isScaleHom_exp t c)

theorem weights_marginalize (hf : f.scope.HasStates) (names : List String) :
    weights <$> f.marginalize names = f.weights.marginalize names := by
  cases f with
  | plain t =>
    change weights <$> plain <$> t.marginalize names = t.marginalize names
    cases t.marginalize names <;> rfl
  | log t =>
    have hsum : (log t : Factor W L).marginalize names = log <$> t.marginalize names := by
      simp only [marginalize, checkSum_eq_ok hf, Table.marginalize]
      cases t.checkNames names <;> rfl
    rw [hsum, weights, ← Table.map_marginalize isScaleHom_exp]
    cases t.marginalize names <;> rfl

theorem weights_maxMarginalize (f : Factor W L) (names : List String) :
    weights <$> f.maxMarginalize names = f.weights.maxMarginalize names := by
  cases f with
  | plain t =>
    change weights <$> plain <$> t.maxMarginalize names = t.maxMarginalize names
    cases t.maxMarginalize names <;> rfl
  | log t =>
    change weights <$> log <$> t.maxMarginalize names = _
    rw [weights, ← Table.map_maxMarginalize isScaleHom_exp]
    cases t.maxMarginalize names <;> rfl

theorem weights_conditional {σ : Type} [StateValue σ] (f : Factor W L) (a : OrderedMap String σ) :
    weights <$> f.conditional a = f.weights.conditional a := by
  cases f with
  | plain t =>
    change weights <$> plain <$> t.conditional a = t.conditional a
    cases t.conditional a <;> rfl
  | log t =>
    change weights <$> log <$> t.conditional a = _
    rw [weights, ← Table.map_conditional isScaleHom_exp]
    cases t.conditional a <;> rfl

theorem weights_invert (f : Factor W L) : f.invert.weights = f.weights.invert := by
  cases f with
  | plain t => rfl
  | log t => exact Table.map_invert isScaleHom_exp t

theorem weights_normalize (hf : f.scope.HasStates) :
    weights <$> f.normalize = .ok f.weights.normalize := by
  cases f with
  | plain t => rfl
  | log t =>
    simp only [normalize, checkSum_eq_ok hf]
    exact congrArg Except.ok (Table.map_normalize isScaleHom_exp t)

theorem size_eq_size_weights (f : Factor W L) : f.size = f.weights.size := by
  cases f with
  | plain t => rfl
  | log t => exact (Table.size_map isScaleHom_exp t).symm

theorem argmax_eq_argmax_weights (f : Factor W L) : f.argmax = f.weights.argmax := by
  cases f with
  | plain t => rfl
  | log t => exact (Table.argmax_map isScaleHom_exp t).symm

/-- The logarithm of a weight stands for the weight, also if that is zero. -/
theorem exp_logPositive (w : W) : LogConversion.exp (LogConversion.logPositive w : L) = w := by
  unfold LogConversion.logPositive
  split
  · exact ExactLog.exp_log w
  · next h =>
    rw [ExactScale.normalizes_iff, not_not] at h
    rw [h, ExactLog.exp_zero]

theorem logPositive_exp (x : L) : LogConversion.logPositive (LogConversion.exp x : W) = x :=
  ExactLog.exp_injective (exp_logPositive (LogConversion.exp x))

theorem totalLogWeight_eq (hf : f.scope.HasStates) :
    f.totalLogWeight = .ok (LogConversion.logPositive f.weights.total) := by
  cases f with
  | plain t => rfl
  | log t =>
    simp only [totalLogWeight, checkSum_eq_ok hf, weights, Table.total_map isScaleHom_exp,
      logPositive_exp]
    rfl

theorem logWeightOf_eq {σ : Type} [StateValue σ] (f : Factor W L) (a : OrderedMap String σ) :
    f.logWeightOf a = LogConversion.logPositive <$> f.weights.lookup a := by
  cases f with
  | plain t => rfl
  | log t =>
    rw [weights, Table.lookup_map isScaleHom_exp]
    cases h : t.lookup a with
    | error fault => exact h
    | ok c =>
      change t.lookup a = .ok _
      rw [h, logPositive_exp]

end Factor

end ExactInference
