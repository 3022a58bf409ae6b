import ExactInference.Proofs.Parallel
import ExactInference.Proofs.WeightTables

/-!
# Expressions over factors

Two factors agree if they have the same weights and every variable has a state. Every operation on
factors keeps agreement: it is refused for both factors with the same fault, or it ends in factors
that agree again. So an expression that is built from such operations does not depend on which of
its factors store logarithms.
-/

namespace ExactInference

namespace Table

variable {α : Type} [WeightScale α] {t u v : Table α} {names : List String}

theorem scope_of_product (h : t.product u = .ok v) : v.scope = t.scope.join u.scope := by
  rw [product_eq] at h
  cases hc : t.scope.conflict? u.scope with
  | some fault =>
    rw [hc] at h
    cases h
  | none =>
    rw [hc] at h
    obtain ⟨-, -, h⟩ := bind_eq_ok_iff.1 h
    cases h
    rfl

theorem scope_of_marginalize (h : t.marginalize names = .ok v) :
    v.scope = t.scope.keep fun n => !names.contains n := by
  obtain ⟨-, -, h⟩ := bind_eq_ok_iff.1 h
  cases h
  rfl

theorem scope_of_maxMarginalize (h : t.maxMarginalize names = .ok v) :
    v.scope = t.scope.keep fun n => !names.contains n := by
  obtain ⟨-, -, h⟩ := bind_eq_ok_iff.1 h
  split at h
  · cases h
  · cases h
    rfl

theorem scope_of_conditional {σ : Type} [StateValue σ] {a : OrderedMap String σ}
    (h : t.conditional a = .ok v) : v.scope = t.scope.keep fun n => !a.contains n := by
  obtain ⟨observed, -, hv⟩ := bind_eq_ok_iff.1 h
  cases hv
  rfl

end Table

variable {W L : Type} [WeightScale W] [WeightScale L] [LogConversion W L]

namespace Factor

/-- Two factors with the same weights, whose variables have states. -/
structure Agrees (f g : Factor W L) : Prop where
  /-- The tables of their weights are the same. -/
  weights_eq : f.weights = g.weights
  /-- Every variable has a state. -/
  hasStates : f.scope.HasStates

/-- Two factors that only differ in what they store. -/
structure Equivalent (f g : Factor W L) : Prop where
  /-- They have the same variables in the same order. -/
  names_eq : f.names = g.names
  /-- The variables have the same numbers of states. -/
  cards_eq : f.cards = g.cards
  /-- Every joint state has the same weight. -/
  weights_eq : f.weights = g.weights
  /-- They have the same number of weights other than zero. -/
  size_eq : f.size = g.size
  /-- They have the same first joint state of largest weight, or none. -/
  argmax_eq : f.argmax = g.argmax

variable {f g f' g' : Factor W L}

theorem scope_eq_of_weights_eq (h : f.weights = g.weights) : f.scope = g.scope := by
  rw [← FactorGraph.scope_weights f, h, FactorGraph.scope_weights]

variable [Semifield W] [LinearOrder W] [ExactScale W] [ExactLog W L]

/-- Nothing but the weights can be told. -/
theorem equivalent_of_weights_eq (h : f.weights = g.weights) : f.Equivalent g where
  names_eq := by rw [names, names, scope_eq_of_weights_eq h]
  cards_eq := by rw [cards, cards, scope_eq_of_weights_eq h]
  weights_eq := h
  size_eq := by rw [size_eq_size_weights, h, size_eq_size_weights]
  argmax_eq := by rw [argmax_eq_argmax_weights, h, argmax_eq_argmax_weights]

omit [Semifield W] [LinearOrder W] [ExactScale W] [ExactLog W L] in
/-- A factor with states agrees with itself. -/
theorem agrees_self (hf : f.scope.HasStates) : f.Agrees f := ⟨rfl, hf⟩

omit [ExactScale W] in
/-- A factor with states agrees with its logarithms. -/
theorem agrees_toLog (hf : f.scope.HasStates) : f.Agrees f.toLog := ⟨(weights_toLog f).symm, hf⟩

omit [Semifield W] [LinearOrder W] [ExactScale W] [ExactLog W L] in
/-- Two computations that are the same one on weights end in factors that agree. -/
theorem parallel_of_weights {x y : Except Fault (Factor W L)} {z : Except Fault (Table W)}
    (hx : weights <$> x = z) (hy : weights <$> y = z)
    (hz : ∀ t, z = .ok t → t.scope.HasStates) : Parallel Agrees x y := by
  subst hx
  have hstates : ∀ {f}, x = .ok f → f.scope.HasStates := fun {f} hf => by
    subst hf
    exact FactorGraph.scope_weights f ▸ hz f.weights rfl
  exact ((Parallel.of_map_eq hy.symm).and fun hf _ => hstates hf).imp fun h => ⟨h.1, h.2⟩

namespace Agrees

theorem equivalent (h : f.Agrees g) : f.Equivalent g := equivalent_of_weights_eq h.weights_eq

theorem names_eq (h : f.Agrees g) : f.names = g.names := h.equivalent.names_eq

omit [Semifield W] [LinearOrder W] [ExactScale W] [ExactLog W L] in
/-- The other factor has the same states. -/
theorem hasStates_right (h : f.Agrees g) : g.scope.HasStates :=
  scope_eq_of_weights_eq h.weights_eq ▸ h.hasStates

omit [Semifield W] [LinearOrder W] [ExactScale W] [ExactLog W L] in
theorem hasStates_weights (h : f.Agrees g) : f.weights.scope.HasStates :=
  FactorGraph.scope_weights f ▸ h.hasStates

theorem product (h : f.Agrees g) (h' : f'.Agrees g') :
    Parallel Agrees (f.product f') (g.product g') := by
  refine parallel_of_weights (weights_product f f') ?_ fun t ht => ?_
  · rw [weights_product, h.weights_eq, h'.weights_eq]
  · rw [Table.scope_of_product ht]
    exact h.hasStates_weights.join h'.hasStates_weights

theorem productAll (h : f.Agrees g) {fs gs : List (Factor W L)}
    (hs : List.Forall₂ Agrees fs gs) : Parallel Agrees (f.productAll fs) (g.productAll gs) :=
  Parallel.foldlM hs product h

theorem scale (h : f.Agrees g) (w : W) : (f.scale w).Agrees (g.scale w) := by
  have hscope : (f.scale w).scope = f.scope := by cases f <;> rfl
  refine ⟨?_, hscope ▸ h.hasStates⟩
  rw [weights_scale, weights_scale, h.weights_eq]

theorem scaleLog (h : f.Agrees g) (c : L) : Parallel Agrees (f.scaleLog c) (g.scaleLog c) := by
  refine parallel_of_weights (weights_scaleLog f c) ?_ fun t ht => ?_
  · rw [weights_scaleLog, h.weights_eq]
  · cases ht
    exact h.hasStates_weights

theorem marginalize (h : f.Agrees g) (names : List String) :
    Parallel Agrees (f.marginalize names) (g.marginalize names) := by
  refine parallel_of_weights (weights_marginalize h.hasStates names) ?_ fun t ht => ?_
  · rw [weights_marginalize h.hasStates_right, h.weights_eq]
  · rw [Table.scope_of_marginalize ht]
    exact h.hasStates_weights.keep _

theorem maxMarginalize (h : f.Agrees g) (names : List String) :
    Parallel Agrees (f.maxMarginalize names) (g.maxMarginalize names) := by
  refine parallel_of_weights (weights_maxMarginalize f names) ?_ fun t ht => ?_
  · rw [weights_maxMarginalize, h.weights_eq]
  · rw [Table.scope_of_maxMarginalize ht]
    exact h.hasStates_weights.keep _

theorem conditional {σ : Type} [StateValue σ] (h : f.Agrees g) (a : OrderedMap String σ) :
    Parallel Agrees (f.conditional a) (g.conditional a) := by
  refine parallel_of_weights (weights_conditional f a) ?_ fun t ht => ?_
  · rw [weights_conditional, h.weights_eq]
  · rw [Table.scope_of_conditional ht]
    exact h.hasStates_weights.keep _

theorem invert (h : f.Agrees g) : f.invert.Agrees g.invert := by
  have hscope : f.invert.scope = f.scope := by cases f <;> rfl
  refine ⟨?_, hscope ▸ h.hasStates⟩
  rw [weights_invert, weights_invert, h.weights_eq]

theorem normalize (h : f.Agrees g) : Parallel Agrees f.normalize g.normalize := by
  refine parallel_of_weights (weights_normalize h.hasStates) ?_ fun t ht => ?_
  · rw [weights_normalize h.hasStates_right, h.weights_eq]
  · cases ht
    rw [Table.scope_normalize]
    exact h.hasStates_weights

theorem totalLogWeight_eq (h : f.Agrees g) : f.totalLogWeight = g.totalLogWeight := by
  rw [Factor.totalLogWeight_eq h.hasStates, h.weights_eq,
    Factor.totalLogWeight_eq h.hasStates_right]

theorem logWeightOf_eq {σ : Type} [StateValue σ] (h : f.Agrees g) (a : OrderedMap String σ) :
    f.logWeightOf a = g.logWeightOf a := by
  rw [Factor.logWeightOf_eq, h.weights_eq, Factor.logWeightOf_eq]

end Agrees

end Factor

/-- What a caller computes from some factors. -/
inductive Expression (W L ι : Type) : Type 1
  /-- One of the factors. -/
  | leaf (i : ι)
  /-- The product of two factors. -/
  | product (e e' : Expression W L ι)
  /-- The product with the factors of a list, one after the other. -/
  | productAll (e : Expression W L ι) (count : ℕ) (es : Fin count → Expression W L ι)
  /-- Every weight times a constant. -/
  | scale (e : Expression W L ι) (w : W)
  /-- Every weight times a constant that is given by its logarithm. -/
  | scaleLog (e : Expression W L ι) (c : L)
  /-- Some variables summed out. -/
  | marginalize (e : Expression W L ι) (names : List String)
  /-- Some variables maximized out. -/
  | maxMarginalize (e : Expression W L ι) (names : List String)
  /-- Some variables observed. -/
  | conditional (e : Expression W L ι) {σ : Type} [StateValue σ] (a : OrderedMap String σ)
  /-- Every weight inverted. -/
  | invert (e : Expression W L ι)
  /-- The weights scaled to sum to one. -/
  | normalize (e : Expression W L ι)

namespace Expression

variable {ι : Type}

/-- The factor that an expression makes of some factors, or why it is refused. -/
def eval (env : ι → Factor W L) : Expression W L ι → Except Fault (Factor W L)
  | leaf i => .ok (env i)
  | product e e' => do (← e.eval env).product (← e'.eval env)
  | productAll e count es => do
    let f ← e.eval env
    let fs ← (List.finRange count).mapM fun i => (es i).eval env
    f.productAll fs
  | scale e w => (Factor.scale · w) <$> e.eval env
  | scaleLog e c => e.eval env >>= (Factor.scaleLog · c)
  | marginalize e names => e.eval env >>= (Factor.marginalize · names)
  | maxMarginalize e names => e.eval env >>= (Factor.maxMarginalize · names)
  | conditional e a => e.eval env >>= (Factor.conditional · a)
  | invert e => Factor.invert <$> e.eval env
  | normalize e => e.eval env >>= Factor.normalize

variable [Semifield W] [LinearOrder W] [ExactScale W] [ExactLog W L]

/-- On factors that agree an expression ends in factors that agree, or in the same fault. -/
theorem parallel_eval {env env' : ι → Factor W L} (henv : ∀ i, (env i).Agrees (env' i))
    (e : Expression W L ι) : Parallel Factor.Agrees (e.eval env) (e.eval env') := by
  induction e with
  | leaf i => exact henv i
  | product e e' ih ih' => exact ih.bind fun _ _ h => ih'.bind fun _ _ h' => h.product h'
  | productAll e count es ih ihs =>
    exact ih.bind fun _ _ h => (Parallel.mapM_same ihs).bind fun _ _ hs => h.productAll hs
  | scale e w ih => exact ih.map fun _ _ h => h.scale w
  | scaleLog e c ih => exact ih.bind fun _ _ h => h.scaleLog c
  | marginalize e names ih => exact ih.bind fun _ _ h => h.marginalize names
  | maxMarginalize e names ih => exact ih.bind fun _ _ h => h.maxMarginalize names
  | conditional e a ih => exact ih.bind fun _ _ h => h.conditional a
  | invert e ih => exact ih.map fun _ _ h => h.invert
  | normalize e ih => exact ih.bind fun _ _ h => h.normalize

end Expression

end ExactInference
