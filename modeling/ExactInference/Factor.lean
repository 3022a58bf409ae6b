import ExactInference.Table.Query

/-!
# Factors

A factor is a table of weights over named variables. It stores the weights themselves or their
logarithms, and every operation keeps the form of the factor it is applied to: a product takes the
form of its left operand and converts the right one. Logarithms are not summed over several axes of
a table without entries; that is the only sum that fails.
-/

namespace ExactInference

/-- The weight of a logarithm; a weight that is too large to be written is a fault. -/
def LogConversion.tryExp {W L : Type} [WeightScale W] [WeightScale L] [LogConversion W L]
    (x : L) : Except Fault W :=
  match LogConversion.exp? x with
  | some w => .ok w
  | none => .error .exponentialTooLarge

/-- A table of weights, stored on the scale `W` of the weights or on the scale `L` of their
logarithms. -/
inductive Factor (W L : Type) where
  /-- The weights themselves. -/
  | plain (table : Table W)
  /-- The logarithms of the weights. -/
  | log (table : Table L)

namespace Factor

variable {W L : Type}

/-- The way in which the weights are stored. -/
def form : Factor W L → Form
  | plain _ => .plain
  | log _ => .log

/-- The axes of the factor. -/
def scope : Factor W L → Scope
  | plain t => t.scope
  | log t => t.scope

/-- The names of the variables, in the order of the axes. -/
def names (f : Factor W L) : List String := f.scope.names

/-- The numbers of states, in the order of the axes. -/
def cards (f : Factor W L) : List Nat := f.scope.cards

/-- The factor in one line. -/
def line (f : Factor W L) : String :=
  f.form.word ++ "(variables=" ++ Text.names f.names ++ ", shape="
    ++ Text.shape (f.cards.map Int.ofNat) ++ ")"

variable [WeightScale W] [WeightScale L] [LogConversion W L]

/-- The table of the weights. -/
def weights : Factor W L → Table W
  | plain t => t
  | log t => t.map LogConversion.exp

/-- The table of the logarithms of the weights. -/
def logWeights : Factor W L → Table L
  | plain t => t.map LogConversion.log
  | log t => t

/-- The same factor, stored by logarithms. -/
def toLog (f : Factor W L) : Factor W L := log f.logWeights

/-- The pointwise product, in the form of the first factor. -/
def product (f g : Factor W L) : Except Fault (Factor W L) :=
  match f with
  | plain t => plain <$> t.product g.weights
  | log t => log <$> t.product g.logWeights

/-- The product with several factors, one after the other. -/
def productAll (f : Factor W L) (gs : List (Factor W L)) : Except Fault (Factor W L) :=
  gs.foldlM product f

/-- Multiply every weight by a constant. -/
def scale (f : Factor W L) (w : W) : Factor W L :=
  match f with
  | plain t => plain (t.scaled w)
  | log t => log (t.scaled (LogConversion.log w))

/-- Multiply every weight by a constant that is given by its logarithm. Stored logarithms need no
exponential; for stored weights it may be too large. -/
def scaleLog (f : Factor W L) (c : L) : Except Fault (Factor W L) :=
  match f with
  | plain t => do
    let w ← LogConversion.tryExp c
    .ok (plain (t.scaled w))
  | log t => .ok (log (t.scaled c))

/-- Refuse to sum over several axes of a table without entries. -/
def checkSum {α : Type} (t : Table α) (axes : List Axis) : Except Fault Unit :=
  if t.scope.size = 0 ∧ 1 < axes.length then .error (.tooManyIndices 1 axes.length) else .ok ()

/-- Sum some variables out. -/
def marginalize (f : Factor W L) (names : List String) : Except Fault (Factor W L) :=
  match f with
  | plain t => plain <$> t.marginalize names
  | log t => do
    t.checkNames names
    checkSum t (t.axesOf names)
    log <$> t.marginalize names

/-- Maximize some variables out. -/
def maxMarginalize (f : Factor W L) (names : List String) : Except Fault (Factor W L) :=
  match f with
  | plain t => plain <$> t.maxMarginalize names
  | log t => log <$> t.maxMarginalize names

/-- Invert every weight; zero stays zero. -/
def invert : Factor W L → Factor W L
  | plain t => plain t.invert
  | log t => log t.invert

/-- Restrict the factor to an assignment and drop the assigned variables. -/
def conditional {σ : Type} [StateValue σ] (f : Factor W L) (a : OrderedMap String σ) :
    Except Fault (Factor W L) :=
  match f with
  | plain t => plain <$> t.conditional a
  | log t => log <$> t.conditional a

/-- Scale the weights so that they sum to one, where their total allows it. -/
def normalize : Factor W L → Except Fault (Factor W L)
  | plain t => .ok (plain t.normalize)
  | log t => do
    checkSum t t.scope.axes
    .ok (log t.normalize)

/-- The weight of an assignment that covers every variable. -/
def weightOf {σ : Type} [StateValue σ] (f : Factor W L) (a : OrderedMap String σ) :
    Except Fault W := f.weights.lookup a

/-- The logarithm of the weight of an assignment that covers every variable. -/
def logWeightOf {σ : Type} [StateValue σ] (f : Factor W L) (a : OrderedMap String σ) :
    Except Fault L :=
  match f with
  | plain t => LogConversion.logPositive <$> t.lookup a
  | log t => t.lookup a

/-- The sum of all weights. -/
def totalWeight (f : Factor W L) : W := f.weights.total

/-- The logarithm of the sum of all weights. -/
def totalLogWeight : Factor W L → Except Fault L
  | plain t => .ok (LogConversion.logPositive t.total)
  | log t => do
    checkSum t t.scope.axes
    .ok t.total

/-- The number of joint states whose weight is not zero. -/
def size : Factor W L → Nat
  | plain t => t.size
  | log t => t.size

/-- The weights with the axes in a requested order. -/
def valuesFor (f : Factor W L) (requested : List String) : Except Fault (List W) :=
  f.weights.valuesFor requested

/-- The first joint state of largest weight. -/
def argmax : Factor W L → Except Fault (List (String × Nat))
  | plain t => t.argmax
  | log t => t.argmax

/-- The number of states of a variable. -/
def cardinality (f : Factor W L) (name : String) : Except Fault Nat :=
  match f with
  | plain t => t.cardinality name
  | log t => t.cardinality name

/-- The factor over one variable that has the weight one everywhere. -/
def uniformOver (name : String) (states : Nat) : Factor W L :=
  plain (Table.ofFn ⟨[⟨name, states⟩], by simp⟩ fun _ => WeightScale.one)

end Factor

end ExactInference
