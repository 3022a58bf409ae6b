import ExactInference.FactorGraph.Minimal

/-!
# Marginal sets

The result of summing: marginals over sets of free variables that all sum to the same total, the
logarithm of that total, and the observed variables. A marginal over any variables that one factor
covers is a sum over the smallest such factor; observed variables enter as a point mass.
-/

namespace ExactInference

/-- Marginals with their total and the observed variables. -/
structure MarginalSet (W L : Type) where
  /-- The marginals, each over some of the free variables. -/
  factors : List (Factor W L)
  /-- The logarithm of the sum of the joint weights. -/
  logTotal : L
  /-- The states of the observed variables. -/
  conditioned : OrderedMap String Int
  /-- The numbers of states of observed variables, as far as they are known. -/
  cards : OrderedMap String Int

namespace MarginalSet

variable {W L : Type}

/-- Append the names that are not listed yet. -/
def extendNames (seen names : List String) : List String :=
  seen ++ names.filter fun v => !seen.contains v

/-- All covered variables: the free ones in the order of the factors, and then the observed ones. -/
def names (m : MarginalSet W L) : List String :=
  extendNames (m.factors.foldl (fun seen f => extendNames seen f.names) []) m.conditioned.keys

/-- The set in one line, with the logarithm of the total shown in a given way. -/
def line (shown : L → String) (m : MarginalSet W L) : String :=
  "FactorMarginalSet(factors=" ++ toString m.factors.length ++ ", log_partition_function="
    ++ shown m.logTotal ++ ")"

/-- Among the factors that cover some names one with the fewest variables, the first of several. -/
def source? (m : MarginalSet W L) (names : List String) : Option (Factor W L) :=
  match m.factors.filter fun f => covers f.names names with
  | [] => none
  | f :: fs =>
    some (fs.foldl (fun best g => if g.names.length < best.names.length then g else best) f)

/-- Also treat some variables as observed. The marginals stay as they are. -/
def addConditional {σ : Type} [StateValue σ] (m : MarginalSet W L)
    (values cards : OrderedMap String σ) : Except Fault (MarginalSet W L) := do
  let covered := m.names
  values.entries.foldlM (fun m e => do
    if covered.contains e.1 then throw (.alreadyCovered e.1)
    match cards.get? e.1 with
    | none => throw (.cardinalityUnknown e.1)
    | some n =>
      if ← StateValue.isStateOf e.2 n then
        let state ← StateValue.toInt e.2
        let count ← StateValue.toInt n
        .ok { m with
          conditioned := m.conditioned.insert e.1 state
          cards := m.cards.insert e.1 count }
      else throw (.observedOutOfRange (StateValue.shown e.2) e.1 (StateValue.shown n))) m

variable [WeightScale W] [WeightScale L] [LogConversion W L]

/-- The sum of the joint weights. -/
def total (m : MarginalSet W L) : Except Fault W := LogConversion.tryExp m.logTotal

/-- The marginal over free variables, or the total if there are none. -/
def freeMarginal (m : MarginalSet W L) (names : List String) : Except Fault (Factor W L) :=
  if names.isEmpty then (fun w => .plain (Table.scalar w)) <$> m.total
  else
    match m.source? names with
    | none => .error (.notCovered names)
    | some f => f.marginalize (f.names.filter fun v => !names.contains v)

/-- The point mass of observed variables at their states. -/
def pointMass (m : MarginalSet W L) (names : List String) : Except Fault (Factor W L) := do
  let missing := names.filter fun v => !m.cards.contains v
  if missing.isEmpty then
    Factor.plain <$> Table.indicator names (names.filterMap m.cards.get?) m.conditioned
  else .error (.cardinalitiesUnknown missing)

/-- The marginal over some variables, free and observed. -/
def marginal (m : MarginalSet W L) (requested : List String) : Except Fault (Factor W L) := do
  let result ← m.freeMarginal (requested.filter fun v => !m.conditioned.contains v)
  let observed := requested.filter m.conditioned.contains
  if observed.isEmpty then .ok result
  else result.product (← m.pointMass observed)

/-- The marginal over some variables, scaled to sum to one. -/
def posterior (m : MarginalSet W L) (requested : List String) : Except Fault (Factor W L) :=
  m.marginal requested >>= Factor.normalize

end MarginalSet

end ExactInference
