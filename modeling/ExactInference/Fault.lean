import ExactInference.Datum
import ExactInference.Text.Numeral

/-!
# Causes of failure

Every operation that can fail says why by a `Fault`: the cause with the values that explain it. The
wording of all messages is in one function, `Fault.message`.
-/

namespace ExactInference

/-- The two ways in which a factor stores its weights, as messages name them. -/
inductive Form where
  /-- The weights themselves. -/
  | plain
  /-- Their logarithms. -/
  | log
deriving DecidableEq, Repr

/-- The word for a form in messages. -/
def Form.word : Form → String
  | .plain => "TableFactor"
  | .log => "LogTableFactor"

/-- What a message tells about a factor graph. -/
structure GraphOutline where
  /-- The free variables in the order of their declaration. -/
  free : List String
  /-- The number of factors. -/
  factorCount : Nat
  /-- The observed variables with their states, in the order of observation. -/
  conditioned : List (String × Int)
deriving DecidableEq, Repr

/-- A factor graph in one line. -/
def GraphOutline.line (g : GraphOutline) : String :=
  "FactorGraph(variables=" ++ Text.names g.free ++ ", factors=" ++ toString g.factorCount
    ++ ", conditioned=" ++ Text.states g.conditioned ++ ")"

/-- Why an operation failed. -/
inductive Fault where
  /-- A factor was given differently many names and cardinalities. -/
  | axisCount (names cardinalities : Nat)
  /-- A factor was given one name twice. -/
  | repeatedNames (names : List String)
  /-- The shape of the data is not the list of cardinalities. -/
  | shapeMismatch (form : Form) (shape cardinalities : List Int)
  /-- Two factors count the states of one variable differently. -/
  | cardinalityConflict (name : String) (left right : Nat)
  /-- A factor has no axis of this name. -/
  | notInFactor (name : String)
  /-- An assignment leaves out variables of a factor. -/
  | unassigned (names : List String)
  /-- A state lies outside the states of its variable. -/
  | stateOutOfRange (state name : String) (states : Nat)
  /-- A requested order of axes is no order of the factor's axes. -/
  | orderMismatch (requested own : List String)
  /-- There is no best entry of a table without entries. -/
  | emptyArgmax
  /-- There is no largest weight among none. -/
  | emptyMaximum
  /-- A table was to have an axis with fewer than no states. -/
  | negativeDimension
  /-- A table was read with more indices than it has axes. -/
  | tooManyIndices (axes indices : Nat)
  /-- A key has more indices than any key may have. -/
  | keyTooLong
  /-- An index is beyond its axis. -/
  | indexOutOfBounds (index : Int) (axis size : Nat)
  /-- An index fits no machine word with a sign, only one without. -/
  | indexTooLarge
  /-- An index fits no machine word. -/
  | noIndex
  /-- A table was to have more axes than there may be. -/
  | tooManyAxes (most axes : Nat)
  /-- A number of states is beyond what an axis can have. -/
  | dimensionTooLarge
  /-- The joint states of a table would be more than can be counted. -/
  | walkTooLarge
  /-- A table would need more bytes than can be counted. -/
  | tableTooLarge
  /-- A text has this many digits, which is more than a whole number may have. -/
  | tooManyDigits (digits : Nat)
  /-- A text is no whole number. -/
  | badLiteral (text : String)
  /-- A number that is no number cannot be cut to a whole one. -/
  | nanToWhole
  /-- An infinite number cannot be cut to a whole one. -/
  | infiniteToWhole
  /-- A whole number is beyond all binary64 numbers. -/
  | wholeTooLarge
  /-- A value of this sort stands for no whole number. -/
  | noWhole (sort : DatumSort)
  /-- Values of these sorts have no order. -/
  | incomparable (relation : String) (left right : DatumSort)
  /-- The exponential of a finite number is too large. -/
  | exponentialTooLarge
  /-- A variable was declared twice. -/
  | variableExists (name : String)
  /-- A variable was declared without states. -/
  | noStates (name : String)
  /-- A variable is not declared in the graph. -/
  | notInGraph (name : String)
  /-- A variable is observed already. -/
  | alreadyConditioned (name : String)
  /-- A factor counts the states of a declared variable differently. -/
  | cardinalityExpected (given : Nat) (name : String) (expected : Nat)
  /-- A name has no position among the declared variables. -/
  | noPosition (name : String)
  /-- Nothing is stored under a name. -/
  | unknownName (name : String)
  /-- A graph has nothing to build a clique tree from. -/
  | noFactors (graph : GraphOutline)
  /-- No remaining clique can be merged into another one. -/
  | needsFillIn (graph : GraphOutline) (remaining : List (List String))
  /-- An elimination hint does not number the cliques. -/
  | badHint (hint : List Int) (cliques : Nat)
  /-- A message was stored already. -/
  | messageExists (start stop : Int)
  /-- A message is read before it was sent. -/
  | messageMissing (start stop : Int)
  /-- The marginals of a clique tree were taken out already. -/
  | treeSpent
  /-- No clique received all its messages before sending one. -/
  | noRoot
  /-- Two cliques are not adjacent. -/
  | noSeparator (neighbor : Int)
  /-- A position is beyond a list. -/
  | listIndex
  /-- A position is beyond every list. -/
  | positionTooLarge
  /-- There is no least element among none. -/
  | emptyMinimum
  /-- A message that was counted as received was never sent in the other direction. -/
  | noReverseMessage
  /-- The observations have weight zero. -/
  | zeroProbability
  /-- No factor covers these free variables. -/
  | notCovered (names : List String)
  /-- The numbers of states of observed variables are not known. -/
  | cardinalitiesUnknown (names : List String)
  /-- The number of states of one observed variable is not given. -/
  | cardinalityUnknown (name : String)
  /-- A variable belongs to the marginal set already. -/
  | alreadyCovered (name : String)
  /-- An observed state is beyond the given number of states. -/
  | observedOutOfRange (state name states : String)
  /-- A node was added twice. -/
  | nodeExists (name : String)
  /-- A parent has not been added yet. -/
  | parentMissing (parent child : String)
  /-- A conditional table has the wrong number of axes. -/
  | dimensionCount (name : String) (given expected : Nat)
  /-- A conditional table does not follow the states of the parents. -/
  | parentShape (shape parents : List Int)
  /-- A conditional table holds a number below zero. -/
  | negativeEntries (name : String)
  /-- The labels of a node are not as many as its states. -/
  | labelCount (labels : Nat) (name : String) (states : Nat)
  /-- A variable is not in the network. -/
  | notInNetwork (name : String)
  /-- A state index is beyond the states of a node. -/
  | stateIndexOutOfRange (index name : String)
  /-- A label names no state of a node. -/
  | notALabel (label name : String) (labels : List String)
  /-- A timer is stopped that does not run. -/
  | timerNotStarted (name : String)
  /-- Statistics cannot be reported less than never. -/
  | badInterval (interval : Int)
  /-- A source of random tables was given a seed below zero. -/
  | negativeSeed
  /-- A family of graphs with names of its own was given a stem for them. -/
  | fixedNames (family : String)
deriving DecidableEq, Repr

namespace Fault

/-- The text that explains a fault. -/
def message : Fault → String
  | axisCount n m => s!"Got {n} variables but {m} cardinalities"
  | repeatedNames vs => "Duplicate variables in " ++ Text.names vs
  | shapeMismatch form shape cards =>
    form.word ++ " shape " ++ Text.shape shape ++ " does not match cardinalities "
      ++ Text.shape cards
  | cardinalityConflict v a b =>
    s!"Variable '{v}' has cardinality {a} in one factor and {b} in the other"
  | notInFactor v => s!"Variable '{v}' not in factor"
  | unassigned vs => "Assignment is missing variables " ++ Text.names vs
  | stateOutOfRange s v n => s!"State {s} out of range for variable '{v}' with {n} states"
  | orderMismatch requested own =>
    "Requested order " ++ Text.names requested ++ " does not match factor variables "
      ++ Text.names own
  | emptyArgmax => "attempt to get argmax of an empty sequence"
  | emptyMaximum => "zero-size array to reduction operation maximum which has no identity"
  | negativeDimension => "negative dimensions are not allowed"
  | tooManyIndices axes indices =>
    s!"too many indices for array: array is {axes}-dimensional, but {indices} were indexed"
  | keyTooLong => "too many indices for array"
  | indexOutOfBounds i axis size =>
    s!"index {i} is out of bounds for axis {axis} with size {size}"
  | indexTooLarge => "Python int too large to convert to C long"
  | noIndex =>
    "only integers, slices (`:`), ellipsis (`...`), numpy.newaxis (`None`) and integer or boolean "
      ++ "arrays are valid indices"
  | tooManyAxes most axes =>
    s!"maximum supported dimension for an ndarray is currently {most}, found {axes}"
  | dimensionTooLarge => "Maximum allowed dimension exceeded"
  | walkTooLarge => "iterator is too large"
  | tableTooLarge =>
    "array is too big; `arr.size * arr.dtype.itemsize` is larger than the maximum possible size."
  | tooManyDigits n =>
    s!"Exceeds the limit ({Text.maxDigits} digits) for integer string conversion: value has "
      ++ s!"{n} digits; use sys.set_int_max_str_digits() to increase the limit"
  | badLiteral s =>
    "invalid literal for int() with base 10: " ++ Text.shortened 200 (Text.quoted s)
  | nanToWhole => "cannot convert float NaN to integer"
  | infiniteToWhole => "cannot convert float infinity to integer"
  | wholeTooLarge => "int too large to convert to float"
  | noWhole sort =>
    "int() argument must be a string, a bytes-like object or a real number, not '"
      ++ sort.word ++ "'"
  | incomparable relation left right =>
    "'" ++ relation ++ "' not supported between instances of '" ++ left.word ++ "' and '"
      ++ right.word ++ "'"
  | exponentialTooLarge => "math range error"
  | variableExists v => s!"Variable '{v}' already exists"
  | noStates v => s!"Variable '{v}' must have at least one state"
  | notInGraph v => s!"Variable '{v}' not in factor graph"
  | alreadyConditioned v => s!"Variable '{v}' is already conditioned on"
  | cardinalityExpected c v n => s!"Factor has cardinality {c} for '{v}', expected {n}"
  | noPosition v => Text.quoted v ++ " is not in list"
  | unknownName v => Text.quoted v
  | noFactors g => g.line ++ " has no factors"
  | needsFillIn g remaining =>
    "Could not convert " ++ g.line ++ " into a clique tree without fill-in. Remaining cliques: "
      ++ Text.bracketed (remaining.map Text.names)
  | badHint hint n =>
    "Elimination hint " ++ Text.integers hint ++ " is not a permutation of 0.."
      ++ toString ((n : Int) - 1)
  | messageExists a b => s!"Message {a} -> {b} has already been computed"
  | messageMissing a b => s!"Invalid message passing order! Trying to pass {a} -> {b}"
  | treeSpent =>
    "Marginals were already extracted from this clique tree; "
      ++ "build a new tree for each inference call"
  | noRoot => "Message passing found no root clique"
  | noSeparator n => toString n
  | listIndex => "list index out of range"
  | positionTooLarge => "cannot fit 'int' into an index-sized integer"
  | emptyMinimum => "min() arg is an empty sequence"
  | noReverseMessage => "'NoneType' object has no attribute 'invert'"
  | zeroProbability => "Evidence has zero probability"
  | notCovered vs => "No marginal contains all of " ++ Text.names vs
  | cardinalitiesUnknown vs => "Cardinality unknown for observed " ++ Text.names vs
  | cardinalityUnknown v => s!"Cardinality unknown for observed '{v}'"
  | alreadyCovered v => s!"Variable '{v}' is already in the marginal set"
  | observedOutOfRange s v n => s!"State {s} out of range for '{v}' with {n} states"
  | nodeExists v => s!"Node '{v}' already exists"
  | parentMissing p v => s!"Parent '{p}' must be added before child '{v}'"
  | dimensionCount v given expected =>
    s!"Distribution for '{v}' has {given} dimensions, expected {expected}"
  | parentShape shape parents =>
    "CPT shape " ++ Text.shape shape ++ " does not match parent states " ++ Text.shape parents
  | negativeEntries v => s!"Distribution for '{v}' has negative entries"
  | labelCount n v k =>
    s!"Got {n} state labels for '{v}', which does not match the {k} states of its distribution"
  | notInNetwork v => s!"Variable '{v}' not in network"
  | stateIndexOutOfRange s v => s!"State index {s} out of range for '{v}'"
  | notALabel s v labels =>
    s!"'{s}' is not a valid state of '{v}'. Valid states: " ++ Text.names labels
  | timerNotStarted v => Text.quoted s!"Timer '{v}' was not started"
  | badInterval n => s!"log_interval must be >= 1, got {n}"
  | negativeSeed => "expected non-negative integer"
  | fixedNames family => s!"build_{family}() got an unexpected keyword argument 'prefix'"

end Fault

end ExactInference
