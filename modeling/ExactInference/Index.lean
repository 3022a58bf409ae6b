import ExactInference.Fault

/-!
# Indices

Callers point into axes and lists by whole numbers, and an index below zero counts from the end. An
index first has to fit a machine word of 64 bits, which is refused apart from being out of bounds.
The same words bound how many states an axis and how many bytes a table may have, and no table has
more than `maxAxes` axes. The lemmas say that a natural number is its own place within the size, and
that it has none beyond.
-/

namespace ExactInference

/-- The first number that a machine word with a sign cannot hold. -/
def signedLimit : Int := Nat.pow 2 63

/-- The first number that a machine word without a sign cannot hold. -/
def unsignedLimit : Int := Nat.pow 2 64

/-- Whether a machine word with a sign holds a number. -/
def fitsWord (i : Int) : Bool := -signedLimit ≤ i && i < signedLimit

/-- The place among `size` that an index stands for, if there is one. -/
def placeOf? (size : Nat) (i : Int) : Option Nat :=
  if 0 ≤ i ∧ i < size then some i.toNat
  else if i < 0 ∧ -(size : Int) ≤ i then some (i + size).toNat
  else none

/-- A natural number within the size stands for itself. -/
theorem placeOf?_natCast {size n : Nat} (h : n < size) : placeOf? size (n : Int) = some n := by
  simp [placeOf?, h]

/-- A natural number stands for a place only within the size. -/
theorem lt_of_isSome_placeOf? {size n : Nat} (h : (placeOf? size (n : Int)).isSome) : n < size := by
  unfold placeOf? at h
  split at h
  next hin => omega
  next =>
    split at h
    next hbelow => omega
    next => cases h

/-- The place that an index stands for in a list of given length. -/
def resolveIndex (length : Nat) (i : Int) : Except Fault Nat :=
  match placeOf? length i with
  | some place => .ok place
  | none => .error (if fitsWord i then .listIndex else .positionTooLarge)

/-- The element at an index, which counts from the end if it is below zero. -/
def elementAt {α : Type} (xs : List α) (i : Int) : Except Fault α := do
  match xs[← resolveIndex xs.length i]? with
  | some x => .ok x
  | none => .error .listIndex

/-- A natural number below the length is the place of its element. -/
theorem elementAt_natCast {α : Type} {xs : List α} {n : Nat} (h : n < xs.length) :
    elementAt xs (n : Int) = .ok (xs.get ⟨n, h⟩) := by
  simp [elementAt, resolveIndex, placeOf?_natCast h, bind, Except.bind, h]

/-- Refuse an index into a table that fits no machine word. -/
def checkIndex (i : Int) : Except Fault Unit :=
  if fitsWord i then .ok ()
  else if 0 ≤ i ∧ i < unsignedLimit then .error .indexTooLarge
  else .error .noIndex

/-- Resolve an index on an axis. -/
def indexOn (axis size : Nat) (i : Int) : Except Fault Nat :=
  match placeOf? size i with
  | some place => .ok place
  | none => .error (.indexOutOfBounds i axis size)

/-- Resolve one index for each axis in order, the first of which is the axis number `axis`. -/
def indicesOn : Nat → List Nat → List Int → Except Fault (List Nat)
  | axis, size :: sizes, i :: is => do
    let first ← indexOn axis size i
    let more ← indicesOn (axis + 1) sizes is
    .ok (first :: more)
  | _, _, _ => .ok []

/-- How many axes a table may have. -/
def maxAxes : Nat := 64

/-- Resolve a key, one index after the other. A key has at most twice as many indices as a table may
have axes; then every index has to fit a word before their number is compared with the number of
axes, and all this comes before any bound. -/
def resolveKey (sizes : List Nat) (key : List Int) : Except Fault (List Nat) := do
  if 2 * maxAxes < key.length then throw .keyTooLong
  key.forM checkIndex
  if key.length > sizes.length then throw (.tooManyIndices sizes.length key.length)
  indicesOn 0 sizes key

/-- Refuse a table with too many axes. -/
def checkAxes (axes : Nat) : Except Fault Unit :=
  if axes ≤ maxAxes then .ok () else .error (.tooManyAxes maxAxes axes)

theorem of_checkAxes {axes : Nat} (h : checkAxes axes = .ok ()) : axes ≤ maxAxes := by
  unfold checkAxes at h
  split at h
  next hle => exact hle
  next => cases h

/-- Refuse the first number of states that is below zero or makes a table need too many bytes, on
top of the bytes of one entry of the axes before; axes without states are not counted. -/
def checkBytes : (bytes : Int) → (cards : List Int) → Except Fault Unit
  | _, [] => .ok ()
  | bytes, c :: rest =>
    if c = 0 then checkBytes bytes rest
    else if c < 0 then .error .negativeDimension
    else if signedLimit ≤ bytes * c then .error .tableTooLarge
    else checkBytes (bytes * c) rest

/-- Refuse numbers of states that no table of binary64 numbers can have. -/
def checkCards (cards : List Int) : Except Fault Unit := do
  checkAxes cards.length
  if cards.all fitsWord then checkBytes 8 cards else .error .dimensionTooLarge

end ExactInference
