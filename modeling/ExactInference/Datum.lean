import ExactInference.Decimal.Shortest
import ExactInference.Text.Quoted

/-!
# Loosely typed values

A caller may name a state, a number of states or a statistic by a whole number, a binary64 number, a
truth value, a text, nothing at all, or by a list or a map of such values. This module holds the
type, the words for the sorts of values, and the two ways in which a value is shown: by itself,
where a text stands without quotes, and inside a list or a map, where it is quoted.
-/

namespace ExactInference

/-- A value as a caller gives it. -/
inductive Datum where
  /-- A whole number. -/
  | whole (n : Int)
  /-- A binary64 number. -/
  | real (x : Float)
  /-- A truth value. -/
  | truth (b : Bool)
  /-- A text. -/
  | text (s : String)
  /-- No value. -/
  | absent
  /-- Several values in order. -/
  | several (items : List Datum)
  /-- Values under names, in the order in which the names arrived. -/
  | mapping (entries : List (String × Datum))
deriving Inhabited

/-- The sorts of loosely typed values. -/
inductive DatumSort where
  /-- Whole numbers. -/
  | whole
  /-- Binary64 numbers. -/
  | real
  /-- Truth values. -/
  | truth
  /-- Texts. -/
  | text
  /-- The missing value. -/
  | absent
  /-- Lists. -/
  | several
  /-- Maps. -/
  | mapping
deriving DecidableEq, Repr

/-- The word for a sort in messages. -/
def DatumSort.word : DatumSort → String
  | .whole => "int"
  | .real => "float"
  | .truth => "bool"
  | .text => "str"
  | .absent => "NoneType"
  | .several => "list"
  | .mapping => "dict"

namespace Datum

/-- The sort of a value. -/
def sort : Datum → DatumSort
  | .whole _ => .whole
  | .real _ => .real
  | .truth _ => .truth
  | .text _ => .text
  | .absent => .absent
  | .several _ => .several
  | .mapping _ => .mapping

mutual

/-- A value as it stands inside a list. -/
def element : Datum → String
  | .whole n => toString n
  | .real x => Decimal.shortestOf x
  | .truth b => if b then "True" else "False"
  | .text s => Text.quoted s
  | .absent => "None"
  | .several items => Text.bracketed (elements items)
  | .mapping entries => Text.braced (pairs entries)

/-- The values of a list. -/
def elements : List Datum → List String
  | [] => []
  | d :: ds => d.element :: elements ds

/-- The names and values of a map. -/
def pairs : List (String × Datum) → List (String × String)
  | [] => []
  | (name, d) :: rest => (Text.quoted name, d.element) :: pairs rest

end

/-- A value by itself: a text has no quotes, and all else is as in a list. -/
def shown : Datum → String
  | .text s => s
  | d => d.element

end Datum

end ExactInference
