import ExactInference.Text.Printable

/-!
# Quoted text and bracketed lists

Messages show names between quotes and collections between brackets. A text stands in single
quotes, or in double quotes if it holds a single quote and no double quote. The quote in use and
the backslash are escaped, line breaks and tabs have letters of their own, and a character that
cannot be seen is shown by its code with the shortest of the escapes of two, four and eight
digits.
-/

namespace ExactInference.Text

/-- Digits in base sixteen, padded with zeros on the left. -/
def hexDigits (width n : Nat) : String :=
  let digits := Nat.toDigits 16 n
  String.ofList (List.replicate (width - digits.length) '0' ++ digits)

/-- The code of a character that cannot be seen. -/
def codeEscape (c : Char) : String :=
  let n := c.toNat
  if n ≤ 0xFF then "\\x" ++ hexDigits 2 n
  else if n ≤ 0xFFFF then "\\u" ++ hexDigits 4 n
  else "\\U" ++ hexDigits 8 n

/-- One character inside a text that stands between the given quotes. -/
def escape (quote c : Char) : String :=
  if c = quote || c = '\\' then String.ofList ['\\', c]
  else if c = '\n' then "\\n"
  else if c = '\r' then "\\r"
  else if c = '\t' then "\\t"
  else if isPrintable c then String.singleton c
  else codeEscape c

/-- The quote that a text stands in. -/
def quoteFor (s : String) : Char :=
  if s.toList.contains '\'' && !s.toList.contains '"' then '"' else '\''

/-- A text between quotes. -/
def quoted (s : String) : String :=
  let q := quoteFor s
  String.singleton q ++ String.join (s.toList.map (escape q)) ++ String.singleton q

/-- The first characters of a text, as many as there may be. -/
def shortened (most : Nat) (s : String) : String := String.ofList (s.toList.take most)

/-- Texts that are shown already, between square brackets. -/
def bracketed (items : List String) : String :=
  "[" ++ String.intercalate ", " items ++ "]"

/-- Texts that are shown already, between round brackets; a single one keeps a comma behind it. -/
def parenthesized : List String → String
  | [] => "()"
  | [item] => "(" ++ item ++ ",)"
  | items => "(" ++ String.intercalate ", " items ++ ")"

/-- Pairs of texts that are shown already, as a map. -/
def braced (items : List (String × String)) : String :=
  "\x7b" ++ String.intercalate ", " (items.map fun e => e.1 ++ ": " ++ e.2) ++ "\x7d"

/-- A list of names. -/
def names (xs : List String) : String := bracketed (xs.map quoted)

/-- A tuple of whole numbers. -/
def shape (ns : List Int) : String := parenthesized (ns.map toString)

/-- A list of whole numbers. -/
def integers (ns : List Int) : String := bracketed (ns.map toString)

/-- A list of pairs of whole numbers. -/
def links (es : List (Int × Int)) : String := bracketed (es.map fun e => shape [e.1, e.2])

/-- A map from names to whole numbers. -/
def states (es : List (String × Int)) : String :=
  braced (es.map fun e => (quoted e.1, toString e.2))

end ExactInference.Text
