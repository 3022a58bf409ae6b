/-!
# Numerals in text

A decimal whole number in a text has an optional sign and digits of any script; an underscore may
stand between two digits, and blanks may stand around it. A numeral of more than `maxDigits` digits
is refused before anything behind its digits is looked at. The tables hold the zeros of all scripts
and the blanks (Unicode 14). The main statement says that plain digits are read by place value.
-/

namespace ExactInference.Text

/-- The zeros of all scripts; the digits one to nine of a script follow its zero. -/
def zeros : List Nat :=
  [0x30, 0x660, 0x6F0, 0x7C0, 0x966, 0x9E6, 0xA66, 0xAE6, 0xB66, 0xBE6, 0xC66, 0xCE6, 0xD66, 0xDE6,
   0xE50, 0xED0, 0xF20, 0x1040, 0x1090, 0x17E0, 0x1810, 0x1946, 0x19D0, 0x1A80, 0x1A90, 0x1B50,
   0x1BB0, 0x1C40, 0x1C50, 0xA620, 0xA8D0, 0xA900, 0xA9D0, 0xA9F0, 0xAA50, 0xABF0, 0xFF10, 0x104A0,
   0x10D30, 0x11066, 0x110F0, 0x11136, 0x111D0, 0x112F0, 0x11450, 0x114D0, 0x11650, 0x116C0,
   0x11730, 0x118E0, 0x11950, 0x11C50, 0x11D50, 0x11DA0, 0x16A60, 0x16AC0, 0x16B50, 0x1D7CE,
   0x1D7D8, 0x1D7E2, 0x1D7EC, 0x1D7F6, 0x1E140, 0x1E2F0, 0x1E950, 0x1FBF0]

/-- The value of a digit. -/
def digitValue? (c : Char) : Option Nat :=
  (zeros.find? fun z => z ≤ c.toNat && c.toNat ≤ z + 9).map fun z => c.toNat - z

/-- The blanks that are no plain space and no line or page control. -/
def wideBlanks : List Nat :=
  [0x85, 0xA0, 0x1680, 0x2000, 0x2001, 0x2002, 0x2003, 0x2004, 0x2005, 0x2006, 0x2007, 0x2008,
   0x2009, 0x200A, 0x2028, 0x2029, 0x202F, 0x205F, 0x3000]

/-- Whether a character is a blank around a numeral. The controls that separate records are none. -/
def isBlank (c : Char) : Bool :=
  c = ' ' || (0x09 ≤ c.toNat && c.toNat ≤ 0x0D) || wideBlanks.contains c.toNat

/-- Digits of a numeral, most significant first, on top of the value of the digits before them. An
underscore may stand between two digits. -/
def numeralFrom? : Nat → List Char → Option Nat
  | value, [] => some value
  | value, '_' :: c :: rest => do numeralFrom? (10 * value + (← digitValue? c)) rest
  | value, c :: rest => do numeralFrom? (10 * value + (← digitValue? c)) rest

/-- A numeral that starts with a digit. -/
def numeral? : List Char → Option Nat
  | [] => none
  | c :: rest => do numeralFrom? (← digitValue? c) rest

/-- How many digits a numeral may have. -/
def maxDigits : Nat := 4300

/-- Whether every underscore of a run stands between two digits. -/
def underscoresInside : List Char → Bool
  | [] => true
  | ['_'] => false
  | '_' :: '_' :: _ => false
  | _ :: rest => underscoresInside rest

/-- The number of digits at the start of a text, if there are more of them than a numeral may have
and their underscores stand where they may. -/
def excessOf? (body : List Char) : Option Nat :=
  let run := body.takeWhile fun c => c = '_' || (digitValue? c).isSome
  let digits := run.countP (· ≠ '_')
  if maxDigits < digits && run.head? ≠ some '_' && underscoresInside run then some digits else none

/-- The number of digits of a numeral between blanks that has too many of them. -/
def excessDigits? (s : String) : Option Nat :=
  match s.toList.dropWhile isBlank with
  | '-' :: rest => excessOf? rest
  | '+' :: rest => excessOf? rest
  | body => excessOf? body

/-- The characters without the blanks at both ends. -/
def trimmed (cs : List Char) : List Char :=
  ((cs.dropWhile isBlank).reverse.dropWhile isBlank).reverse

/-- A decimal whole number with an optional sign, between blanks. -/
def whole? (s : String) : Option Int :=
  match trimmed s.toList with
  | '-' :: rest => (numeral? rest).map fun n => -(n : Int)
  | '+' :: rest => (numeral? rest).map fun n => (n : Int)
  | body => (numeral? body).map fun n => (n : Int)

/-- The plain digits are the values below ten. -/
theorem digitValue?_digitChar {d : Nat} (h : d < 10) : digitValue? (Nat.digitChar d) = some d := by
  have hall : ∀ d : Fin 10, digitValue? (Nat.digitChar d) = some d.val := by decide
  exact hall ⟨d, h⟩

/-- A digit is never the mark that may stand between two digits. -/
theorem digitChar_ne_underscore {d : Nat} (h : d < 10) : Nat.digitChar d ≠ '_' := by
  have hall : ∀ d : Fin 10, Nat.digitChar d ≠ '_' := by decide
  exact hall ⟨d, h⟩

/-- Plain digits are read by place value. -/
theorem numeralFrom?_map_digitChar {ds : List Nat} (h : ∀ d ∈ ds, d < 10) (value : Nat) :
    numeralFrom? value (ds.map Nat.digitChar)
      = some (ds.foldl (fun value d => 10 * value + d) value) := by
  induction ds generalizing value with
  | nil => rfl
  | cons d ds ih =>
    have hd : d < 10 := h d (by simp)
    have hrest := ih (fun e he => h e (by simp [he])) (10 * value + d)
    rw [List.map_cons, numeralFrom?.eq_3 _ _ _ fun _ _ hc => (digitChar_ne_underscore hd hc).elim,
      digitValue?_digitChar hd]
    exact hrest

end ExactInference.Text
