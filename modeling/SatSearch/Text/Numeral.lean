/-!
# Numerals

Reading a decimal numeral that has to lie in a range.  A numeral is a sign, which may be missing,
and one or more digits.  A plus sign is always allowed; a minus sign only where the range has
negative numbers.  Reading goes from left to right and stops at the first character that is no
digit or takes the number out of the range; a character that does both is no digit.
-/

namespace SatSearch.Text

inductive NumeralError where
  | empty
  | invalidDigit
  | tooLarge
  | tooSmall
deriving DecidableEq, Inhabited, Repr

def NumeralError.message : NumeralError → String
  | empty => "cannot parse integer from empty string"
  | invalidDigit => "invalid digit found in string"
  | tooLarge => "number too large to fit in target type"
  | tooSmall => "number too small to fit in target type"

structure NumeralRange where
  /-- The greatest absolute value of a negative number, if the range has negative numbers. -/
  negative : Option Nat
  positive : Nat
deriving DecidableEq, Inhabited, Repr

namespace NumeralRange

/-- The numbers of a 64-bit word in two's complement. -/
def signed64 : NumeralRange := ⟨some (Nat.pow 2 63), Nat.pow 2 63 - 1⟩

/-- The numbers of a 64-bit word without sign. -/
def unsigned64 : NumeralRange := ⟨none, Nat.pow 2 64 - 1⟩

end NumeralRange

/-- Reads further digits of a number whose digits so far have the value `value`.  A value above
`limit` is an error of the given kind. -/
def readDigits (limit : Nat) (overflow : NumeralError) (value : Nat) :
    List Char → Except NumeralError Nat
  | [] => .ok value
  | c :: cs =>
    if !c.isDigit then
      .error .invalidDigit
    else
      let value := value * 10 + (c.toNat - '0'.toNat)
      if limit < value then .error overflow else readDigits limit overflow value cs

/-- Reads a number without sign or minus. -/
def readMagnitude (limit : Nat) (overflow : NumeralError) (cs : List Char) :
    Except NumeralError Nat :=
  if cs.isEmpty then .error .invalidDigit else readDigits limit overflow 0 cs

/-- Reads a numeral whose value lies in the given range. -/
def readNumeral (range : NumeralRange) : List Char → Except NumeralError Int
  | [] => .error .empty
  | '+' :: cs => (readMagnitude range.positive .tooLarge cs).map Int.ofNat
  | '-' :: cs =>
    match range.negative with
    | some limit => (readMagnitude limit .tooSmall cs).map fun n => -Int.ofNat n
    | none => .error .invalidDigit
  | cs => (readMagnitude range.positive .tooLarge cs).map Int.ofNat

end SatSearch.Text
