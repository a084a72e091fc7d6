/-!
# Numerals

A numeral writes a number below `Numeral.bound` in decimal: one plus sign may stand in front of its
digits, and any number of leading zeros is fine.

A numeral is read char by char, and the first char that cannot be taken decides the error: it is no
digit, or it takes the value to the bound. What stands behind that char does not matter.
-/

namespace LinePattern.Numeral

/-- Numerals write numbers of 64 bits. -/
def bound : Nat := UInt64.size

/-- Why a text is not a numeral. -/
inductive ParseError where
  /-- There are no chars. -/
  | empty
  /-- A char is not a digit, or there is a sign only. -/
  | invalidDigit
  /-- The digits so far write a number that is not below the bound. -/
  | tooLarge
  deriving DecidableEq, Repr

/-- The text of the error. -/
def ParseError.message : ParseError → String
  | empty => "cannot parse integer from empty string"
  | invalidDigit => "invalid digit found in string"
  | tooLarge => "number too large to fit in target type"

/-- The value of an ASCII digit. -/
def digitValue (c : Char) : Nat := c.toNat - '0'.toNat

/-- Reads digits to the end of the text, where those in front of it write `value`. -/
def readDigits (value : Nat) : List Char → Except ParseError Nat
  | [] => .ok value
  | c :: cs =>
    if c.isDigit then
      if 10 * value + digitValue c < bound then readDigits (10 * value + digitValue c) cs
      else .error .tooLarge
    else .error .invalidDigit

/-- The number that the text writes. -/
def parse : List Char → Except ParseError Nat
  | [] => .error .empty
  | ['+'] => .error .invalidDigit
  | '+' :: digits => readDigits 0 digits
  | digits => readDigits 0 digits

end LinePattern.Numeral
