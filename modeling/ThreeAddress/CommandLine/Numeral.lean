import ThreeAddress.Decimal
import ThreeAddress.Options

/-!
# Numbers on the command line

The value of an option is a word in decimal, with an optional `+` before it.
The characters are read from the left, and the first that cannot be accepted
decides how the reading fails: it is no digit, or the number up to it does not
fit a word.
-/

set_option autoImplicit false

namespace ThreeAddress.CommandLine

/-- Why a text is not a number that an option takes. -/
inductive NumeralError where
  | empty
  | invalidDigit
  | tooLarge
deriving DecidableEq, Repr, Inhabited

/-- The wording of a failed reading. -/
def NumeralError.message : NumeralError → String
  | empty => "cannot parse integer from empty string"
  | invalidDigit => "invalid digit found in string"
  | tooLarge => "number too large to fit in target type"

/-- Reads digits after those whose value is `n`. -/
def readDigits (n : Nat) : List Char → Except NumeralError Nat
  | [] => .ok n
  | c :: cs =>
    if c.isDigit then
      if 10 * n + Decimal.digit c ≤ maxWord then readDigits (10 * n + Decimal.digit c) cs
      else .error .tooLarge
    else
      .error .invalidDigit

/-- Reads a number. A sign alone is none. -/
def readNumeral : List Char → Except NumeralError Nat
  | [] => .error .empty
  | ['+'] => .error .invalidDigit
  | '+' :: digits => readDigits 0 digits
  | digits => readDigits 0 digits

/-- Reads a word. -/
def readWord (text : String) : Except NumeralError UInt64 :=
  (readNumeral text.toList).map UInt64.ofNat

end ThreeAddress.CommandLine
