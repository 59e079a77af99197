/-!
# Signed 64-bit numerals

A numeral is an optional sign and decimal digits; leading zeros are allowed.  It
is read from left to right, so the first character that is no digit or takes the
value out of range decides what is wrong with it.
-/

namespace LayeredLogic

inductive NumeralError where
  | empty
  | invalidDigit
  | tooLarge
  | tooSmall
  deriving DecidableEq, Repr

def NumeralError.message : NumeralError → String
  | empty => "cannot parse integer from empty string"
  | invalidDigit => "invalid digit found in string"
  | tooLarge => "number too large to fit in target type"
  | tooSmall => "number too small to fit in target type"

namespace Numeral

def digit? (c : Char) : Option Nat :=
  if c.isDigit then some (c.toNat - '0'.toNat) else none

def readDigits (limit : Nat) (overflow : NumeralError) (value : Nat) :
    List Char → Except NumeralError Nat
  | [] => .ok value
  | c :: cs =>
      match digit? c with
      | none => .error .invalidDigit
      | some d =>
          if value * 10 + d ≤ limit then
            readDigits limit overflow (value * 10 + d) cs
          else .error overflow

def readMagnitude (limit : Nat) (overflow : NumeralError) :
    List Char → Except NumeralError Nat
  | [] => .error .invalidDigit
  | cs => readDigits limit overflow 0 cs

/-- The first number that is too large; the least number is its negation. -/
def signedLimit : Nat := 0x8000000000000000

def read : List Char → Except NumeralError Int64
  | [] => .error .empty
  | '-' :: cs => do
      let magnitude ← readMagnitude signedLimit .tooSmall cs
      return Int64.ofInt (-magnitude)
  | '+' :: cs => do
      let magnitude ← readMagnitude (signedLimit - 1) .tooLarge cs
      return Int64.ofInt magnitude
  | cs => do
      let magnitude ← readMagnitude (signedLimit - 1) .tooLarge cs
      return Int64.ofInt magnitude

end Numeral

end LayeredLogic
