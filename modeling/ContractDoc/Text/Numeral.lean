/-! # Reading numerals

Unsigned numerals are read digit by digit below a bound, and the first digit that is no digit or
goes past the bound decides the error. Signed decimal numerals are read into 32 bits or refused.
-/

namespace ContractDoc.Text

inductive NumeralFault
  | empty
  | invalidDigit
  | tooLarge
  deriving DecidableEq, Repr

namespace NumeralFault

def message : NumeralFault → String
  | empty => "cannot parse integer from empty string"
  | invalidDigit => "invalid digit found in string"
  | tooLarge => "number too large to fit in target type"

end NumeralFault

inductive Radix
  | decimal
  | hexadecimal
  deriving DecidableEq, Repr

namespace Radix

def base : Radix → Nat
  | decimal => 10
  | hexadecimal => 16

/-- The value of an ASCII digit; hexadecimal letters count in both cases. -/
def digit? (radix : Radix) (c : Char) : Option Nat :=
  if '0' ≤ c ∧ c ≤ '9' then some (c.toNat - '0'.toNat)
  else
    match radix with
    | decimal => none
    | hexadecimal =>
        if 'a' ≤ c ∧ c ≤ 'f' then some (c.toNat - 'a'.toNat + 10)
        else if 'A' ≤ c ∧ c ≤ 'F' then some (c.toNat - 'A'.toNat + 10)
        else none

/-- Continues a numeral whose digits so far are worth `value`. A character that is no digit is
reported before the size of the number is looked at. -/
def readFrom (radix : Radix) (bound value : Nat) : List Char → Except NumeralFault Nat
  | [] => .ok value
  | c :: cs =>
      match radix.digit? c with
      | none => .error .invalidDigit
      | some digit =>
          let next := value * radix.base + digit
          if next < bound then radix.readFrom bound next cs else .error .tooLarge

def read (radix : Radix) (bound : Nat) (digits : List Char) : Except NumeralFault Nat :=
  if digits.isEmpty then .error .empty else radix.readFrom bound 0 digits

end Radix

def natural? (digits : List Char) : Option Nat :=
  if digits.isEmpty then none
  else digits.foldlM (fun value c => (Radix.decimal.digit? c).map (value * 10 + ·)) 0

/-- The integer that decimal digits after at most one sign denote. -/
def integer? : List Char → Option Int
  | '+' :: digits => (natural? digits).map Int.ofNat
  | '-' :: digits => (natural? digits).map fun value => -Int.ofNat value
  | digits => (natural? digits).map Int.ofNat

/-- The integer denoted by the text, if it is a decimal numeral and fits in 32 bits. -/
def int32? (text : String) : Option Int32 :=
  (integer? text.toList).bind fun value =>
    if -2147483648 ≤ value ∧ value ≤ 2147483647 then some (Int32.ofInt value) else none

end ContractDoc.Text
