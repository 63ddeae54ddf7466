import Forthlet.Text.Digit

/-!
# Numerals

A numeral is an optional minus sign followed by hexadecimal digits after one of
the marks `0x`, `0X` and `$`, or by decimal digits of any script. Decimal text
is limited in length, both when it is read and when a number is printed;
hexadecimal text is not.
-/
namespace Forthlet.Numeral

/-- The most decimal digits that are read or printed. -/
def decimalLimit : Nat := 4300

inductive Error where
  | notANumber (text : String)
  /-- Made of digit signs, but too long or with a sign that has no decimal value. -/
  | unreadable
  deriving DecidableEq, Repr

def hexValue? (c : Char) : Option Nat :=
  if c.isDigit then some (c.toNat - '0'.toNat)
  else if 'a' ≤ c ∧ c ≤ 'f' then some (c.toNat - 'a'.toNat + 10)
  else if 'A' ≤ c ∧ c ≤ 'F' then some (c.toNat - 'A'.toNat + 10)
  else none

/-- Positional value, most significant digit first. -/
def ofDigits (base : Nat) (digits : List Nat) : Nat :=
  digits.foldl (fun n d => n * base + d) 0

/-- What follows the mark of a hexadecimal numeral. -/
def hexBody? : List Char → Option (List Char)
  | '$' :: cs => some cs
  | '0' :: 'x' :: cs => some cs
  | '0' :: 'X' :: cs => some cs
  | _ => none

/-- The minus sign, unless nothing follows it, and the rest. -/
def splitSign : List Char → Bool × List Char
  | '-' :: c :: cs => (true, c :: cs)
  | cs => (false, cs)

/-- What a token says once its sign is off. -/
inductive Magnitude where
  | value (n : Nat)
  | unreadable
  | malformed
  deriving DecidableEq, Repr

def magnitude (cs : List Char) : Magnitude :=
  match hexBody? cs with
  | some digits =>
    if digits.isEmpty then .malformed
    else match digits.mapM hexValue? with
      | some ds => .value (ofDigits 16 ds)
      | none => .malformed
  | none =>
    if cs.isEmpty || !cs.all Text.isDigitSign then .malformed
    else if decimalLimit < cs.length then .unreadable
    else match cs.mapM Text.decimalValue? with
      | some ds => .value (ofDigits 10 ds)
      | none => .unreadable

def parse (text : String) : Except Error Int :=
  let (negative, body) := splitSign text.toList
  match magnitude body with
  | .value n => .ok (if negative then -(n : Int) else n)
  | .unreadable => .error .unreadable
  | .malformed => .error (.notANumber text)

/-- The least magnitude with too many decimal digits to print. -/
def printBound : Nat := Nat.pow 10 decimalLimit

def printable (n : Int) : Bool :=
  n.natAbs < printBound

end Forthlet.Numeral
