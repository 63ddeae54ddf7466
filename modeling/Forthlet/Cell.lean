import Forthlet.Fault
import Forthlet.Numeral

/-!
# Cells

The engine computes on integers of 64 bits with a sign. Sums, differences,
products and quotients that leave that range are faults; the bitwise words act
on two's complement and the comparisons answer with all bits set or none, so
those stay within the range of their operands by themselves.
-/
namespace Forthlet.Cell

def least : Int := -9223372036854775808

def greatest : Int := 9223372036854775807

def InRange (n : Int) : Prop := least ≤ n ∧ n ≤ greatest

instance (n : Int) : Decidable (InRange n) :=
  inferInstanceAs (Decidable (_ ∧ _))

/-- The report of an overflow quotes the number, so it takes one that can be printed. -/
def check (n : Int) : Except Fault Int :=
  if InRange n then .ok n
  else if Numeral.printable n then .error (.overflow n)
  else .error .unprintable

def flag (b : Bool) : Int := if b then -1 else 0

/-- The bits of `m` that `n` does not have. -/
def clearBits (m n : Nat) : Nat := m ^^^ (m &&& n)

/-- Two's complement of unbounded width: `negSucc n` has the bits that `n` lacks. -/
def bitAnd : Int → Int → Int
  | .ofNat m, .ofNat n => .ofNat (m &&& n)
  | .ofNat m, .negSucc n => .ofNat (clearBits m n)
  | .negSucc m, .ofNat n => .ofNat (clearBits n m)
  | .negSucc m, .negSucc n => .negSucc (m ||| n)

def bitOr : Int → Int → Int
  | .ofNat m, .ofNat n => .ofNat (m ||| n)
  | .ofNat m, .negSucc n => .negSucc (clearBits n m)
  | .negSucc m, .ofNat n => .negSucc (clearBits m n)
  | .negSucc m, .negSucc n => .negSucc (m &&& n)

def bitNot (n : Int) : Int := -n - 1

inductive Binary where
  | add | sub | mul | div | mod
  | eq | lt | gt
  | and | or
  deriving DecidableEq, Repr

namespace Binary

def name : Binary → String
  | add => "+"
  | sub => "-"
  | mul => "*"
  | div => "/"
  | mod => "MOD"
  | eq => "="
  | lt => "<"
  | gt => ">"
  | and => "AND"
  | or => "OR"

/-- Division goes toward zero and the remainder has the sign of `a`. -/
def apply (op : Binary) (a b : Int) : Except Fault Int :=
  match op with
  | add => check (a + b)
  | sub => check (a - b)
  | mul => check (a * b)
  | div => if b = 0 then .error .divisionByZero else check (a.tdiv b)
  | mod => if b = 0 then .error .divisionByZero else .ok (a.tmod b)
  | eq => .ok (flag (a = b))
  | lt => .ok (flag (a < b))
  | gt => .ok (flag (a > b))
  | and => .ok (bitAnd a b)
  | or => .ok (bitOr a b)

end Binary

end Forthlet.Cell
