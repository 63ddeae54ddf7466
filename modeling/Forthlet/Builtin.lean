import Forthlet.Cell
import Forthlet.Shuffle

/-!
# Built-in words

The vocabulary of a fresh engine. The compiling words run while a definition is
open; all others are compiled there as calls.
-/
namespace Forthlet

inductive Builtin where
  | semicolon | markImmediate | recurse | literal
  | ifWord | elseWord | thenWord | doWord | loopWord | index
  | binary (op : Cell.Binary)
  | bitNot
  | shuffle (w : Shuffle)
  | print | newline | printStack | listWords
  deriving DecidableEq, Repr

namespace Builtin

def name : Builtin → String
  | semicolon => ";"
  | markImmediate => "IMMEDIATE"
  | recurse => "RECURSE"
  | literal => "LITERAL"
  | ifWord => "IF"
  | elseWord => "ELSE"
  | thenWord => "THEN"
  | doWord => "DO"
  | loopWord => "LOOP"
  | index => "I"
  | binary op => op.name
  | bitNot => "NOT"
  | shuffle w => w.name
  | print => "."
  | newline => "CR"
  | printStack => ".S"
  | listWords => "WORDS"

def isCompiling : Builtin → Bool
  | semicolon | recurse | literal | ifWord | elseWord | thenWord | doWord | loopWord | index => true
  | _ => false

/-- In the order in which a fresh dictionary holds them. -/
def all : List Builtin :=
  [semicolon, markImmediate, recurse, literal, ifWord, elseWord, thenWord, doWord, loopWord, index,
   binary .add, binary .sub, binary .mul, binary .div, binary .mod,
   binary .eq, binary .lt, binary .gt, binary .and, binary .or, bitNot,
   shuffle .dup, shuffle .drop, shuffle .swap, shuffle .over1, shuffle .rot, shuffle .rotBack,
   shuffle .dupNonzero, shuffle .dup2, shuffle .drop2, shuffle .swap2, shuffle .over2,
   print, newline, printStack, listWords]

end Builtin

end Forthlet
