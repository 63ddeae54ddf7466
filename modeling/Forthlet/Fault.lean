/-!
# Faults

Everything that can go wrong while a text is read or a word runs, by cause.
`Fault.kind` sorts the causes, `Fault.message` words them.
-/
namespace Forthlet

/-- The words that leave a jump for a later word to complete. -/
inductive Opener where
  | ifWord | elseWord | doWord
  deriving DecidableEq, Repr

def Opener.name : Opener → String
  | .ifWord => "IF"
  | .elseWord => "ELSE"
  | .doWord => "DO"

inductive Fault where
  | undefined (name : String)
  | stackUnderflow
  | depthExceeded (word : String)
  /-- The machine that carries the engine has no room for a deeper call. -/
  | nestingExceeded
  | divisionByZero
  | overflow (n : Int)
  | elseWithoutIf
  | thenWithoutIf
  | loopWithoutDo
  | unfinished (opener : Opener) (word : String)
  | compileOnly (word : String)
  | indexOutsideLoop
  | nestedColon (word : String)
  | colonNeedsName
  | colonNumber (token : String)
  | straySemicolon
  | nothingToMark
  | openComment
  | badInstruction (op : String)
  /-- A number has more decimal digits than can be written. -/
  | unprintable
  deriving DecidableEq, Repr

namespace Fault

inductive Kind where
  | wordNotFound
  | stackUnderflow
  | stackOverflow
  | divisionByZero
  | integerOverflow
  | unbalancedControlFlow
  | compileOnlyWord
  | loopIndexOutsideLoop
  | malformedDefinition
  | malformedComment
  | badInstruction
  | unprintable
  deriving DecidableEq, Repr

def kind : Fault → Kind
  | undefined _ => .wordNotFound
  | stackUnderflow => .stackUnderflow
  | depthExceeded _ | nestingExceeded => .stackOverflow
  | divisionByZero => .divisionByZero
  | overflow _ => .integerOverflow
  | elseWithoutIf | thenWithoutIf | loopWithoutDo | unfinished _ _ => .unbalancedControlFlow
  | compileOnly _ => .compileOnlyWord
  | indexOutsideLoop => .loopIndexOutsideLoop
  | nestedColon _ | colonNeedsName | colonNumber _ | straySemicolon | nothingToMark =>
      .malformedDefinition
  | openComment => .malformedComment
  | badInstruction _ => .badInstruction
  | unprintable => .unprintable

def message : Fault → String
  | undefined name => "Undefined: " ++ name
  | stackUnderflow => "Stack underflow"
  | depthExceeded word => "Return stack overflow in " ++ word
  | nestingExceeded => "Return stack overflow: host recursion limit reached"
  | divisionByZero => "Division by zero"
  | overflow n => "Integer overflow: " ++ toString n ++ " does not fit in 64 bits"
  | elseWithoutIf => "ELSE without IF"
  | thenWithoutIf => "THEN without IF/ELSE"
  | loopWithoutDo => "LOOP without DO"
  | unfinished opener word => opener.name ++ " without matching end in " ++ word
  | compileOnly word => word ++ " is only valid inside a definition"
  | indexOutsideLoop => "I outside loop"
  | nestedColon word => "Nested : inside " ++ word
  | colonNeedsName => ": needs a name"
  | colonNumber token => ": cannot define a number: " ++ token
  | straySemicolon => "; outside a definition"
  | nothingToMark => "IMMEDIATE: no definition to mark"
  | openComment => "Unterminated ( comment"
  | badInstruction op => "Bad instruction: " ++ op
  | unprintable => "number too long to print"

/-- After any other fault the engine drops what it was doing and is ready for
the next line. A number too long to print stops it where it stands. -/
def recovers (f : Fault) : Bool :=
  f.kind != .unprintable

end Fault

end Forthlet
