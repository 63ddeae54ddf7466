import Forthlet.Fault
import Forthlet.Text.Quoted

/-!
# The journal

Each definition, each mark and each abandoned line leaves a record. They are
kept as data and worded only for the reader.
-/
namespace Forthlet

inductive Record where
  | defined (name : String) (size : Nat)
  | marked (name : String)
  | aborted (line : String) (cause : Fault)
  | discarded (name : String)
  deriving DecidableEq, Repr

namespace Record

/-- A call that is too deep for the machine is no fault of a word, and none is named. -/
def causeText : Fault → String
  | .nestingExceeded => "host recursion limit"
  | f => f.message

def message : Record → String
  | defined name size => "defined " ++ name ++ " (" ++ toString size ++ " instructions)"
  | marked name => name ++ " marked immediate"
  | aborted line cause => "aborted line " ++ Text.quote line ++ ": " ++ causeText cause
  | discarded name => "discarding partial definition of " ++ name

end Record

end Forthlet
