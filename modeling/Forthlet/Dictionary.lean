import Forthlet.Text.Upper
import Forthlet.Word

/-!
# The dictionary

Entries are only ever added, and a new entry hides older ones of its name
without removing them. Names are kept and looked up in upper case. Entries are
told apart by their position, oldest first, so a position once handed out means
the same word for good.
-/
namespace Forthlet

structure Dictionary where
  entries : Array Word
  deriving DecidableEq, Repr

namespace Dictionary

def empty : Dictionary := ⟨#[]⟩

def builtins : Dictionary := ⟨(Builtin.all.map Word.ofBuiltin).toArray⟩

def size (d : Dictionary) : Nat := d.entries.size

def get? (d : Dictionary) (position : Nat) : Option Word := d.entries[position]?

def add (d : Dictionary) (w : Word) : Dictionary := ⟨d.entries.push w⟩

def define (d : Dictionary) (name : String) (body : Body) (immediate : Bool) : Dictionary :=
  d.add ⟨Text.upper name, body, immediate⟩

/-- The newest of the first `n` entries with exactly this name. -/
def findBelow (d : Dictionary) (name : String) : Nat → Option Nat
  | 0 => none
  | n + 1 => if (d.get? n).map Word.name = some name then some n else d.findBelow name n

def find? (d : Dictionary) (name : String) : Option Nat :=
  d.findBelow (Text.upper name) d.size

/-- The report of a missing word quotes its name as it was written. -/
def lookup (d : Dictionary) (name : String) : Except Fault Nat :=
  match d.find? name with
  | some position => .ok position
  | none => .error (.undefined name)

def contains (d : Dictionary) (name : String) : Bool :=
  (d.find? name).isSome

/-- The position of the newest entry. -/
def latest? (d : Dictionary) : Option Nat :=
  if d.size = 0 then none else some (d.size - 1)

/-- Every name once, the latest defined first. -/
def names (d : Dictionary) : List String :=
  (d.entries.toList.reverse.map Word.name).eraseDups

/-- The newest entry is the one to mark, and only if it was compiled. -/
def markLatest (d : Dictionary) : Except Fault (String × Dictionary) :=
  match d.entries.back? with
  | some w =>
    if w.isCompiled then .ok (w.name, ⟨d.entries.pop.push { w with immediate := true }⟩)
    else .error .nothingToMark
  | none => .error .nothingToMark

/-- Bind the calls of code that names its words. -/
def bindCode (d : Dictionary) (code : Array (Instr String)) : Except Fault Code :=
  code.mapM (Instr.mapCallee fun name => return .entry (← d.lookup name))

/-- The code of an entry with its calls named, unless the entry is built in. -/
def spellCode (d : Dictionary) (position : Nat) : Option (Array (Instr String)) :=
  match (d.get? position).map Word.body with
  | some (.compiled code) =>
    code.mapM <| Instr.mapCallee fun callee =>
      (d.get? (callee.position position)).map Word.name
  | _ => none

end Dictionary

end Forthlet
