import Forthlet.Text.Upper
import Forthlet.Word

/-!
# Definitions in progress

A draft collects the code of the word being defined. `IF` and `DO` leave a jump
whose target is not known yet and mark the place; `THEN`, `ELSE` and `LOOP`
complete the jump at the innermost open place, provided that it is of the kind
they close. A draft with a place still open is no word.
-/
namespace Forthlet

/-- A place where a jump waits for its target. -/
structure Site where
  opener : Opener
  address : Nat
  deriving DecidableEq, Repr

/-- The innermost open place comes first. -/
structure Draft where
  name : String
  code : Code
  sites : List Site
  deriving DecidableEq, Repr

namespace Draft

def start (name : String) : Draft := ⟨Text.upper name, #[], []⟩

def append (d : Draft) (i : Instr Callee) : Draft :=
  { d with code := d.code.push i }

/-- Append an incomplete jump and mark its place. -/
def openSite (d : Draft) (opener : Opener) (jump : Instr Callee) : Draft :=
  { d with code := d.code.push jump, sites := ⟨opener, d.code.size⟩ :: d.sites }

def openIf (d : Draft) : Draft := d.openSite .ifWord (.branchIfZero none)

def openDo (d : Draft) : Draft := d.openSite .doWord (.enterLoop none)

/-- The jump over the second branch stands before the place where a zero flag goes. -/
def turnElse (d : Draft) : Except Fault Draft :=
  match d.sites with
  | ⟨.ifWord, a⟩ :: sites =>
    let code := d.code.push (.branch none)
    .ok { d with
      code := code.setIfInBounds a (.branchIfZero (some code.size))
      sites := ⟨.elseWord, d.code.size⟩ :: sites }
  | _ => .error .elseWithoutIf

def closeThen (d : Draft) : Except Fault Draft :=
  match d.sites with
  | ⟨.ifWord, a⟩ :: sites =>
    .ok { d with code := d.code.setIfInBounds a (.branchIfZero (some d.code.size)), sites }
  | ⟨.elseWord, a⟩ :: sites =>
    .ok { d with code := d.code.setIfInBounds a (.branch (some d.code.size)), sites }
  | _ => .error .thenWithoutIf

/-- A round goes back to the instruction after the start of the loop, and a
loop without rounds goes on behind the end. -/
def closeLoop (d : Draft) : Except Fault Draft :=
  match d.sites with
  | ⟨.doWord, a⟩ :: sites =>
    let code := d.code.push (.nextLoop (a + 1))
    .ok { d with code := code.setIfInBounds a (.enterLoop (some code.size)), sites }
  | _ => .error .loopWithoutDo

def finish (d : Draft) : Except Fault Word :=
  match d.sites with
  | site :: _ => .error (.unfinished site.opener d.name)
  | [] => .ok ⟨d.name, .compiled d.code, false⟩

end Draft

end Forthlet
