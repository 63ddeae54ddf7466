import Forthlet.Engine.Basic

/-!
# What the built-in words do

A word that computes takes its operands before it looks at them. The compiling
words act on the definition in progress and refuse to work without one, except
that `I` outside a definition reads the index of the innermost loop at once.
-/
namespace Forthlet.Primitive

open Run

def binary (op : Cell.Binary) : Run Unit := do
  let b ← pop
  let a ← pop
  push (← lift (op.apply a b))

/-- The index of the innermost loop. -/
def loopIndex : Run Unit := do
  push (← onLoops Frame.peek).index

/-- The definition in progress, for a compiling word of this name. -/
def draftFor (b : Builtin) : Run Draft := do
  match (← get).draft with
  | some d => pure d
  | none => fail (.compileOnly b.name)

def setDraft (d : Draft) : Run Unit :=
  modify fun e => { e with draft := some d }

def editDraft (b : Builtin) (edit : Draft → Except Fault Draft) : Run Unit := do
  setDraft (← lift (edit (← draftFor b)))

def finishDraft : Run Unit := do
  match (← get).draft with
  | none => fail .straySemicolon
  | some d =>
    let w ← lift d.finish
    modify fun e => { e with dict := e.dict.add w, draft := none }
    note (.defined d.name d.code.size)

def markLatest : Run Unit := do
  let (name, dict) ← lift (← get).dict.markLatest
  modify fun e => { e with dict }
  note (.marked name)

def printTop : Run Unit := do
  emit ((← decimal (← pop)) ++ " ")

/-- The number of cells, then the cells from the bottom up. -/
def printStack : Run Unit := do
  let s := (← get).stack
  let texts ← s.reverse.mapM decimal
  emit ("<" ++ toString s.length ++ "> " ++ String.join (texts.map (· ++ " ")))

def exec : Builtin → Run Unit
  | .semicolon => finishDraft
  | .markImmediate => markLatest
  | .recurse => editDraft .recurse fun d => .ok (d.append (.call .itself))
  | .literal => do
      let d ← draftFor .literal
      setDraft (d.append (.lit (← pop)))
  | .ifWord => editDraft .ifWord fun d => .ok d.openIf
  | .elseWord => editDraft .elseWord Draft.turnElse
  | .thenWord => editDraft .thenWord Draft.closeThen
  | .doWord => editDraft .doWord fun d => .ok d.openDo
  | .loopWord => editDraft .loopWord Draft.closeLoop
  | .index => do
      match (← get).draft with
      | some d => setDraft (d.append .index)
      | none => loopIndex
  | .binary op => binary op
  | .bitNot => do push (Cell.bitNot (← pop))
  | .shuffle w => onStack w.act
  | .print => printTop
  | .newline => emit "\n"
  | .printStack => printStack
  | .listWords => do emit ("  ".intercalate (← get).dict.names)

end Forthlet.Primitive
