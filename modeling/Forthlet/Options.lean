import Forthlet.Numeral
import Forthlet.Text.Blank
import Forthlet.Text.Quoted

/-!
# Command line options

An argument is a switch, a word, or the separator `--` after which everything is
a word. A long switch may be cut short as long as one name remains possible and
may carry a value after an equals sign; short switches may be written together.
The program takes no words of its own, so those that are no value of a switch
are reported together with unknown switches once all else was understood. Other
mistakes, and the request for help, end the reading where they stand.
-/
namespace Forthlet.Options

structure Settings where
  test : Bool := false
  verbose : Bool := false
  maxDepth : Int := 300
  deriving DecidableEq, Repr

inductive Request where
  | help
  | misuse (what : String)
  | run (settings : Settings)
  deriving DecidableEq, Repr

inductive Switch where
  | help | test | verbose | maxDepth
  deriving DecidableEq, Repr

namespace Switch

def all : List Switch := [help, test, verbose, maxDepth]

def long : Switch → String
  | help => "--help"
  | test => "--test"
  | verbose => "--verbose"
  | maxDepth => "--max-depth"

def ofShort? : Char → Option Switch
  | 'h' => some help
  | 'v' => some verbose
  | _ => none

/-- All names of a switch, as an error report gives them. -/
def names : Switch → String
  | help => "-h/--help"
  | verbose => "-v/--verbose"
  | s => s.long

/-- The switch that is written exactly like this. -/
def ofText? (text : String) : Option Switch :=
  match text.toList with
  | ['-', c] => ofShort? c
  | _ => all.find? (·.long == text)

def candidates (start : List Char) : List Switch :=
  all.filter fun s => start.isPrefixOf s.long.toList

end Switch

inductive Argument where
  | word (text : String)
  | separator
  /-- What is attached follows an equals sign, or a short name at once. -/
  | switch (s : Switch) (short : Bool) (attached : Option (List Char))
  | unknown (text : String)
  deriving DecidableEq, Repr

/-- A minus sign before decimal digits, with at most one point and a digit
behind it; a line end may follow. -/
def isNegativeNumber (text : String) : Bool :=
  let isDigit (c : Char) : Bool := (Text.decimalValue? c).isSome
  let ends (cs : List Char) : Bool := cs = [] || cs = ['\n']
  match text.toList with
  | '-' :: cs => match cs.dropWhile isDigit with
    | '.' :: places => places.head?.any isDigit && ends (places.dropWhile isDigit)
    | rest => cs.head?.any isDigit && ends rest
  | _ => false

def classify (text : String) : Except String Argument :=
  let cs := text.toList
  let name := cs.takeWhile (· ≠ '=')
  let value := match cs.dropWhile (· ≠ '=') with
    | _ :: value => some value
    | [] => none
  let isShort := !(['-', '-'].isPrefixOf cs)
  match cs with
  | '-' :: c :: rest =>
    match Switch.ofText? text, Switch.ofText? (String.ofList name) with
    | some s, _ => .ok (.switch s isShort none)
    | none, some s => .ok (.switch s isShort value)
    | none, none =>
      let found := if isShort then (Switch.ofShort? c).toList else Switch.candidates name
      match found with
      | [s] => .ok (.switch s isShort (if isShort then some rest else value))
      | [] =>
        if isNegativeNumber text || text.contains ' ' then .ok (.word text)
        else .ok (.unknown text)
      | several => .error ("ambiguous option: " ++ text ++ " could match " ++
          ", ".intercalate (several.map Switch.long))
  | _ => .ok (.word text)

def classifyAll : List String → Except String (List Argument)
  | [] => .ok []
  | text :: rest =>
    if text = "--" then .ok (.separator :: rest.map .word)
    else do return (← classify text) :: (← classifyAll rest)

/-- Blanks that may surround an integer. -/
def isMargin (c : Char) : Bool :=
  Text.isBlank c && !('\x1c' ≤ c && c ≤ '\x1f')

/-- One or more digits; an underscore may stand between two of them. -/
def groupedDigits? : List Char → Option (List Nat)
  | [] => none
  | [c] => (Text.decimalValue? c).map ([·])
  | c :: '_' :: cs => return (← Text.decimalValue? c) :: (← groupedDigits? cs)
  | c :: cs => return (← Text.decimalValue? c) :: (← groupedDigits? cs)

def readInteger? (text : String) : Option Int := do
  let cs := (text.toList.dropWhile isMargin).reverse.dropWhile isMargin |>.reverse
  let (negative, body) := match cs with
    | '-' :: body => (true, body)
    | '+' :: body => (false, body)
    | body => (false, body)
  let digits ← groupedDigits? body
  if Numeral.decimalLimit < digits.length then none
  let n := Numeral.ofDigits 10 digits
  return if negative then -(n : Int) else n

def ignored (s : Switch) (text : List Char) : String :=
  "argument " ++ s.names ++ ": ignored explicit argument " ++ Text.quote (String.ofList text)

/-- The switches that are written together with `s`, of which each is named by a letter. -/
def together (s : Switch) : List Char → Except String (List Switch)
  | [] => .ok [s]
  | c :: text => match Switch.ofShort? c with
    | some s' => return s :: (← together s' text)
    | none => .error (ignored s (c :: text))

/-- The switches of an argument whose first one takes no value. An equals sign
between a short switch and the letters that follow makes no difference. -/
def flags (s : Switch) (short : Bool) : Option (List Char) → Except String (List Switch)
  | none => .ok [s]
  | some text => if short && !text.isEmpty then together s text else .error (ignored s text)

/-- A separator attached as the value counts as no value and changes nothing. -/
def Settings.setDepth (o : Settings) (text : String) : Except String Settings :=
  if text = "--" then .ok o
  else match readInteger? text with
    | some n => .ok { o with maxDepth := n }
    | none => .error ("argument --max-depth: invalid int value: " ++ Text.quote text)

def Settings.apply (o : Settings) : Switch → Settings
  | .test => { o with test := true }
  | .verbose => { o with verbose := true }
  | _ => o

/-- Follow the arguments from left to right; `extras` are those not understood, latest first. -/
def follow : List Argument → Settings → List String → Request
  | [], o, extras =>
    if extras.isEmpty then .run o
    else .misuse ("unrecognized arguments: " ++ " ".intercalate extras.reverse)
  | .word text :: rest, o, extras => follow rest o (text :: extras)
  | .separator :: rest, o, extras => follow rest o ("--" :: extras)
  | .unknown text :: rest, o, extras => follow rest o (text :: extras)
  | .switch .maxDepth _ none :: .word text :: rest, o, extras =>
    match o.setDepth text with
    | .ok o => follow rest o extras
    | .error what => .misuse what
  | .switch .maxDepth _ none :: _, _, _ =>
    .misuse "argument --max-depth: expected one argument"
  | .switch .maxDepth _ (some text) :: rest, o, extras =>
    match o.setDepth (String.ofList text) with
    | .ok o => follow rest o extras
    | .error what => .misuse what
  | .switch s short attached :: rest, o, extras =>
    match flags s short attached with
    | .error what => .misuse what
    | .ok switches =>
      if switches.contains .help then .help
      else follow rest (switches.foldl Settings.apply o) extras

def parse (arguments : List String) : Request :=
  match classifyAll arguments with
  | .ok args => follow args {} []
  | .error what => .misuse what

def usage : String :=
  "usage: rforth [-h] [--test] [-v] [--max-depth MAX_DEPTH]\n"

def help : String :=
  usage ++ "\nForth-like stack language\n\noptions:\n" ++
  "  -h, --help            show this help message and exit\n" ++
  "  --test                run the built-in self checks\n" ++
  "  -v, --verbose         log at DEBUG level\n" ++
  "  --max-depth MAX_DEPTH\n" ++
  "                        maximum nesting of word calls\n"

def misuse (what : String) : String :=
  usage ++ "rforth: error: " ++ what ++ "\n"

end Forthlet.Options
