import Forthlet.Engine.Feed
import Forthlet.Text.Blank

/-!
# Self checks

A check interprets a text on a fresh engine and compares what was printed with
what was expected, blank ends and the closing ` ok` aside. The summary counts the
checks that passed and reports the others in order.
-/
namespace Forthlet

structure Check where
  source : String
  expected : String
  deriving DecidableEq, Repr

/-- What came of a check; the journal is that of its engine. -/
structure Verdict where
  check : Check
  got : String
  journal : Array Record
  deriving DecidableEq, Repr

namespace Check

/-- Cut the ` ok` that ends a text, also when an error message ends in it. -/
def dropStatus (text : String) : String :=
  let cs := (Text.trimEnd text).toList
  if [' ', 'o', 'k'].isSuffixOf cs then Text.trimEnd (String.ofList (cs.take (cs.length - 3)))
  else if cs = ['o', 'k'] then ""
  else String.ofList cs

def run (fuel : Nat) (c : Check) : Verdict :=
  match (Run.interpret {} fuel c.source).run Engine.fresh with
  | .ok text e => ⟨c, dropStatus text, e.journal⟩
  | .error _ e => ⟨c, dropStatus (String.join e.console.out.toList), e.journal⟩

end Check

namespace Verdict

def passed (v : Verdict) : Bool :=
  v.got = Text.trimEnd v.check.expected

/-- A failed check is reported with the start of its source. -/
def report (v : Verdict) : String :=
  if v.passed then ""
  else "  FAIL: " ++ String.ofList (v.check.source.toList.take 60) ++ "\n" ++
    "    exp: " ++ Text.quote (Text.trimEnd v.check.expected) ++ "\n" ++
    "    got: " ++ Text.quote v.got ++ "\n"

end Verdict

namespace SelfCheck

def run (fuel : Nat) (checks : List Check) : List Verdict :=
  checks.map (Check.run fuel)

def passed (verdicts : List Verdict) : Nat :=
  verdicts.countP Verdict.passed

def summary (verdicts : List Verdict) : String :=
  "Tests: " ++ toString (passed verdicts) ++ "/" ++ toString verdicts.length ++ " passed\n" ++
    String.join (verdicts.map Verdict.report)

/-- Zero if every check passed. -/
def exitCode (verdicts : List Verdict) : Nat :=
  if passed verdicts = verdicts.length then 0 else 1

/-- The checks that the program brings along. -/
def standard : List Check :=
  [ ⟨"1 2 + .", "3 "⟩,
    ⟨"10 3 - .", "7 "⟩,
    ⟨"6 7 * .", "42 "⟩,
    ⟨"20 4 / .", "5 "⟩,
    ⟨"-7 2 / .", "-3 "⟩,
    ⟨"17 5 MOD .", "2 "⟩,
    ⟨"-7 2 MOD .", "-1 "⟩,
    ⟨"10 5 - 3 / 2 mod .", "1 "⟩,
    ⟨"3 DUP . .", "3 3 "⟩,
    ⟨"3 4 SWAP . .", "3 4 "⟩,
    ⟨"1 2 OVER . . .", "1 2 1 "⟩,
    ⟨"1 2 3 ROT . . .", "1 3 2 "⟩,
    ⟨"1 2 3 -ROT . . .", "2 1 3 "⟩,
    ⟨"0 ?DUP .S", "<1> 0 "⟩,
    ⟨"1 2 3 4 2SWAP .S", "<4> 3 4 1 2 "⟩,
    ⟨"1 2 3 4 2OVER .S", "<6> 1 2 3 4 1 2 "⟩,
    ⟨"1 2 2DUP .S", "<4> 1 2 1 2 "⟩,
    ⟨"1 2 3 2DROP .S", "<1> 1 "⟩,
    ⟨"3 3 = .", "-1 "⟩,
    ⟨"3 4 = .", "0 "⟩,
    ⟨"3 4 < .", "-1 "⟩,
    ⟨"4 3 > .", "-1 "⟩,
    ⟨"-1 0 AND .", "0 "⟩,
    ⟨"0 -1 OR .", "-1 "⟩,
    ⟨"0 NOT .", "-1 "⟩,
    ⟨"1 ( two ) 3 + .", "4 "⟩,
    ⟨"5 . \\ ignored 6 .", "5 "⟩,
    ⟨": SQUARE DUP * ; 5 SQUARE .", "25 "⟩,
    ⟨": double 2 * ; 6 DOUBLE .", "12 "⟩,
    ⟨": SIGN 0 > IF 1 ELSE -1 THEN ; 5 SIGN .", "1 "⟩,
    ⟨": SIGN 0 > IF 1 ELSE -1 THEN ; -3 SIGN .", "-1 "⟩,
    ⟨": MYABS DUP 0 < IF 0 SWAP - THEN ; -7 MYABS .", "7 "⟩,
    ⟨": SUM 0 5 0 DO I + LOOP . ; SUM", "10 "⟩,
    ⟨": SQUARES 4 1 DO I DUP * . LOOP ; SQUARES", "1 4 9 "⟩,
    ⟨": NONE 0 5 DO I . LOOP ; NONE", ""⟩,
    ⟨": GRID 2 0 DO 3 0 DO I . LOOP LOOP ; GRID", "0 1 2 0 1 2 "⟩,
    ⟨": FACT DUP 1 > IF DUP 1 - FACT * THEN ; 5 FACT .", "120 "⟩,
    ⟨": FACT DUP 1 > IF DUP 1 - RECURSE * THEN ; 10 FACT .", "3628800 "⟩,
    ⟨": FIB DUP 2 < IF ELSE DUP 1 - FIB SWAP 2 - FIB + THEN ; 10 FIB .", "55 "⟩,
    ⟨": GCD DUP 0 = IF DROP ELSE SWAP OVER MOD GCD THEN ; 48 18 GCD .", "6 "⟩,
    ⟨": FIVE 5 ; IMMEDIATE : TEN FIVE LITERAL 2 * ; TEN .", "10 "⟩ ]

end SelfCheck

end Forthlet
