import Forthlet.Text.Ranges

/-!
# Blank characters

Blank lines are skipped at the prompt and blank ends are cut when results are
compared. Both use every blank of Unicode; the separators between tokens are
fewer and are given with the tokens.
-/
namespace Forthlet.Text

def blanks : Ranges :=
  [(0x9, 0xD), (0x1C, 0x20), (0x85, 0x85), (0xA0, 0xA0), (0x1680, 0x1680),
   (0x2000, 0x200A), (0x2028, 0x2029), (0x202F, 0x202F), (0x205F, 0x205F), (0x3000, 0x3000)]

def isBlank (c : Char) : Bool :=
  blanks.contains c

def trimEnd (s : String) : String :=
  String.ofList (s.toList.reverse.dropWhile isBlank).reverse

/-- Nothing but blanks. -/
def isBlankText (s : String) : Bool :=
  s.toList.all isBlank

end Forthlet.Text
