import Forthlet.Fault

/-!
# Tokens

A text is cut into tokens at separators. A backslash hides the rest of its
line, a parenthesis everything up to the next closing one; such comments do not
nest. Both marks also end a token that stands right before them.

`Token.next` finds one token and the text after it. `Token.readFirst` repeats it
as often as it is asked to, so it never sees a fault behind the last token it
takes, and `Token.read` to the end of the text; `read_eq` unfolds it by a token.
-/
namespace Forthlet.Token

def isSeparator (c : Char) : Bool :=
  c = ' ' || c = '\t' || c = '\r' || c = '\n' || c = '\x0c' || c = '\x0b'

def isWordChar (c : Char) : Bool :=
  !(isSeparator c || c = '(' || c = '\\')

theorem length_dropWhile_le (p : Char → Bool) (cs : List Char) :
    (cs.dropWhile p).length ≤ cs.length :=
  (List.dropWhile_suffix p).length_le

inductive Next where
  | finished
  /-- A parenthesis is open and the text ends. -/
  | unclosed
  | word (text rest : List Char)
  deriving DecidableEq, Repr

def next (cs : List Char) : Next :=
  match cs with
  | [] => .finished
  | c :: rest =>
    if isSeparator c then next rest
    else if c = '(' then
      if rest.contains ')' then next (rest.dropWhile (· ≠ ')')).tail else .unclosed
    else if c = '\\' then next (rest.dropWhile (· ≠ '\n'))
    else .word (c :: rest.takeWhile isWordChar) (rest.dropWhile isWordChar)
termination_by cs.length
decreasing_by
  · simp
  · have := length_dropWhile_le (· ≠ ')') rest
    simp at this ⊢
    omega
  · have := length_dropWhile_le (· ≠ '\n') rest
    simp at this ⊢
    omega

/-- A token takes at least one character, so what follows it is shorter. -/
theorem next_rest_lt {cs text rest : List Char} (h : next cs = .word text rest) :
    rest.length < cs.length := by
  fun_induction next cs with
  | case1 => cases h
  | case2 c cs _ ih => exact Nat.lt_succ_of_lt (ih h)
  | case3 cs _ _ ih =>
      have := length_dropWhile_le (· ≠ ')') cs
      have := ih h
      simp at *
      omega
  | case4 => cases h
  | case5 cs _ _ ih =>
      have := length_dropWhile_le (· ≠ '\n') cs
      have := ih h
      simp at *
      omega
  | case6 c cs _ _ _ =>
      have := length_dropWhile_le isWordChar cs
      cases h
      simp
      omega

/-- What a text yields: its tokens in order, and whether it ended in an open comment. -/
structure Reading where
  tokens : List String
  unclosed : Bool
  deriving DecidableEq, Repr

/-- At most `k` tokens; nothing behind the last of them is looked at. -/
def readFirst : Nat → List Char → Reading
  | 0, _ => ⟨[], false⟩
  | k + 1, cs => match next cs with
    | .finished => ⟨[], false⟩
    | .unclosed => ⟨[], true⟩
    | .word text rest =>
      let later := readFirst k rest
      ⟨String.ofList text :: later.tokens, later.unclosed⟩

/-- A text has at most as many tokens as characters. -/
def read (cs : List Char) : Reading := readFirst cs.length cs

theorem readFirst_eq_of_length_le {k m : Nat} {cs : List Char} (hk : cs.length ≤ k)
    (hm : cs.length ≤ m) : readFirst k cs = readFirst m cs := by
  induction k generalizing m cs with
  | zero =>
      cases m with
      | zero => rfl
      | succ m => simp [List.length_eq_zero_iff.mp (Nat.le_zero.mp hk), readFirst, next]
  | succ k ih =>
      cases m with
      | zero => simp [List.length_eq_zero_iff.mp (Nat.le_zero.mp hm), readFirst, next]
      | succ m =>
          simp only [readFirst]
          split
          · rfl
          · rfl
          · next h =>
            have := next_rest_lt h
            rw [ih (by omega) (by omega : _ ≤ m)]

theorem readFirst_eq_read {k : Nat} {cs : List Char} (h : cs.length ≤ k) :
    readFirst k cs = read cs :=
  readFirst_eq_of_length_le h (Nat.le_refl _)

theorem read_eq (cs : List Char) :
    read cs = match next cs with
      | .finished => ⟨[], false⟩
      | .unclosed => ⟨[], true⟩
      | .word text rest => ⟨String.ofList text :: (read rest).tokens, (read rest).unclosed⟩ := by
  rw [← readFirst_eq_read (Nat.le_succ cs.length), readFirst]
  split
  · rfl
  · rfl
  · next h => rw [readFirst_eq_read (Nat.le_of_lt (next_rest_lt h))]

/-- All tokens of a text, provided that it leaves no comment open. -/
def ofText (text : String) : Except Fault (List String) :=
  let r := read text.toList
  if r.unclosed then .error .openComment else .ok r.tokens

end Forthlet.Token
