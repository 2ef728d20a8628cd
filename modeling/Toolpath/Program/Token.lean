/-!
# Tokens of a program line

A line holds address words and comments. A word is a letter and the run of digits, points and
signs that follows it, with blanks allowed in between. All other characters separate.
-/

namespace Toolpath.Program

/-- A comment keeps its delimiters. -/
inductive Token where
  | word (letter : Char) (value : List Char)
  | comment (text : List Char)
  deriving DecidableEq, Repr

def isBlank (c : Char) : Bool := c == ' ' || c == '\t'

def isValueChar (c : Char) : Bool := c.isDigit || c == '.' || c == '-' || c == '+'

theorem length_dropWhile_le (p : Char → Bool) (cs : List Char) :
    (cs.dropWhile p).length ≤ cs.length :=
  (List.dropWhile_sublist p).length_le

/-- A semicolon starts a comment to the end of the line, a parenthesis one up to the next closing
parenthesis or the end of the line. -/
def tokens : List Char → List Token
  | [] => []
  | c :: cs =>
    if c = ';' then [.comment (c :: cs)]
    else if c = '(' then
      let body := cs.takeWhile (· != ')')
      match _h : cs.dropWhile (· != ')') with
      | [] => [.comment (c :: body)]
      | close :: rest => .comment (c :: body ++ [close]) :: tokens rest
    else if c.isAlpha then
      let value := cs.dropWhile isBlank
      .word c (value.takeWhile isValueChar) :: tokens (value.dropWhile isValueChar)
    else tokens cs
termination_by cs => cs.length
decreasing_by
  · have := length_dropWhile_le (· != ')') cs
    rw [_h] at this
    simp only [List.length_cons] at *
    omega
  · have := length_dropWhile_le isValueChar (cs.dropWhile isBlank)
    have := length_dropWhile_le isBlank cs
    simp only [List.length_cons]
    omega
  · simp

def Token.text : Token → List Char
  | .word letter value => letter :: value
  | .comment text => text

end Toolpath.Program
