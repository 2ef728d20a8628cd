import Toolpath.Settings.Toml.Scalar

/-!
# Quoted TOML text

Basic text in double quotes with escapes, literal text in single quotes without. Three quotes
enclose text of several lines.
-/

namespace Toolpath.Settings.Toml

def isTextChar (c : Char) : Bool := c == '\t' || (' ' ≤ c && c.toNat ≠ 127)

def lineEnd? : List Char → Option (List Char)
  | '\n' :: cs => some cs
  | '\r' :: '\n' :: cs => some cs
  | _ => none

def codePoint (n : Nat) (cs : List Char) : Option (Char × List Char) :=
  let ds := cs.take n
  let v := inBase 16 ds
  if ds.length = n ∧ ds.all isHexDigit ∧ v.isValidChar then some (Char.ofNat v, cs.drop n) else none

def escape : List Char → Option (Char × List Char)
  | 'b' :: cs => some ('\x08', cs)
  | 't' :: cs => some ('\t', cs)
  | 'n' :: cs => some ('\n', cs)
  | 'f' :: cs => some ('\x0c', cs)
  | 'r' :: cs => some ('\r', cs)
  | 'e' :: cs => some ('\x1b', cs)
  | '"' :: cs => some ('"', cs)
  | '\\' :: cs => some ('\\', cs)
  | 'x' :: cs => codePoint 2 cs
  | 'u' :: cs => codePoint 4 cs
  | 'U' :: cs => codePoint 8 cs
  | _ => none

/-- Text on one line up to the closing quote. `done` holds its characters, last one first. The fuel
is the number of characters left. -/
def singleLine (quote : Char) : Nat → List Char → List Char → Option (String × List Char)
  | 0, _, _ => none
  | _ + 1, _, [] => none
  | n + 1, done, c :: cs =>
    if c = quote then some (String.ofList done.reverse, cs)
    else if c = '\\' ∧ quote = '"' then do
      let (e, rest) ← escape cs
      singleLine quote n (e :: done) rest
    else if isTextChar c then singleLine quote n (c :: done) cs
    else none

def skipWhite : List Char → List Char
  | ' ' :: cs | '\t' :: cs | '\n' :: cs | '\r' :: '\n' :: cs => skipWhite cs
  | cs => cs

/-- The rest after a backslash at the end of a line: blanks, the line end, and all blanks and line
ends after it. -/
def continuation? (cs : List Char) : Option (List Char) :=
  (lineEnd? (cs.dropWhile fun c => c == ' ' || c == '\t')).map skipWhite

/-- Text of several lines up to the last of three to five closing quotes. Line ends are kept as they
are written. -/
def multiLine (quote : Char) : Nat → List Char → List Char → Option (String × List Char)
  | 0, _, _ => none
  | _ + 1, _, [] => none
  | n + 1, done, c :: cs =>
    let quotes := ((c :: cs).takeWhile (· == quote)).length
    if 3 ≤ quotes then
      if quotes ≤ 5 then
        some (String.ofList (done.reverse ++ List.replicate (quotes - 3) quote),
          (c :: cs).drop quotes)
      else none
    else if c = '\\' ∧ quote = '"' then
      match continuation? cs with
      | some rest => multiLine quote n done rest
      | none => do
        let (e, rest) ← escape cs
        multiLine quote n (e :: done) rest
    else if c = '\n' ∨ isTextChar c ∨ (c = '\r' ∧ cs.head? = some '\n') then
      multiLine quote n (c :: done) cs
    else none

/-- Text after its opening quote. A line end right after three quotes does not count. -/
def quotedLine (quote : Char) (cs : List Char) : Option (String × List Char) :=
  singleLine quote (cs.length + 1) [] cs

def quoted (quote : Char) (cs : List Char) : Option (String × List Char) :=
  match cs with
  | a :: b :: rest =>
    if a = quote ∧ b = quote then
      let rest := (lineEnd? rest).getD rest
      multiLine quote (rest.length + 1) [] rest
    else quotedLine quote cs
  | _ => quotedLine quote cs

end Toolpath.Settings.Toml
