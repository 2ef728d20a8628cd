import Toolpath.Number.Reading
import Toolpath.Program.Token

/-!
# Blocks

A block is one line of a program: its words in the order written, and its first comment.
-/

namespace Toolpath.Program

structure Word where
  letter : Char
  value : Float

structure Block where
  words : List Word
  comment : Option (List Char)

/-- What is wrong with a word. The text is the word as written. -/
inductive WordError where
  | invalidNumber (text : List Char)
  | missingValue (letter : Char)
  deriving DecidableEq, Repr

def WordError.message : WordError → String
  | .invalidNumber text => "invalid number in word '" ++ String.ofList text ++ "'"
  | .missingValue letter => "word '" ++ letter.toString ++ "' has no value"

def Word.read (letter : Char) (value : List Char) : Except WordError Word :=
  if value = [] then .error (.missingValue letter.toUpper)
  else match Number.decimal? value with
    | some d => .ok { letter := letter.toUpper, value := d.value }
    | none => .error (.invalidNumber (letter :: value))

/-- The text between the delimiters. The closing parenthesis may be missing. -/
def commentBody : List Char → List Char
  | ';' :: cs => cs
  | '(' :: cs => if cs.getLast? = some ')' then cs.dropLast else cs
  | cs => cs

def readWords : List Token → Except WordError (List Word)
  | [] => .ok []
  | .comment _ :: ts => readWords ts
  | .word letter value :: ts => do
    let w ← Word.read letter value
    let ws ← readWords ts
    return w :: ws

def firstComment : List Token → Option (List Char)
  | [] => none
  | .comment text :: _ => some (commentBody text)
  | .word _ _ :: ts => firstComment ts

def Block.ofTokens (ts : List Token) : Except WordError Block := do
  let words ← readWords ts
  return { words, comment := firstComment ts }

def Block.ofLine (line : List Char) : Except WordError Block := Block.ofTokens (tokens line)

namespace Block

def isEmpty (b : Block) : Bool := b.words.isEmpty

/-- The values written with a letter of either case, in order. -/
def values (b : Block) (letter : Char) : List Float :=
  (b.words.filter (·.letter == letter.toUpper)).map (·.value)

def value? (b : Block) (letter : Char) : Option Float := (b.values letter).head?

def valueD (b : Block) (letter : Char) (default : Float) : Float :=
  (b.value? letter).getD default

/-- Two code numbers are the same when they differ by less than a millionth. -/
def sameCode (value code : Float) : Bool := (value - code).abs < 1e-6

def hasCode (b : Block) (letter : Char) (code : Float) : Bool :=
  (b.values letter).any (sameCode · code)

end Block

end Toolpath.Program
