import Toolpath.Program.Block

/-!
# Listings

A listing is a whole program, one block a line. Lines without words count, so that the number of
a block is the number of its line.
-/

namespace Toolpath.Program

def endLine (line : List Char) : List Char :=
  if line.getLast? = some '\r' then line.dropLast else line

/-- Splits at line feeds. `done` holds the lines before the current one and `line` the characters
of the current one, both last one first. Text after the last line feed is a line only if there is
any. -/
def linesFrom (done : List (List Char)) (line : List Char) : List Char → List (List Char)
  | [] => (if line = [] then done else line.reverse :: done).reverse
  | '\n' :: cs => linesFrom (endLine line.reverse :: done) [] cs
  | c :: cs => linesFrom done (c :: line) cs

def lines (text : List Char) : List (List Char) := linesFrom [] [] text

structure LineError where
  line : Nat
  error : WordError
  deriving DecidableEq, Repr

def LineError.message (e : LineError) : String :=
  "line " ++ toString e.line ++ ": " ++ e.error.message

def blocksFrom (number : Nat) (ls : List (List Char)) : Except LineError (List Block) :=
  (ls.zipIdx number).mapM fun (l, n) => (Block.ofLine l).mapError (LineError.mk n)

def blocks (text : List Char) : Except LineError (List Block) := blocksFrom 1 (lines text)

end Toolpath.Program
