import Toolpath.Settings.Toml.Quoted

/-!
# TOML documents

A document is a sequence of lines, each with a key and its value, with the header of a table, or
with neither. Fuel is counted in characters of the text.
-/

namespace Toolpath.Settings.Toml

def isBlank (c : Char) : Bool := c == ' ' || c == '\t'

def skipBlanks (cs : List Char) : List Char := cs.dropWhile isBlank

def skipComment (cs : List Char) : List Char :=
  match cs with
  | '#' :: rest => rest.dropWhile isTextChar
  | cs => cs

def skipLines : Nat → List Char → List Char
  | 0, cs => cs
  | n + 1, cs =>
    let rest := skipComment (skipBlanks cs)
    match lineEnd? rest with
    | some rest => skipLines n rest
    | none => rest

def skipSpace (cs : List Char) : List Char := skipLines cs.length cs

def isKeyChar (c : Char) : Bool := c.isAlphanum || c == '_' || c == '-'

def key : List Char → Option (String × List Char)
  | '"' :: cs => quotedLine '"' cs
  | '\'' :: cs => quotedLine '\'' cs
  | cs =>
    let name := cs.takeWhile isKeyChar
    if name = [] then none else some (String.ofList name, cs.dropWhile isKeyChar)

/-- How many keys a dotted key may have, and how deep brackets and braces may be nested. -/
def depthLimit : Nat := 80

def keys : Nat → List Char → Option (List String × List Char)
  | 0, _ => none
  | n + 1, cs => do
    let (k, rest) ← key (skipBlanks cs)
    match skipBlanks rest with
    | '.' :: rest =>
      let (ks, rest) ← keys n rest
      return (k :: ks, rest)
    | rest => return ([k], rest)

def isDelimiter (c : Char) : Bool := [' ', '\t', '\n', '\r', ',', ']', '\x7d', '#'].contains c

/-- A scalar. One blank may stand between a date and a time. -/
def scalar (cs : List Char) : Option (Item × List Char) := do
  let word := cs.takeWhile (!isDelimiter ·)
  let rest := cs.dropWhile (!isDelimiter ·)
  match date? word, rest with
  | some [], ' ' :: c :: more =>
    if c.isDigit then
      let time := (c :: more).takeWhile (!isDelimiter ·)
      if isMoment (word ++ ' ' :: time) then
        return (.moment, (c :: more).dropWhile (!isDelimiter ·))
      else none
    else return (.moment, rest)
  | _, _ =>
    let item ← scalar? word
    return (item, rest)

mutual

/-- A value with at most `levels` brackets and braces open inside it at once. -/
def value (levels : Nat) : Nat → List Char → Option (Item × List Char)
  | 0, _ => none
  | n + 1, cs =>
    match cs, levels with
    | '"' :: cs, _ => (quoted '"' cs).map fun (s, rest) => (.text s, rest)
    | '\'' :: cs, _ => (quoted '\'' cs).map fun (s, rest) => (.text s, rest)
    | '[' :: cs, levels + 1 => elements levels n [] (skipSpace cs)
    | '\x7b' :: cs, levels + 1 => members levels n [] (skipSpace cs)
    | cs, _ => scalar cs

/-- The rest of an array. `done` holds the items before, last one first. -/
def elements (levels : Nat) : Nat → List Item → List Char → Option (Item × List Char)
  | 0, _, _ => none
  | n + 1, done, cs =>
    match cs with
    | ']' :: rest => some (.list done.reverse, rest)
    | cs => do
      let (item, rest) ← value levels n cs
      match skipSpace rest with
      | ',' :: rest => elements levels n (item :: done) (skipSpace rest)
      | ']' :: rest => some (.list (item :: done).reverse, rest)
      | _ => none

/-- The rest of a table in braces. Unlike the lines of a document it may be broken anywhere but
within a key. -/
def members (levels : Nat) : Nat → Entries → List Char → Option (Item × List Char)
  | 0, _, _ => none
  | n + 1, done, cs =>
    match cs with
    | '\x7d' :: rest => some (.table .inline done, rest)
    | cs => do
      let (ks, rest) ← keys depthLimit cs
      let '=' :: rest := skipSpace rest | none
      let (item, rest) ← value levels n (skipSpace rest)
      let done ← Entries.add ks item .inline done
      match skipSpace rest with
      | ',' :: rest => members levels n done (skipSpace rest)
      | '\x7d' :: rest => some (.table .inline done, rest)
      | _ => none

end

structure Document where
  root : Entries
  header : List String

def Document.empty : Document := ⟨[], []⟩

def Document.open (d : Document) (ks : List String) (change : String → Entries.Change) :
    Option Document := do
  let last ← ks.getLast?
  let root ← Entries.within false (change last) ks.dropLast .header d.root
  return ⟨root, ks⟩

def Document.add (d : Document) (ks : List String) (item : Item) : Option Document := do
  let root ← Entries.within false (Entries.add ks item) d.header .header d.root
  return { d with root }

def Document.line (d : Document) (cs : List Char) : Option (Document × List Char) := do
  match cs with
  | '[' :: '[' :: cs =>
    let (ks, rest) ← keys depthLimit cs
    match skipBlanks rest with
    | ']' :: ']' :: rest => return (← d.open ks Entries.openElement, rest)
    | _ => none
  | '[' :: cs =>
    let (ks, rest) ← keys depthLimit cs
    match skipBlanks rest with
    | ']' :: rest => return (← d.open ks Entries.openTable, rest)
    | _ => none
  | cs =>
    let (ks, rest) ← keys depthLimit cs
    let '=' :: rest := skipBlanks rest | none
    let (item, rest) ← value depthLimit (2 * cs.length) (skipBlanks rest)
    return (← d.add ks item, rest)

def Document.lines : Nat → Document → List Char → Option Document
  | 0, _, _ => none
  | n + 1, d, cs => do
    let cs := skipSpace cs
    if cs = [] then return d
    let (d, rest) ← d.line cs
    match skipComment (skipBlanks rest) with
    | [] => return d
    | rest => Document.lines n d (← lineEnd? rest)

/-- The entries of a document. A byte order mark in front is skipped. -/
def read (cs : List Char) : Option Entries :=
  let cs := match cs with
    | '\ufeff' :: rest => rest
    | cs => cs
  (Document.lines (cs.length + 1) .empty cs).map (·.root)

end Toolpath.Settings.Toml
