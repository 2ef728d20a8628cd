/-!
# TOML items

The values of a TOML document, and the rules by which its lines build tables. A table may be
written only once, but tables that were merely implied by a longer key may still be opened.
-/

namespace Toolpath.Settings.Toml

/-- How a table came about: by its own header, by the header of a table inside it, by a dotted key,
or in braces. -/
inductive Origin where
  | header
  | implied
  | dotted
  | inline
  deriving DecidableEq, Repr

/-- Dates and times are checked but not kept. A number without a value is written as the rules of
TOML ask, but it is too large or its base has no digits after it. An array of tables holds its last
table first. -/
inductive Item where
  | text (s : String)
  | integer (n : Int)
  | float (x : Float)
  | valueless
  | boolean (b : Bool)
  | moment
  | list (items : List Item)
  | table (origin : Origin) (entries : List (String × Item))
  | tables (ts : List (List (String × Item)))

abbrev Entries := List (String × Item)

mutual

def Item.readable : Item → Bool
  | .valueless => false
  | .list is => readableItems is
  | .table _ es => readableEntries es
  | .tables ts => readableTables ts
  | _ => true

def readableItems : List Item → Bool
  | [] => true
  | i :: is => i.readable && readableItems is

def readableEntries : List (String × Item) → Bool
  | [] => true
  | (_, i) :: es => i.readable && readableEntries es

def readableTables : List (List (String × Item)) → Bool
  | [] => true
  | es :: ts => readableEntries es && readableTables ts

end

namespace Entries

def put (key : String) (item : Item) : Entries → Entries
  | [] => [(key, item)]
  | (k, i) :: rest => if k = key then (k, item) :: rest else (k, i) :: put key item rest

abbrev Change := Origin → Entries → Option Entries

/-- Makes a change in the table at the end of a path of keys. Missing tables are created, and the
last table of an array of tables stands for the array. Tables in braces are closed, and a dotted
key may not reach into a table with a header of its own. An implied table that a dotted key reaches
into counts as made by it. -/
def within (dotted : Bool) (change : Change) : List String → Change
  | [], origin, es => change origin es
  | k :: ks, _, es =>
    match es.lookup k with
    | none =>
      let origin := if dotted then .dotted else .implied
      (within dotted change ks origin []).map fun sub => put k (.table origin sub) es
    | some (.table origin sub) =>
      if origin = .inline ∨ (dotted ∧ origin = .header) then none
      else
        let origin := if dotted then .dotted else origin
        (within dotted change ks origin sub).map fun sub => put k (.table origin sub) es
    | some (.tables (t :: ts)) =>
      (within dotted change ks .header t).map fun t => put k (.tables (t :: ts)) es
    | some _ => none

/-- A new entry. The end of a dotted key belongs into a table made by dotted keys, and a plain key
into one that was not. -/
def addAt (dotted : Bool) (key : String) (item : Item) : Change := fun origin es =>
  if (origin = .dotted) = dotted ∧ (es.lookup key).isNone then some (put key item es) else none

/-- The entry `a.b.c = item` in a table. -/
def add (keys : List String) (item : Item) : Change := fun origin es =>
  match keys.getLast? with
  | none => none
  | some key =>
    within true (addAt (decide (1 < keys.length)) key item) keys.dropLast origin es

def openTable (key : String) : Change := fun _ es =>
  match es.lookup key with
  | none => some (put key (.table .header []) es)
  | some (.table .implied sub) => some (put key (.table .header sub) es)
  | some _ => none

/-- The header of one more table of an array. -/
def openElement (key : String) : Change := fun _ es =>
  match es.lookup key with
  | none => some (put key (.tables [[]]) es)
  | some (.tables ts) => some (put key (.tables ([] :: ts)) es)
  | some _ => none

end Entries

end Toolpath.Settings.Toml
