import Toolpath.Job.Passes
import Toolpath.Settings.Toml.Document

/-!
# The settings file

A TOML document with a log level and the tables `machine` and `passes`. Unknown names are refused
except in the spindle table. A list may stand for a table and gives its values in order.
-/

namespace Toolpath.Settings

open Job (Passes)
open Toolpath.Path (Spindle)
open Toml (Item Entries)

structure File where
  logLevel : Option String
  deviation : Option Float
  chordLength : Option Float
  passes : Passes

def File.empty : File := ⟨none, none, none, .none⟩

namespace File

def text? : Item → Option String
  | .text s => some s
  | _ => none

def boolean? : Item → Option Bool
  | .boolean b => some b
  | _ => none

/-- A whole number must fit into 64 bits, with or without a sign. -/
def number? : Item → Option Float
  | .float x => some x
  | .integer n =>
    if -Int.pow 2 63 ≤ n ∧ n < Int.pow 2 64 then some (Float.ofInt n) else none
  | _ => none

/-- The named values of a table, or of a list with the names in their order. -/
def fields? (names : List String) : Item → Option Entries
  | .table _ es => some es
  | .list is => some (names.zip is)
  | .tables ts => some (names.zip (ts.reverse.map (.table .header ·)))
  | _ => none

def spindleNames : List String := ["enabled", "clockwise", "speed"]

/-- The speed must be given. Otherwise the spindle is on and turns clockwise. Entries with other
names are passed over, but their numbers must have a value. -/
def spindle? (i : Item) : Option Spindle := do
  let es ← fields? spindleNames i
  guard (Toml.readableEntries es)
  let on ← (es.lookup "enabled").elim (some true) boolean?
  let clockwise ← (es.lookup "clockwise").elim (some true) boolean?
  let speed ← es.lookup "speed" >>= number?
  return { on, clockwise, speed }

def passNames : List String :=
  ["drill", "route_grouping", "lift", "bogus", "vector", "tolerance", "flip_xy", "feed_limit",
    "feed_multiplier", "move_multiplier", "safety_height", "spindle", "return_home",
    "disable_spindle", "disable_coolant"]

def setPass (p : Passes) (name : String) (i : Item) : Option Passes :=
  match name with
  | "drill" => (boolean? i).map fun b => { p with drill := b }
  | "route_grouping" => (boolean? i).map fun b => { p with route := b }
  | "lift" => (boolean? i).map fun b => { p with lift := b }
  | "bogus" => (boolean? i).map fun b => { p with straighten := b }
  | "vector" => (boolean? i).map fun b => { p with simplify := b }
  | "tolerance" => (number? i).map fun x => { p with tolerance := x }
  | "flip_xy" => (boolean? i).map fun b => { p with swapXY := b }
  | "feed_limit" => (number? i).map fun x => { p with feedLimit := x }
  | "feed_multiplier" => (number? i).map fun x => { p with feedMultiplier := x }
  | "move_multiplier" => (number? i).map fun x => { p with moveMultiplier := x }
  | "safety_height" => (number? i).map fun x => { p with safetyHeight := x }
  | "spindle" => (spindle? i).map fun s => { p with spindle := s }
  | "return_home" => (boolean? i).map fun b => { p with returnHome := b }
  | "disable_spindle" => (boolean? i).map fun b => { p with disableSpindle := b }
  | "disable_coolant" => (boolean? i).map fun b => { p with disableCoolant := b }
  | _ => none

def passes? (i : Item) : Option Passes := do
  (← fields? passNames i).foldlM (fun p (name, i) => setPass p name i) .none

def machineNames : List String := ["max_arc_deviation", "min_arc_line_length"]

def setMachine (f : File) (name : String) (i : Item) : Option File :=
  match name with
  | "max_arc_deviation" => (number? i).map fun x => { f with deviation := x }
  | "min_arc_line_length" => (number? i).map fun x => { f with chordLength := x }
  | _ => none

def set (f : File) (name : String) (i : Item) : Option File :=
  match name with
  | "log_level" => (text? i).map fun s => { f with logLevel := s }
  | "machine" => do
    (← fields? machineNames i).foldlM (fun f (name, i) => setMachine f name i) f
  | "passes" => (passes? i).map fun p => { f with passes := p }
  | _ => none

def read? (text : List Char) : Option File := do
  (← Toml.read text).foldlM (fun f (name, i) => set f name i) .empty

end File

end Toolpath.Settings
