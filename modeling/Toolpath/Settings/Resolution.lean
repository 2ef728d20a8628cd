import Toolpath.Machine.Basic
import Toolpath.Settings.Arguments
import Toolpath.Settings.File

/-!
# Settings in force

The settings of a job, each from the command line if given there, else from the settings file, else
the usual one.
-/

namespace Toolpath

open Job (Passes)
open Toolpath.Path (Spindle)

structure Settings where
  input : String
  tolerances : Machine.Tolerances
  passes : Passes
  json : Bool
  logLevel : String
  file : Option String

namespace Settings

def Arguments.spindle? (a : Arguments) : Option Spindle :=
  (a.number? .spindleSpeed).map fun speed =>
    { on := true, clockwise := !a.has .spindleCcw, speed }

def mergePasses (a : Arguments) (p : Passes) : Passes where
  drill := a.has .drill || p.drill
  route := a.has .routeGrouping || p.route
  lift := a.has .lift || p.lift
  straighten := a.has .bogus || p.straighten
  simplify := a.has .vector || p.simplify
  tolerance := (a.number? .tolerance).or p.tolerance
  swapXY := a.has .flipXY || p.swapXY
  feedLimit := (a.number? .feedLimit).or p.feedLimit
  feedMultiplier := (a.number? .feedMultiplier).or p.feedMultiplier
  moveMultiplier := (a.number? .moveMultiplier).or p.moveMultiplier
  safetyHeight := (a.number? .safetyHeight).or p.safetyHeight
  spindle := a.spindle?.or p.spindle
  returnHome := a.has .returnHome || p.returnHome
  disableSpindle := a.has .disableSpindle || p.disableSpindle
  disableCoolant := a.has .disableCoolant || p.disableCoolant

def merge (a : Arguments) (f : File) (path : Option String) : Settings where
  input := a.input
  tolerances :=
    { deviation := ((a.number? .maxArcDeviation).or f.deviation).getD
        Machine.Tolerances.standard.deviation
      chordLength := ((a.number? .minArcLineLength).or f.chordLength).getD
        Machine.Tolerances.standard.chordLength }
  passes := mergePasses a f.passes
  json := a.has .json
  logLevel := (a.logLevel.or f.logLevel).getD "info"
  file := path

inductive Invalid where
  | notPositive (name : String) (value : Float)
  | spindleSpeed (value : Float)

def Invalid.message : Invalid → String
  | .notPositive name value => name ++ " must be a positive number, got " ++ Number.text value
  | .spindleSpeed value => "spindle speed must not be negative, got " ++ Number.text value

def positives (s : Settings) : List (String × Option Float) :=
  [("max_arc_deviation", some s.tolerances.deviation),
    ("min_arc_line_length", some s.tolerances.chordLength),
    ("tolerance", s.passes.tolerance),
    ("feed_limit", s.passes.feedLimit),
    ("feed_multiplier", s.passes.feedMultiplier),
    ("move_multiplier", s.passes.moveMultiplier)]

def isPositive (x : Float) : Bool := 0 < x && x.isFinite

def firstNotPositive (s : Settings) : Option Invalid :=
  s.positives.findSome? fun (name, value) =>
    match value with
    | some x => if isPositive x then none else some (.notPositive name x)
    | none => none

def badSpindle (s : Settings) : Option Invalid :=
  match s.passes.spindle with
  | some spindle =>
    if spindle.speed < 0 || !spindle.speed.isFinite then some (.spindleSpeed spindle.speed) else none
  | none => none

def invalid? (s : Settings) : Option Invalid := s.firstNotPositive.or s.badSpindle

end Settings

end Toolpath
