import Toolpath.Settings.Resolution

/-!
# The command line before the file

Each setting in force comes from the command line if it is given there, else from the settings file,
else it is the usual one. The turning sense of a forced spindle comes from where its speed comes from,
so that the switch for it is lost where the speed is taken from the file.
-/

namespace Toolpath.Settings

open Job (Passes)
open Toolpath.Path (Spindle)

/-- The value of an option: the given one, else the one written in the file, else the usual one. -/
inductive Chosen {α : Type} (given written usual : Option α) : Option α → Prop
  | given {x : α} (here : given = some x) : Chosen given written usual (some x)
  | written {x : α} (missing : given = none) (here : written = some x) :
      Chosen given written usual (some x)
  | usual (missing : given = none) (unset : written = none) : Chosen given written usual usual

section Options

def passQuantity? (p : Passes) : Quantity → Option Float
  | .maxArcDeviation | .minArcLineLength => none
  | .tolerance => p.tolerance
  | .feedLimit => p.feedLimit
  | .feedMultiplier => p.feedMultiplier
  | .moveMultiplier => p.moveMultiplier
  | .safetyHeight => p.safetyHeight
  | .spindleSpeed => p.spindle.map (·.speed)

def File.quantity? (f : File) : Quantity → Option Float
  | .maxArcDeviation => f.deviation
  | .minArcLineLength => f.chordLength
  | q => passQuantity? f.passes q

def quantity? (s : Settings) : Quantity → Option Float
  | .maxArcDeviation => some s.tolerances.deviation
  | .minArcLineLength => some s.tolerances.chordLength
  | q => passQuantity? s.passes q

/-- All other numbers stay unset. -/
def usualQuantity? : Quantity → Option Float
  | .maxArcDeviation => some 0.002
  | .minArcLineLength => some 0.01
  | _ => none

/-- What a switch of the command line stands for among the passes. -/
def passSwitch (p : Passes) : Switch → Bool
  | .drill => p.drill
  | .routeGrouping => p.route
  | .lift => p.lift
  | .bogus => p.straighten
  | .vector => p.simplify
  | .flipXY => p.swapXY
  | .spindleCcw => p.spindle.any (!·.clockwise)
  | .returnHome => p.returnHome
  | .disableSpindle => p.disableSpindle
  | .disableCoolant => p.disableCoolant
  | .json => false

def isOn (s : Settings) : Switch → Bool
  | .json => s.json
  | w => passSwitch s.passes w

end Options

/-- The options of a job without the turning sense of its spindle. A speed that is given switches the
spindle on. -/
structure Prevails (a : Arguments) (f : File) (s : Settings) : Prop where
  input : s.input = a.input
  logLevel : Chosen a.logLevel f.logLevel (some "info") (some s.logLevel)
  quantity : ∀ q, Chosen (a.number? q) (f.quantity? q) (usualQuantity? q) (s.quantity? q)
  tolerance : Chosen (a.number? .tolerance) f.passes.tolerance (some 0.001)
    (some s.passes.toleranceInForce)
  given : ∀ w, w ≠ .spindleCcw → a.has w = true → s.isOn w = true
  missing : ∀ w, w ≠ .spindleCcw → a.has w = false → s.isOn w = passSwitch f.passes w
  spindleOn : Chosen ((a.number? .spindleSpeed).map fun _ => true) (f.passes.spindle.map (·.on)) none
    (s.passes.spindle.map (·.on))

section Choice

variable {α : Type}

theorem chosen_or (given written : Option α) : Chosen given written none (given.or written) := by
  cases given with
  | some x => exact .given rfl
  | none =>
    cases written with
    | some x => exact .written rfl rfl
    | none => exact .usual rfl rfl

theorem chosen_getD (given written : Option α) (usual : α) :
    Chosen given written (some usual) (some ((given.or written).getD usual)) := by
  cases given with
  | some x => exact .given rfl
  | none =>
    cases written with
    | some x => exact .written rfl rfl
    | none => exact .usual rfl rfl

end Choice

section Merging

variable (a : Arguments) (f : File) (path : Option String)

theorem spindle_merge : (merge a f path).passes.spindle =
    ((a.number? .spindleSpeed).map fun speed => ⟨true, !a.has .spindleCcw, speed⟩).or
      f.passes.spindle := rfl

theorem map_spindle_merge {α : Type} (g : Spindle → α) : (merge a f path).passes.spindle.map g =
    ((a.number? .spindleSpeed).map fun speed => g ⟨true, !a.has .spindleCcw, speed⟩).or
      (f.passes.spindle.map g) := by
  rw [spindle_merge, Option.map_or, Option.map_map]
  rfl

theorem quantity_merge (q : Quantity) : Chosen (a.number? q) (f.quantity? q) (usualQuantity? q)
    ((merge a f path).quantity? q) := by
  cases q with
  | maxArcDeviation | minArcLineLength => exact chosen_getD _ _ _
  | tolerance | feedLimit | feedMultiplier | moveMultiplier | safetyHeight => exact chosen_or _ _
  | spindleSpeed =>
    have hspeed := map_spindle_merge a f path (·.speed)
    rw [Option.map_id_fun'] at hspeed
    change Chosen _ _ _ ((merge a f path).passes.spindle.map (·.speed))
    rw [hspeed]
    exact chosen_or _ _

theorem isOn_merge {w : Switch} (h : w ≠ .spindleCcw) :
    (merge a f path).isOn w = (a.has w || passSwitch f.passes w) := by
  cases w with
  | spindleCcw => exact absurd rfl h
  | json => exact (Bool.or_false _).symm
  | _ => rfl

theorem prevails_merge : Prevails a f (merge a f path) where
  input := rfl
  logLevel := chosen_getD _ _ _
  quantity := quantity_merge a f path
  tolerance := chosen_getD _ _ _
  given w hw hgiven := by rw [isOn_merge a f path hw, hgiven, Bool.true_or]
  missing w hw hmissing := by rw [isOn_merge a f path hw, hmissing, Bool.false_or]
  spindleOn := by
    rw [map_spindle_merge]
    exact chosen_or _ _

end Merging

/-- The command line wins over the file but for the turning sense of the spindle. The switch for it
is obeyed exactly if the speed is given as well or the spindle of the file turns that way by itself.
Without the switch a given speed makes the spindle turn clockwise. -/
theorem merge_prevails (a : Arguments) (f : File) (path : Option String) :
    Prevails a f (merge a f path) ∧
      (a.has .spindleCcw = true →
        ((∀ spindle ∈ (merge a f path).passes.spindle, spindle.clockwise = false) ↔
          (a.number? .spindleSpeed).isSome = true ∨
            ∀ spindle ∈ f.passes.spindle, spindle.clockwise = false)) ∧
      (a.has .spindleCcw = false → (merge a f path).passes.spindle.map (·.clockwise) =
        ((a.number? .spindleSpeed).map fun _ => true).or (f.passes.spindle.map (·.clockwise))) := by
  refine ⟨prevails_merge a f path, fun hccw => ?_, fun hcw => ?_⟩
  · rw [spindle_merge, hccw]
    cases a.number? .spindleSpeed with
    | some speed => simp
    | none => simp
  · rw [map_spindle_merge, hcw]
    rfl

def clockwiseFile : File :=
  { File.empty with passes := { Passes.none with spindle := some ⟨true, true, 1000⟩ } }

def askedCounterclockwise : Arguments :=
  { input := "job.nc", config := some "conf.toml", logLevel := none, switches := [.spindleCcw]
    numbers := [] }

/-- The spindle of the job is on and turns clockwise all the same. -/
theorem clockwise_counterexample : askedCounterclockwise.has .spindleCcw = true ∧
    ∃ spindle ∈ (merge askedCounterclockwise clockwiseFile (some "conf.toml")).passes.spindle,
      spindle.on = true ∧ spindle.clockwise = true :=
  ⟨rfl, ⟨true, true, 1000⟩, rfl, rfl, rfl⟩

end Toolpath.Settings
