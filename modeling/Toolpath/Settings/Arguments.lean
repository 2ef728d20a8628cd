import Toolpath.Number.Reading

/-!
# Command line arguments

One program to process, switches that stand alone and options with a value. A value follows its
option as the next argument or after an equals sign. After two dashes no argument is an option.
-/

namespace Toolpath.Settings

inductive Switch where
  | drill
  | routeGrouping
  | lift
  | bogus
  | vector
  | flipXY
  | spindleCcw
  | returnHome
  | disableSpindle
  | disableCoolant
  | json
  deriving DecidableEq, Repr

inductive Quantity where
  | maxArcDeviation
  | minArcLineLength
  | tolerance
  | feedLimit
  | feedMultiplier
  | moveMultiplier
  | safetyHeight
  | spindleSpeed
  deriving DecidableEq, Repr

inductive Parameter where
  | number (q : Quantity)
  | config
  | logLevel
  deriving DecidableEq, Repr

inductive Name where
  | switch (s : Switch)
  | parameter (p : Parameter)
  | help
  | version
  deriving DecidableEq, Repr

structure Flag where
  text : String
  name : Name
  help : String

def flags : List Flag :=
  [⟨"config", .parameter .config, "TOML configuration file"⟩,
    ⟨"max-arc-deviation", .parameter (.number .maxArcDeviation),
      "Maximum chord deviation for arcs in mm"⟩,
    ⟨"min-arc-line-length", .parameter (.number .minArcLineLength),
      "Minimum segment length for arcs in mm"⟩,
    ⟨"drill", .switch .drill, "Rapid through already drilled depth"⟩,
    ⟨"route-grouping", .switch .routeGrouping, "Reorder down groups nearest-first"⟩,
    ⟨"lift", .switch .lift, "Use rapid moves for pure Z retractions"⟩,
    ⟨"bogus", .switch .bogus, "Merge moves continuing in the same direction"⟩,
    ⟨"vector", .switch .vector, "Drop nearly collinear waypoints"⟩,
    ⟨"tolerance", .parameter (.number .tolerance),
      "Tolerance for vector and route grouping passes in mm"⟩,
    ⟨"flip-xy", .switch .flipXY, "Swap the X and Y axes"⟩,
    ⟨"feed-limit", .parameter (.number .feedLimit), "Clamp feedrates to this value"⟩,
    ⟨"feed-multiplier", .parameter (.number .feedMultiplier), "Multiply all feedrates"⟩,
    ⟨"move-multiplier", .parameter (.number .moveMultiplier),
      "Multiply all coordinates (changes the part!)"⟩,
    ⟨"safety-height", .parameter (.number .safetyHeight), "Move the safety plane to this height"⟩,
    ⟨"spindle-speed", .parameter (.number .spindleSpeed), "Force the spindle on at this speed"⟩,
    ⟨"spindle-ccw", .switch .spindleCcw, "Run the forced spindle counterclockwise"⟩,
    ⟨"return-home", .switch .returnHome, "Return to X0 Y0 Z0 at the end"⟩,
    ⟨"disable-spindle", .switch .disableSpindle, "Turn the spindle off on the final return"⟩,
    ⟨"disable-coolant", .switch .disableCoolant, "Turn coolant off on the final return"⟩,
    ⟨"json", .switch .json, "Print the final toolpath as JSON"⟩,
    ⟨"log-level", .parameter .logLevel,
      "Log level (trace, debug, info, warn, error) [default: info]"⟩,
    ⟨"help", .help, "Print help"⟩,
    ⟨"version", .version, "Print version"⟩]

def nameOf? (text : String) : Option Name := (flags.find? (·.text == text)).map (·.name)

structure Arguments where
  input : String
  config : Option String
  logLevel : Option String
  switches : List Switch
  numbers : List (Quantity × Float)

def Arguments.has (a : Arguments) (s : Switch) : Bool := a.switches.contains s

def Arguments.number? (a : Arguments) (q : Quantity) : Option Float := a.numbers.lookup q

inductive Usage where
  | missingInput
  | unknownArgument (argument : String)
  | missingValue (argument : String)
  | badValue (argument : String)
  | repeated (argument : String)
  | unwantedValue (argument : String)
  | help
  | version
  deriving DecidableEq, Repr

def Usage.message : Usage → String
  | .missingInput => "the following required arguments were not provided: <INPUT>"
  | .unknownArgument argument => "unexpected argument '" ++ argument ++ "' found"
  | .missingValue argument => "a value is required for '" ++ argument ++ "' but none was supplied"
  | .badValue argument => "invalid value for '" ++ argument ++ "'"
  | .repeated argument => "the argument '" ++ argument ++ "' cannot be used multiple times"
  | .unwantedValue argument => "unexpected value for '" ++ argument ++ "' found; no more were expected"
  | .help => "help"
  | .version => "version"

/-- An argument that is checked only once the next one is known. -/
inductive Pending where
  | none
  | input (text : String)
  | option (argument : String) (p : Parameter) (value : Option String)
  deriving DecidableEq, Repr

/-- Arguments half read. `bare` is set by two dashes. -/
structure Intake where
  input : Option String
  config : Option String
  logLevel : Option String
  switches : List Switch
  numbers : List (Quantity × Float)
  pending : Pending
  bare : Bool

namespace Intake

def start : Intake := ⟨none, none, none, [], [], .none, false⟩

def given (i : Intake) : Parameter → Bool
  | .number q => (i.numbers.lookup q).isSome
  | .config => i.config.isSome
  | .logLevel => i.logLevel.isSome

/-- Takes an option with its value. A second occurrence is refused before its value is read. -/
def assign (i : Intake) (argument : String) (p : Parameter) (value : String) :
    Except Usage Intake :=
  if i.given p then .error (.repeated argument)
  else match p with
    | .number q =>
      match Number.read? value.toList with
      | some x => .ok { i with numbers := i.numbers ++ [(q, x)] }
      | none => .error (.badValue argument)
    | .config =>
      if value = "" then .error (.missingValue argument) else .ok { i with config := value }
    | .logLevel => .ok { i with logLevel := value }

def settle (i : Intake) : Except Usage Intake :=
  let i' := { i with pending := .none }
  match i.pending with
  | .none => .ok i'
  | .input text => if text = "" then .error (.missingValue "<INPUT>") else .ok { i' with input := text }
  | .option argument _ none => .error (.missingValue argument)
  | .option argument p (some value) => i'.assign argument p value

def hasInput (i : Intake) : Bool :=
  match i.pending with
  | .input _ => true
  | _ => i.input.isSome

def takeInput (i : Intake) (text : String) : Except Usage Intake := do
  if i.hasInput then throw (.unknownArgument text)
  return { ← i.settle with pending := .input text }

def takeSwitch (i : Intake) (argument : String) (s : Switch) : Except Usage Intake := do
  let i ← i.settle
  if i.switches.contains s then throw (.repeated argument)
  return { i with switches := i.switches ++ [s] }

def takeName (i : Intake) (argument : String) (name : String) (value : Option String) :
    Except Usage Intake :=
  match nameOf? name, value with
  | none, _ => .error (.unknownArgument argument)
  | some (.parameter p), none => do
    return { ← i.settle with pending := .option argument p none }
  | some (.parameter p), some v => do (← i.settle).assign argument p v
  | some _, some _ => .error (.unwantedValue argument)
  | some (.switch s), none => i.takeSwitch argument s
  | some .help, none => do
    let _ ← i.settle
    throw .help
  | some .version, none => do
    let _ ← i.settle
    throw .version

def splitEquals (cs : List Char) : String × Option String :=
  let name := String.ofList (cs.takeWhile (· != '='))
  match cs.dropWhile (· != '=') with
  | [] => (name, none)
  | _ :: value => (name, some (String.ofList value))

/-- Letters after one dash. Only the first matters, since each known one ends the reading. -/
def takeLetters (i : Intake) (argument : String) (letter : Char) : Except Usage Intake :=
  match letter with
  | 'h' => i.takeName argument "help" none
  | 'V' => i.takeName argument "version" none
  | _ => .error (.unknownArgument argument)

def takePlain (i : Intake) (argument : String) : Except Usage Intake :=
  match i.pending with
  | .option name p none => .ok { i with pending := .option name p (some argument) }
  | _ => i.takeInput argument

def take (i : Intake) (argument : String) : Except Usage Intake :=
  if i.bare then i.takeInput argument
  else match argument.toList with
    | ['-', '-'] => .ok { i with bare := true }
    | '-' :: '-' :: cs =>
      let (name, value) := splitEquals cs
      i.takeName argument name value
    | '-' :: c :: _ => i.takeLetters argument c
    | _ => i.takePlain argument

def finish (i : Intake) : Except Usage Arguments := do
  let i ← i.settle
  match i.input with
  | none => throw .missingInput
  | some input =>
    return { input, config := i.config, logLevel := i.logLevel, switches := i.switches
             numbers := i.numbers }

end Intake

def Arguments.read (argv : List String) : Except Usage Arguments := do
  (← argv.foldlM Intake.take .start).finish

end Toolpath.Settings
