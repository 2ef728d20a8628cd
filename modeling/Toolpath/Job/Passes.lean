import Toolpath.Path.Adjustment
import Toolpath.Path.Drilling
import Toolpath.Path.Homing
import Toolpath.Path.Retraction
import Toolpath.Path.Routing
import Toolpath.Path.Simplification
import Toolpath.Path.Straight

/-!
# Passes

The changes asked for on a finished path. They are made in a fixed order. A path that cannot be
routed is left in its order with a warning; a safety height that is too low ends the work.
-/

namespace Toolpath.Job

open Toolpath.Path (Refusal Spindle)

structure Passes where
  drill : Bool
  route : Bool
  lift : Bool
  straighten : Bool
  simplify : Bool
  tolerance : Option Float
  swapXY : Bool
  feedLimit : Option Float
  feedMultiplier : Option Float
  moveMultiplier : Option Float
  safetyHeight : Option Float
  spindle : Option Spindle
  returnHome : Bool
  disableSpindle : Bool
  disableCoolant : Bool

inductive Warning where
  | routingSkipped (r : Refusal)
  | movesScaled (factor : Float)

def Warning.message : Warning → String
  | .routingSkipped r => "Skipping route grouping: " ++ r.message
  | .movesScaled factor => "Scaling all moves by " ++ Number.text factor

namespace Passes

def none : Passes where
  drill := false
  route := false
  lift := false
  straighten := false
  simplify := false
  tolerance := .none
  swapXY := false
  feedLimit := .none
  feedMultiplier := .none
  moveMultiplier := .none
  safetyHeight := .none
  spindle := .none
  returnHome := false
  disableSpindle := false
  disableCoolant := false

def toleranceInForce (s : Passes) : Float := s.tolerance.getD 0.001

def onlyIf (on : Bool) (f : Path → Path) (p : Path) : Path := if on then f p else p

def withValue {α : Type} (value : Option α) (f : α → Path → Path) (p : Path) : Path :=
  match value with
  | some a => f a p
  | .none => p

def routed (s : Passes) (p : Path) : Path × List Warning :=
  if s.route then
    match Path.route s.toleranceInForce p with
    | .ok q => (q, [])
    | .error r => (p, [.routingSkipped r])
  else (p, [])

/-- The passes between routing and the safety height. -/
def reshape (s : Passes) (p : Path) : Path :=
  p |> onlyIf s.lift Path.lift
    |> onlyIf s.straighten Path.straighten
    |> onlyIf s.simplify (Path.simplify s.toleranceInForce)
    |> onlyIf s.swapXY Path.swapXY
    |> withValue s.feedMultiplier Path.scaleFeedrate
    |> withValue s.moveMultiplier Path.scaleMoves
    |> withValue s.feedLimit Path.limitFeedrate
    |> withValue s.spindle Path.forceSpindle

def home (s : Passes) (p : Path) : Path :=
  onlyIf s.returnHome (Path.returnHome { spindle := s.disableSpindle, coolant := s.disableCoolant }) p

structure HeightRefused where
  height : Float
  refusal : Refusal

/-- The result of all passes. After a refusal the path is the one that was refused. -/
structure Applied where
  path : Path
  warnings : List Warning
  refused : Option HeightRefused

def apply (s : Passes) (p : Path) : Applied :=
  let (p, skipped) := s.routed (onlyIf s.drill Path.drill p)
  let p := s.reshape p
  let warnings := skipped ++ (s.moveMultiplier.map .movesScaled).toList
  match s.safetyHeight with
  | .none => ⟨s.home p, warnings, .none⟩
  | some h =>
    match Path.setSafetyHeight h p with
    | .ok q => ⟨s.home q, warnings, .none⟩
    | .error r => ⟨p, warnings, some ⟨h, r⟩⟩

end Passes

end Toolpath.Job
