import Toolpath.Number.Text

/-!
# Refusals

The reasons for which a pass leaves a path as it is, and their wording. Waypoints are counted from
zero.
-/

namespace Toolpath.Path

inductive Refusal where
  | complexZMotion (index : Nat)
  | differentFeedrates (first second : Float)
  | rapidInStock (index : Nat)
  | aboveStock (index : Nat)
  | unfinishedGroup
  | noSafetyHeight
  | noDrillFeedrate
  | heightTooLow (lower : Float)

open Number (text)

def Refusal.message : Refusal → String
  | .complexZMotion index => "complex z-motion detected at waypoint " ++ toString index
  | .differentFeedrates first second =>
    "multiple drill feedrates detected (" ++ text first ++ " and " ++ text second ++ ")"
  | .rapidInStock index => "rapid move in stock detected at waypoint " ++ toString index
  | .aboveStock index => "move above stock detected at waypoint " ++ toString index
  | .unfinishedGroup => "incomplete final drill set"
  | .noSafetyHeight => "unable to detect safety height"
  | .noDrillFeedrate => "unable to detect drill feedrate"
  | .heightTooLow lower => "new safety height collides with lower feed height of " ++ text lower

end Toolpath.Path
