import Toolpath.Path.Extent
import Toolpath.Path.RunningTime

/-!
# Report

A finished path as JSON, one item a line with an indent of two spaces a level. A value is laid out
as its lines.
-/

namespace Toolpath.Job

open Toolpath.Geometry (Point)
open Toolpath.Path (Extent Modal Motion Waypoint)

namespace Layout

def atom (text : String) : List String := [text]

/-- JSON has no text for infinity and not-a-number. -/
def number (x : Float) : List String :=
  atom (if x.isFinite then Number.Style.report.text x else "null")

def boolean (b : Bool) : List String := atom (if b then "true" else "false")

def quoted (text : String) : String := "\"" ++ text ++ "\""

def comma (lines : List String) : List String :=
  lines.dropLast ++ (lines.getLast?.map (· ++ ",")).toList

def items (is : List (List String)) : List String :=
  (is.dropLast.flatMap comma ++ is.getLast?.getD []).map ("  " ++ ·)

def array (is : List (List String)) : List String :=
  if is.isEmpty then ["[]"] else "[" :: items is ++ ["]"]

def field (name : String) : List String → List String
  | [] => []
  | l :: ls => (quoted name ++ ": " ++ l) :: ls

def record (fields : List (String × List String)) : List String :=
  "\x7b" :: items (fields.map fun (name, value) => field name value) ++ ["\x7d"]

end Layout

open Layout

def motionName : Motion → String
  | .unset => "none"
  | .rapid => "rapid"
  | .linear => "linear"
  | .clockwise => "cw_arc"
  | .counterclockwise => "ccw_arc"
  | .dwell => "dwell"

def coordinates (p : Point) : List (String × List String) :=
  [("x", number p.x), ("y", number p.y), ("z", number p.z)]

def modalLayout (m : Modal) : List String :=
  record [("mode", atom (quoted (motionName m.motion))),
    ("feedrate", number m.feedrate),
    ("spindle_enabled", boolean m.spindleOn),
    ("spindle_clockwise", boolean m.spindleClockwise),
    ("spindle_speed", number m.spindleSpeed),
    ("mist_coolant", boolean m.mist),
    ("flood_coolant", boolean m.flood),
    ("tool_index", atom (toString m.tool.toNat)),
    ("next_tool_index", atom (toString m.nextTool.toNat)),
    ("dwell_time", number m.dwellTime)]

def waypointLayout (w : Waypoint) : List String :=
  record (("state", modalLayout w.modal) :: coordinates w.point)

def extentLayout (e : Extent) : List String :=
  record [("min", record (coordinates e.low)), ("max", record (coordinates e.high)),
    ("feedrates", array (e.feedrates.map number))]

def reportLines (p : Path) : List String :=
  record [("info", ((Path.extent? p).map extentLayout).getD (atom "null")),
    ("estimated_seconds", number (Path.runningTime p).toSeconds),
    ("toolpath", array (p.map waypointLayout))]

def report (p : Path) : String := "\n".intercalate (reportLines p)

end Toolpath.Job
