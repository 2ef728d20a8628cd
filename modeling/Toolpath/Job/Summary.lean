import Toolpath.Path.Extent
import Toolpath.Path.RunningTime

/-!
# Summary

A few lines about a finished path for a human reader.
-/

namespace Toolpath.Job

open Number (text fixed)
open Toolpath.Path (Extent Span)

def twoDigits (n : Nat) : String := if n < 10 then "0" ++ toString n else toString n

def clock (s : Span) : String :=
  let n := s.seconds
  toString (n / 3600) ++ ":" ++ twoDigits (n / 60 % 60) ++ ":" ++ twoDigits (n % 60)

def range (low high : Float) : String := fixed 3 low ++ ".." ++ fixed 3 high

def extentLines (e : Extent) : List String :=
  ["Extent: X " ++ range e.low.x e.high.x ++ "  Y " ++ range e.low.y e.high.y ++ "  Z " ++
      range e.low.z e.high.z,
    "Feedrates: " ++ ", ".intercalate (e.feedrates.map text)]

def summaryLines (p : Path) : List String :=
  ["Waypoints: " ++ toString p.length] ++
    ((Path.extent? p).map extentLines).getD [] ++
    ["Estimated runtime: " ++ clock (Path.runningTime p)]

def summary (p : Path) : String := String.join ((summaryLines p).map (· ++ "\n"))

end Toolpath.Job
