import Toolpath.Path.Waypoint

/-!
# Adjustments

Changes made to every waypoint on its own.
-/

namespace Toolpath.Path

def swapXY (p : Path) : Path := p.map fun w => w.withPoint w.point.swapXY

def mapModal (f : Modal → Modal) (p : Path) : Path := p.map fun w => { w with modal := f w.modal }

def limitFeedrate (ceiling : Float) (p : Path) : Path :=
  p.mapModal fun m => if ceiling < m.feedrate then { m with feedrate := ceiling } else m

def scaleFeedrate (factor : Float) (p : Path) : Path :=
  p.mapModal fun m => { m with feedrate := m.feedrate * factor }

/-- Scaling changes the part, and the safety height and the depths of cuts with it. -/
def scaleMoves (factor : Float) (p : Path) : Path :=
  p.map fun w => w.withPoint (w.point.scale factor)

structure Spindle where
  on : Bool
  clockwise : Bool
  speed : Float

def forceSpindle (s : Spindle) (p : Path) : Path :=
  p.mapModal fun m =>
    { m with spindleOn := s.on, spindleClockwise := s.clockwise, spindleSpeed := s.speed }

end Toolpath.Path
