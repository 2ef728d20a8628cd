import Toolpath.Number.Text
import Toolpath.Number.Reading
import Toolpath.Program.Listing
import Toolpath.Path.Walk
import Toolpath.Machine.Run
import Toolpath.Path.Retraction
import Toolpath.Path.Drilling
import Toolpath.Path.Routing
import Toolpath.Path.Straight
import Toolpath.Path.Simplification
import Toolpath.Path.Adjustment
import Toolpath.Path.Homing
import Toolpath.Path.Extent
import Toolpath.Path.RunningTime
import Toolpath.Job.Compilation
import Toolpath.Job.Summary
import Toolpath.Job.Report
import Toolpath.Settings.Toml.Document
import Toolpath.Settings.Resolution
import Toolpath.Main
import Toolpath.Proofs.Number.Order
import Toolpath.Proofs.Path.Runs
import Toolpath.Proofs.Geometry.Point
import Toolpath.Proofs.Path.SafetyPlane
import Toolpath.Proofs.Path.Survey
import Toolpath.Proofs.Path.Legs
import Toolpath.Proofs.Path.SafeTravel
import Toolpath.Proofs.Path.Cuts
import Toolpath.Proofs.Machine.Reachable
import Toolpath.Proofs.Path.Drilling
import Toolpath.Proofs.Path.VisitingOrder
import Toolpath.Proofs.Path.Walk
import Toolpath.Proofs.Number.Extreme
import Toolpath.Proofs.Path.Extent
import Toolpath.Proofs.Path.Plunges
import Toolpath.Proofs.Path.Redrilling
import Toolpath.Proofs.Path.Setup
import Toolpath.Proofs.Number.Value
import Toolpath.Proofs.Number.Rounding
import Toolpath.Proofs.Number.Operations
import Toolpath.Proofs.Number.Nearness
import Toolpath.Proofs.Geometry.Distance
import Toolpath.Proofs.Path.Simplification
import Toolpath.Proofs.Path.Detours
import Toolpath.Proofs.Path.Numbers
import Toolpath.Proofs.Job.Validation
import Toolpath.Proofs.Path.Edits
import Toolpath.Proofs.Path.ExactTime
import Toolpath.Proofs.Path.Speed
import Toolpath.Proofs.Program.Listing
import Toolpath.Proofs.Machine.Sequence
import Toolpath.Proofs.Machine.History
import Toolpath.Proofs.Machine.WordOrder
import Toolpath.Proofs.Path.Start
import Toolpath.Proofs.Path.Homing
import Toolpath.Proofs.Job.Guarantees
import Toolpath.Proofs.Machine.Chords
import Toolpath.Proofs.Machine.Planes
import Toolpath.Proofs.Number.Grid
import Toolpath.Proofs.Number.Truncation
import Toolpath.Proofs.Machine.Codes
import Toolpath.Proofs.Machine.CodeWords
import Toolpath.Proofs.Number.Sign
import Toolpath.Proofs.Machine.Sweep
import Toolpath.Proofs.Number.Hypotenuse
import Toolpath.Proofs.Machine.Stages
import Toolpath.Proofs.Machine.Additions
import Toolpath.Proofs.Machine.Offsets
import Toolpath.Proofs.Machine.MachineCoordinates
import Toolpath.Proofs.Machine.Radii
import Toolpath.Proofs.Path.Commuting
import Toolpath.Proofs.Path.Straightening
import Toolpath.Proofs.Path.NearestFirst
import Toolpath.Proofs.Path.Acceptance
import Toolpath.Proofs.Path.Symmetry
import Toolpath.Proofs.Path.Adjustment
import Toolpath.Proofs.Path.LevelOrder
import Toolpath.Proofs.Path.LastHeight
import Toolpath.Proofs.Path.WayHome
import Toolpath.Proofs.Job.Dwells
import Toolpath.Proofs.Program.Writing
import Toolpath.Proofs.Number.Decimal
import Toolpath.Proofs.Number.Numeral
import Toolpath.Proofs.Program.Words
import Toolpath.Proofs.Path.Inventory
import Toolpath.Proofs.Path.Windowless
import Toolpath.Proofs.Path.Estimate
import Toolpath.Proofs.Settings.Precedence
