import Toolpath.Command

/-!
# The program

Connects the command to the file system and the standard streams.
-/

namespace Toolpath.Main

open Command (Unreadable)

/-- The cause of a failed read. The codes of the system come with either sign. -/
def cause : IO.Error → Unreadable
  | .noFileOrDirectory .. => .absent
  | .permissionDenied .. => .denied
  | .inappropriateType _ code _ => if code = 21 ∨ code = -21 then .folder else .notFolder
  | .invalidArgument _ code text => if code = 36 ∨ code = -36 then .nameTooLong else .other text
  | e => .other (toString e)

def contents (path : String) : IO (Except Unreadable ByteArray) := do
  try return .ok (← IO.FS.readBinFile path)
  catch e => return .error (cause e)

def usualSettings : IO (Option String) := do
  let folder ← match (← IO.getEnv "XDG_CONFIG_HOME").filter (·.startsWith "/") with
    | some folder => pure (some folder)
    | none => pure ((← IO.getEnv "HOME").map (· ++ "/.config"))
  match folder with
  | none => return none
  | some folder =>
    let path := folder ++ "/gcode-opt/config.toml"
    match ← contents path with
    | .ok _ => return some path
    | .error _ => return none

end Toolpath.Main

def main (argv : List String) : IO UInt32 := do
  let files : Toolpath.Command.Files IO :=
    { contents := Toolpath.Main.contents, usualSettings := ← Toolpath.Main.usualSettings }
  let r ← Toolpath.Command.run files argv
  IO.print r.output
  for line in r.errors do
    IO.eprintln line
  return UInt32.ofNat r.status
