import Toolpath.Job.Compilation
import Toolpath.Job.Report
import Toolpath.Job.Summary
import Toolpath.Settings.Resolution

/-!
# The command

What the program does with its arguments, given a way to read files.
-/

namespace Toolpath.Command

open Settings (Arguments File Flag Invalid Usage)

/-- Why the text of a file could not be read: there is no such file, a folder stands where the file
should be or a file where a folder should be, or the contents are not UTF-8. -/
inductive Unreadable where
  | absent
  | denied
  | folder
  | notFolder
  | nameTooLong
  | notText
  | other (text : String)
  deriving DecidableEq, Repr

def Unreadable.message : Unreadable → String
  | .absent => "No such file or directory (os error 2)"
  | .denied => "Permission denied (os error 13)"
  | .folder => "Is a directory (os error 21)"
  | .notFolder => "Not a directory (os error 20)"
  | .nameTooLong => "File name too long (os error 36)"
  | .notText => "stream did not contain valid UTF-8"
  | .other text => text

/-- Access to files. The usual settings file is named only if it exists. -/
structure Files (m : Type → Type) where
  contents : String → m (Except Unreadable ByteArray)
  usualSettings : Option String

inductive Failure where
  | settingsUnreadable (path : String) (cause : Unreadable)
  | settingsMalformed (path : String)
  | settingsInvalid (i : Invalid)
  | programUnreadable (path : String) (cause : Unreadable)
  | job (f : Job.Failure)

def Failure.messages : Failure → List String
  | .settingsUnreadable path cause => ["failed to read config file " ++ path, cause.message]
  | .settingsMalformed path => ["failed to parse config file " ++ path, "not a valid settings file"]
  | .settingsInvalid i => [i.message]
  | .programUnreadable path cause => ["failed to read " ++ path, cause.message]
  | .job f => f.messages

/-- The first message, and the causes below it. Several causes are numbered. -/
def Failure.lines (f : Failure) : List String :=
  match f.messages with
  | [] => []
  | [top] => ["Error: " ++ top]
  | [top, cause] => ["Error: " ++ top, "", "Caused by:", "    " ++ cause]
  | top :: causes =>
    ["Error: " ++ top, "", "Caused by:"] ++
      causes.zipIdx.map fun (cause, i) => "    " ++ toString i ++ ": " ++ cause

variable {m : Type → Type} [Monad m]

def Files.text (files : Files m) (path : String) : m (Except Unreadable String) := do
  match ← files.contents path with
  | .error cause => return .error cause
  | .ok bytes =>
    match String.fromUTF8? bytes with
    | some text => return .ok text
    | none => return .error .notText

def settingsFile (files : Files m) (path : Option String) : m (Except Failure File) := do
  match path with
  | none => return .ok .empty
  | some path =>
    match ← files.text path with
    | .error cause => return .error (.settingsUnreadable path cause)
    | .ok text =>
      match File.read? text.toList with
      | some file => return .ok file
      | none => return .error (.settingsMalformed path)

def settings (files : Files m) (a : Arguments) : m (Except Failure Settings) := do
  let path := a.config.or files.usualSettings
  match ← settingsFile files path with
  | .error f => return .error f
  | .ok file =>
    let s := Settings.merge a file path
    match s.invalid? with
    | some i => return .error (.settingsInvalid i)
    | none => return .ok s

structure Response where
  status : Nat
  output : String
  errors : List String

def Response.failed (f : Failure) (notes : List String) : Response := ⟨1, "", notes ++ f.lines⟩

/-- Warnings are left out at the levels above them. -/
def notes (level : String) (ws : List Job.Warning) : List String :=
  if level = "off" ∨ level = "error" then [] else ws.map fun w => "warning: " ++ w.message

def process (files : Files m) (s : Settings) : m Response := do
  match ← files.text s.input with
  | .error cause => return .failed (.programUnreadable s.input cause) []
  | .ok text =>
    let c := Job.compile s.tolerances s.passes text.toList
    let notes := notes s.logLevel c.warnings
    match c.result with
    | .error f => return .failed (.job f) notes
    | .ok path =>
      return ⟨0, if s.json then Job.report path ++ "\n" else Job.summary path, notes⟩

def versionText : String := "gcode-opt 0.1.0\n"

def flagLine (f : Flag) : String :=
  let value := match f.name with
    | .parameter _ => " <VALUE>"
    | _ => ""
  let start := "      --" ++ f.text ++ value
  start ++ "".pushn ' ' (38 - start.length) ++ f.help ++ "\n"

def helpText : String :=
  "Interpret and optimize G-code toolpaths\n\nUsage: gcode-opt [OPTIONS] <INPUT>\n\n" ++
    "Arguments:\n  <INPUT>  G-code program to process\n\nOptions:\n" ++
    String.join (Settings.flags.map flagLine)

def run (files : Files m) (argv : List String) : m Response := do
  match Arguments.read argv with
  | .error .help => return ⟨0, helpText, []⟩
  | .error .version => return ⟨0, versionText, []⟩
  | .error e => return ⟨2, "", ["error: " ++ e.message]⟩
  | .ok a =>
    match ← settings files a with
    | .error f => return .failed f []
    | .ok s => process files s

end Toolpath.Command
