import PhraseStructure.CommandLine
import Std.Time.Zoned

/-!
# The program

The command line on the files of the machine: everything that is decided is decided in `CommandLine.respond`,
and this module gives it access to files and to the clock and prints its report.
-/

namespace PhraseStructure

/-- What an error of the system means for a file. -/
def AccessFault.ofError : IO.Error → AccessFault
  | .noFileOrDirectory _ _ _ => .notFound
  | .inappropriateType _ 20 _ => .notDirectory
  | .inappropriateType _ 21 _ => .isDirectory
  | e => .other (toString e)

/-- The files of the machine. -/
def fileStore : Store IO where
  read path := do
    try
      return .ok (← IO.FS.readFile path)
    catch e =>
      return .error (.ofError e)
  write path content := do
    try
      IO.FS.writeFile path content
      return .ok ()
    catch e =>
      return .error (.ofError e)

/-- The time by the clock of the machine. -/
def Stamp.now : IO Stamp := do
  let time ← Std.Time.PlainDateTime.now
  return {
    day := time.day.val.toNat
    month := time.month.val.toNat
    hour := time.hour.val.toNat
    minute := time.minute.val.toNat
    second := time.second.val.toNat }

end PhraseStructure

open PhraseStructure in
/-- Carries out what the arguments ask for. -/
def main (args : List String) : IO UInt32 := do
  let report ← CommandLine.respond fileStore (← Stamp.now) args
  IO.print report.output
  IO.eprint report.errors
  return report.code.toUInt32
