import SwiftTree.CommandLine

/-!
# The program

Reads the files that the arguments name, runs the command, and writes what it says.
-/

namespace SwiftTree

/-- Why reading a file failed. -/
def ReadError.ofSystem : IO.Error → ReadError
  | .noFileOrDirectory .. => .notFound
  | .permissionDenied _ code details => .system details code.toNat
  | .inappropriateType _ code details => .system details code.toNat
  | e => .other (toString e)

/-- The text of a file. -/
def readText (path : String) : IO (Except ReadError Text) := do
  match ← (IO.FS.readBinFile path).toBaseIO with
  | .error e => return .error (.ofSystem e)
  | .ok bytes =>
    match String.fromUTF8? bytes with
    | none => return .error .notText
    | some s => return .ok s.toList

/-- Runs the command that arguments ask for, with the files as they are. -/
def runProgram (args : List String) : IO UInt32 := do
  let paths := ((Command.ofArgs? args).map Command.paths).getD []
  let files ← paths.mapM fun path => return (path, ← readText path)
  let o := runArguments (fun path => (files.lookup path).getD (.error .notFound)) args
  IO.print o.stdout
  IO.eprint o.stderr
  return o.code.toUInt32

end SwiftTree

/-- The command line. -/
def main (args : List String) : IO UInt32 := SwiftTree.runProgram args
