import SwiftTree.Node.Listing
import SwiftTree.Parse

/-!
# The command line

`parse PATH` parses one file and writes its diagnostics, with `--tree` also its tree. `check PATH…`
parses several files and fails if one of them has errors. Diagnostics are written one on a line; the
option `--format` has to be `short` or `pretty`.

A command is a function of the texts of its files (`Command.run`), which are read beforehand. If one
of them cannot be read, nothing is done with the others.
-/

namespace SwiftTree

/-- Why a file cannot be read. -/
inductive ReadError where
  /-- the system refuses, in its words, with its number -/
  | system (details : String) (code : Nat)
  /-- the file is no text -/
  | notText
  /-- anything else -/
  | other (details : String)
deriving DecidableEq, Repr

namespace ReadError

/-- There is no such file. -/
def notFound : ReadError := .system "No such file or directory" 2

/-- The wording of the cause. -/
def message : ReadError → String
  | system details code => details ++ " (os error " ++ toString code ++ ")"
  | notText => "stream did not contain valid UTF-8"
  | other details => details

end ReadError

/-- What a command leaves behind. -/
structure Outcome where
  /-- the exit code -/
  code : Nat
  /-- what is written to the standard output -/
  stdout : String
  /-- what is written to the standard error output -/
  stderr : String
deriving DecidableEq, Repr

namespace Outcome

/-- A file could not be read. -/
def unreadable (path : String) (e : ReadError) : Outcome :=
  ⟨1, "", "Error: failed to read \x60" ++ path ++ "\x60\n\nCaused by:\n    " ++ e.message ++ "\n"⟩

/-- The arguments make no command. -/
def misused : Outcome :=
  ⟨2, "", "usage: parse PATH [--tree] [--format short|pretty]\n"
    ++ "       check [--format short|pretty] PATH...\n"⟩

end Outcome

/-- What is to be done. -/
inductive Command where
  /-- parse a file, and show its tree if that is asked for -/
  | parse (path : String) (tree : Bool)
  /-- look for errors in files -/
  | check (paths : List String)
deriving DecidableEq, Repr

/-- Arguments, sorted. -/
structure Arguments where
  /-- those that are no options, in order -/
  paths : List String := []
  /-- whether the tree is asked for -/
  tree : Bool := false
  /-- the value of the option for the format -/
  format : Option String := none
deriving DecidableEq, Repr

namespace Arguments

/-- The values that the option for the format can have. -/
def formats : List String := ["short", "pretty"]

/-- Takes the value of the option for the format, which can be given once. -/
def setFormat (a : Arguments) (value : String) : Option Arguments :=
  if a.format.isNone && formats.contains value then some { a with format := some value } else none

/-- Sorts arguments. Behind `--` there are no options. -/
def sort (a : Arguments) : List String → Option Arguments
  | [] => some a
  | "--" :: rest => some { a with paths := a.paths ++ rest }
  | "--tree" :: rest => if a.tree then none else sort { a with tree := true } rest
  | "--format" :: value :: rest => do sort (← a.setFormat value) rest
  | arg :: rest =>
    match Text.splitAtFirst "--format=".toList arg.toList with
    | some ([], value) => do sort (← a.setFormat (String.ofList value)) rest
    | _ =>
      if Text.startsWith arg.toList ['-'] && arg != "-" then none
      else sort { a with paths := a.paths ++ [arg] } rest

end Arguments

namespace Command

/-- The command that arguments ask for. -/
def ofArgs? : List String → Option Command
  | "parse" :: args => do
    match ← Arguments.sort {} args with
    | ⟨[path], tree, _⟩ => return parse path tree
    | _ => none
  | "check" :: args => do
    match ← Arguments.sort {} args with
    | ⟨path :: paths, false, _⟩ => return check (path :: paths)
    | _ => none
  | _ => none

/-- The files that a command reads. -/
def paths : Command → List String
  | parse path _ => [path]
  | check paths => paths

/-- The diagnostics of a file, one on a line. -/
def report (path : String) (text : Text) (p : Parse) : String :=
  String.join (p.diagnostics.map fun d => d.renderShort path text ++ "\n")

/-- The texts of files, or the first that cannot be read. -/
def load (read : String → Except ReadError Text) :
    List String → Except Outcome (List (String × Text))
  | [] => .ok []
  | path :: paths => do
    match read path with
    | .error e => throw (.unreadable path e)
    | .ok text => return (path, text) :: (← load read paths)

/-- The outcome of a command whose files are read. -/
def outcome : Command → List (String × Text) → Outcome
  | parse _ tree, files =>
    let parsed := files.map fun (path, text) => (path, text, Parse.ofText .sourceFile text)
    ⟨0, if tree then String.join (parsed.map fun (_, _, p) => p.root.outline) else "",
      String.join (parsed.map fun (path, text, p) => report path text p)⟩
  | check _, files =>
    let parsed := files.map fun (path, text) => (path, text, Parse.ofText .sourceFile text)
    let failed := parsed.filter fun (_, _, p) => p.hasErrors
    if failed.isEmpty then ⟨0, "", ""⟩
    else
      ⟨1, "", String.join (failed.map fun (path, text, p) => report path text p)
        ++ toString failed.length ++ " of " ++ toString files.length ++ " files have errors\n"⟩

/-- Runs a command, given what reading a file answers. -/
def run (read : String → Except ReadError Text) (c : Command) : Outcome :=
  match load read c.paths with
  | .error o => o
  | .ok files => c.outcome files

end Command

/-- Runs the command that arguments ask for. -/
def runArguments (read : String → Except ReadError Text) (args : List String) : Outcome :=
  match Command.ofArgs? args with
  | some c => c.run read
  | none => .misused

end SwiftTree
