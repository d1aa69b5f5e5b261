import Coedit.Checked.Sequence
import Coedit.Command.Files
import Coedit.Command.Json
import Coedit.Text.Blank

/-!
The command line: printing, merging, transforming and applying patches that are stored in files.
What a command writes is a function of its arguments and of what reading a file gives.
-/
namespace Coedit.Command

inductive Failure where
  /-- The operands do not suit the command. -/
  | usage (operands : Text)
  | unknownCommand (name : Text)
  | unreadable (path : Text) (error : ReadError)
  | invalidPatch (path : Text) (error : FormatError)
  | notSequential (error : SequenceError)
  | doesNotApply (error : ApplyError)
  deriving DecidableEq, Repr

def help : Text :=
  "patchsync CLI

USAGE:
    patchsync <COMMAND> [ARGS]

COMMANDS:
    inspect <patch-file>                 Print a patch as JSON
    consolidate <patch-file>...          Merge sequential patches into one
    transform <patch-a> <patch-b>        Transform two concurrent patches; prints
                                         A' (after B, B wins ties) and B' (after A)
    apply <document-file> <patch-file>...
                                         Apply patches to a document and print it
    help                                 Show this help message

Patch files hold the wire form:
    v<base-version>:
    <index>:<+|-><length>:<percent-encoded text>,
    ...:
    <document-length>
".toList

/-- What a failure is called, and its cause where it has one. -/
def Failure.describe : Failure → Text × Option Text
  | .usage operands => ("Usage: patchsync ".toList ++ operands, none)
  | .unknownCommand name => ("Unknown command: ".toList ++ name ++ '\n' :: '\n' :: help, none)
  | .unreadable path error => ("Failed to read ".toList ++ path, some error.message)
  | .invalidPatch path error => ("Invalid patch in ".toList ++ path, some error.message)
  | .notSequential error => ("Patches are not sequential".toList, some error.message)
  | .doesNotApply error => ("Failed to apply patches".toList, some error.message)

def Failure.report (failure : Failure) : Text :=
  let (what, cause) := failure.describe
  "Error: ".toList ++ what ++
    (match cause with
    | none => []
    | some cause => "\n\nCaused by:\n    ".toList ++ cause) ++ ['\n']

/-- What a command writes, if the machine has numbers for it. -/
abbrev Writing := ExceptT Failure Checked

def readFile (files : Files) (path : Text) : Writing Text :=
  some ((files path).mapError (.unreadable path))

/-- The patch in a file, which white space may follow. -/
def readPatch (files : Files) (path : Text) : Writing Patch := do
  let text ← readFile files path
  (Patch.parse? text.trimEnd).map (·.mapError (.invalidPatch path))

def inspect (files : Files) : List Text → Writing Text
  | [path] => do
    let patch ← readPatch files path
    return (Json.ofPatch patch).pretty ++ ['\n']
  | _ => throw (.usage "inspect <patch-file>".toList)

def consolidate (files : Files) (paths : List Text) : Writing Text :=
  if paths = [] then throw (.usage "consolidate <patch-file>...".toList)
  else do
    let patches ← paths.mapM (readPatch files)
    let merged : Writing (Option Patch) :=
      (Patch.consolidate? patches).map (·.mapError .notSequential)
    match ← merged with
    | some merged => return merged.render ++ ['\n']
    | none => return []

/-- Transforms two concurrent patches, of which the second goes first where both insert. -/
def transform (files : Files) : List Text → Writing Text
  | [first, second] => do
    let a ← readPatch files first
    let b ← readPatch files second
    let (a', b') ← Patch.transformPair? a b false
    return a'.render ++ '\n' :: '\n' :: b'.render ++ ['\n']
  | _ => throw (.usage "transform <patch-a> <patch-b>".toList)

def apply (files : Files) : List Text → Writing Text
  | document :: paths => do
    let content ← readFile files document
    let patches ← paths.mapM (readPatch files)
    (Patch.applyAll? content patches).map (·.mapError .doesNotApply)
  | [] => throw (.usage "apply <document-file> <patch-file>...".toList)

def run (files : Files) : List Text → Writing Text
  | [] => return help
  | name :: operands =>
    if name = "inspect".toList then inspect files operands
    else if name = "consolidate".toList then consolidate files operands
    else if name = "transform".toList then transform files operands
    else if name = "apply".toList then apply files operands
    else if name ∈ ["help".toList, "--help".toList, "-h".toList] then return help
    else throw (.unknownCommand name)

/-- How a run ends: its exit code and what it writes to its two outputs. -/
structure Outcome where
  exitCode : Nat
  output : Text
  errors : Text
  deriving DecidableEq, Repr

/-- A run from its arguments to its end. Where a number leaves its range, the system ends the run; its
own words about that are left out. -/
def execute (files : Files) (arguments : List Text) : Outcome :=
  match (run files arguments).run with
  | some (.ok output) => ⟨0, output, []⟩
  | some (.error failure) => ⟨1, [], failure.report⟩
  | none => ⟨101, [], []⟩

end Coedit.Command
