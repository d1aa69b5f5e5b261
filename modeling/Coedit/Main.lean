import Coedit.Command.Run

/-!
The program: reads the files that a command may name, runs the command and writes what it says.
-/
namespace Coedit.Command

/-- Whether the system gave a certain number to its refusal, which it may count downwards. -/
def isNumbered (code number : UInt32) : Bool := code == number || code == 0 - number

def ReadError.ofSystem (error : IO.Error) : ReadError :=
  match error with
  | .noFileOrDirectory .. => .notFound
  | .inappropriateType _ code _ =>
    if isNumbered code 20 then .notDirectory else if isNumbered code 21 then .isDirectory
    else .refused error.toString.toList
  | .invalidArgument _ code _ =>
    if isNumbered code 36 then .nameTooLong else .refused error.toString.toList
  | _ => .refused error.toString.toList

def readOctets (path : Text) : IO (Except ReadError Bytes) := do
  try
    let octets ← IO.FS.readBinFile (String.ofList path)
    return .ok octets.toList
  catch error => return .error (.ofSystem error)

/-- What reading gives for each of the paths, and nothing for any other. -/
def readAll (paths : List Text) : IO Files := do
  let read ← paths.mapM fun path => do
    let octets ← readOctets path
    return (path, octets >>= textOfOctets)
  return fun path => (read.lookup path).getD (.error .notFound)

end Coedit.Command

def main (arguments : List String) : IO UInt32 := do
  let arguments := arguments.map String.toList
  let files ← Coedit.Command.readAll arguments.tail
  let outcome := Coedit.Command.execute files arguments
  IO.print (String.ofList outcome.output)
  IO.eprint (String.ofList outcome.errors)
  return UInt32.ofNat outcome.exitCode
