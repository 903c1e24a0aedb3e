import LexicalSelection.Job.Arguments

/-!
# The program

Does the job that the command line asks for, on the files of the machine.
-/

namespace LexicalSelection

/-- The path of a file as the machine takes it. -/
def filePath (path : Text) : String := String.ofList path

/-- The reason behind an error of the machine. -/
def faultOf (error : IO.Error) : FileFault :=
  match error with
  | .noFileOrDirectory .. => .notFound
  | .inappropriateType _ 20 _ => .notDirectory
  | .inappropriateType _ 21 _ => .isDirectory
  | error => .other (toString error)

/-- An action, or the reason why it failed. -/
def attempt {α : Type} (action : IO α) : IO (Except FileFault α) := do
  match ← action.toBaseIO with
  | .ok value => return .ok value
  | .error error => return .error (faultOf error)

/-- The bytes that are left in a stream, behind those that have been read. -/
partial def readRest (stream : IO.FS.Stream) (found : ByteArray) : IO ByteArray := do
  let chunk ← stream.read 65536
  if chunk.isEmpty then return found else readRest stream (found ++ chunk)

/-- Jobs on the files of the machine. -/
instance : FileAccess IO where
  openToRead
    | .standard => do return .ok (.ok (← readRest (← IO.getStdin) ByteArray.empty).toList)
    | .file path => do
      match ← attempt (IO.FS.Handle.mk (filePath path) .read) with
      | .error fault => return .error fault
      | .ok handle => return .ok (← attempt do return (← handle.readBinToEnd).toList)
  create
    | .standard => return .ok ()
    | .file path => attempt (IO.FS.writeBinFile (filePath path) ByteArray.empty)
  append place bytes := do
    match place with
    | .standard =>
      let output ← IO.getStdout
      output.write bytes.toByteArray
      output.flush
    | .file path =>
      let handle ← IO.FS.Handle.mk (filePath path) .append
      handle.write bytes.toByteArray

/-- Does the job that some words ask for. -/
def runWords (words : List Text) : IO UInt32 := do
  match Job.ofWords words with
  | .error error =>
    IO.eprintln s!"error: {error.message}"
    return 2
  | .ok job =>
    match ← (job.run : ExceptT JobError IO _).run with
    | .ok _ => return 0
    | .error error =>
      IO.eprintln s!"Error: {error.message}"
      return 1

end LexicalSelection

/-- Does the job that the command line asks for. -/
def main (args : List String) : IO UInt32 := LexicalSelection.runWords (args.map String.toList)
