import JackCompiler.Command.Run
import JackCompiler.Options.File

/-!
# The command line

Runs a command on the files of the system.
-/

namespace JackCompiler

def attempt {α : Type} (action : IO α) : IO (Except String α) := do
  match ← action.toBaseIO with
  | .ok a => return .ok a
  | .error e => return .error (toString e)

def systemFiles : FileSystem IO where
  read path := attempt do
    let bytes ← IO.FS.readBinFile path
    return bytes.toList
  write path text := attempt (IO.FS.writeFile path text)

end JackCompiler

def main (arguments : List String) : IO UInt32 := do
  let outcome ← JackCompiler.runCommand JackCompiler.systemFiles JackCompiler.Options.ofFile?
    arguments
  IO.print outcome.output
  unless outcome.complaint.isEmpty do
    IO.eprintln outcome.complaint
  return UInt32.ofNat outcome.code
