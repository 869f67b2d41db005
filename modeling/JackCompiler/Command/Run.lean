import JackCompiler.Command.Listing
import JackCompiler.Command.Path
import JackCompiler.Command.Request
import JackCompiler.Compile

/-!
# Running a command

A command reads its files, compiles, and writes at most one file, at the end.
It runs over any file system: the real one, or a directory that is a value.
-/

namespace JackCompiler

structure FileSystem (m : Type → Type) where
  read : String → m (Except String (List UInt8))
  write : String → String → m (Except String Unit)

/-- What a command leaves behind besides the file it writes: its exit code, what
it prints, and why it failed. -/
structure Outcome where
  code : Nat
  output : String
  complaint : String
deriving DecidableEq, Repr

abbrev SettingsReader := List UInt8 → Option Options

def Fault.exitCode {Place : Type} : Fault Place → Nat
  | .overflow => 101
  | _ => 1

section
variable {m : Type → Type} [Monad m]

def orFault {α : Type} (action : m (Except String α)) : ExceptT (Fault Position) m α :=
  ExceptT.mk do
    match ← action with
    | .ok a => return .ok a
    | .error message => return .error (.file message)

def readText (files : FileSystem m) (path : String) : ExceptT (Fault Position) m (List Char) := do
  let bytes ← orFault (files.read path)
  match Utf8.decode bytes with
  | .ok text => return text
  | .error fault => throw (.encoding fault)

/-- The options of a command: those of its settings file, which is read first. -/
def readOptions (files : FileSystem m) (reader : SettingsReader) :
    Option String → ExceptT (Fault Position) m Options
  | none => return {}
  | some path => do
    let bytes ← orFault (files.read path)
    match reader bytes with
    | some o => return o
    | none => throw (.file (path ++ ": invalid settings"))

def compileFile (files : FileSystem m) (file : String) (o : Options) :
    ExceptT (Fault Position) m Compiled := do
  let text ← readText files file
  match compile o (String.ofList text) with
  | .ok compiled => return compiled
  | .error fault => throw fault

/-- Does what is asked and returns what is to be printed. -/
def Request.serve (files : FileSystem m) (reader : SettingsReader) :
    Request → ExceptT (Fault Position) m String
  | .compile file settings => do
    let o ← readOptions files reader settings
    let compiled ← compileFile files file o
    orFault (files.write (Path.withExtension file "vm") (programText compiled.program))
    return ""
  | .tokens file => do
    let text ← readText files file
    return listing (tokenize (String.ofList text))
  | .trace file settings => do
    let o ← readOptions files reader settings
    let compiled ← compileFile files file { o with trace := true }
    return compiled.trace.getD ""

def runCommand (files : FileSystem m) (reader : SettingsReader) (arguments : List String) :
    m Outcome :=
  match Request.ofArguments? arguments with
  | none => return ⟨64, usage, ""⟩
  | some request => do
    match ← (request.serve files reader).run with
    | .ok output => return ⟨0, output, ""⟩
    | .error fault => return ⟨fault.exitCode, "", fault.message⟩

end

end JackCompiler
