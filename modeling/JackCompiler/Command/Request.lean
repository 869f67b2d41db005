/-!
# What a command line asks for

A command and a file, and for the commands that compile an optional settings
file. Anything else is a mistake in usage.
-/

namespace JackCompiler

inductive Request
  | compile (file : String) (settings : Option String)
  | tokens (file : String)
  | trace (file : String) (settings : Option String)
deriving DecidableEq, Repr

namespace Request

/-- The settings file that the arguments after the source file name. Arguments
after it are ignored. -/
def settings? : List String → Option (Option String)
  | [] => some none
  | "--config" :: file :: _ => some (some file)
  | _ => none

def ofArguments? : List String → Option Request
  | "compile" :: file :: rest => (settings? rest).map (.compile file)
  | "tokens" :: file :: _ => some (.tokens file)
  | "trace" :: file :: rest => (settings? rest).map (.trace file)
  | _ => none

end Request

def version : String := "0.3.0"

def usage : String :=
  "Jack Compiler v" ++ version ++ "\n" ++
  "\n" ++
  "usage: jackc CMD FILE [--config CONF]\n" ++
  "\n" ++
  "commands:\n" ++
  "    compile Compile the target Jack class into a VM file next to it\n" ++
  "    tokens  Print the tokens of the target Jack file\n" ++
  "    trace   Print the grammar trace of the target Jack class\n" ++
  "\n" ++
  "options:\n" ++
  "    --config CONF   YAML file with compiler configuration\n" ++
  "\n" ++
  "examples:\n" ++
  "    jackc compile Main.jack\n" ++
  "    jackc compile Main.jack --config strict.yaml\n" ++
  "    jackc tokens Main.jack\n" ++
  "    jackc trace Main.jack\n" ++
  "\n"

end JackCompiler
