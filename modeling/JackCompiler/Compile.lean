import JackCompiler.Codegen.Step
import JackCompiler.Grammar.Parse

/-!
# Compiling a class

Scanning, parsing and generating code in a row. All that a compilation shows is read
off one history of effects: its program, its grammar trace and its log.
-/

namespace JackCompiler

structure Compiled where
  program : List Instruction
  trace : Option String
deriving DecidableEq, Repr

namespace History

def program (h : History) : List Instruction :=
  h.effects.toList.filterMap Effect.instruction?

def traceLines (h : History) : List TraceLine :=
  h.effects.toList.filterMap Effect.line?

def log (h : History) : List Entry :=
  h.effects.toList.filterMap Effect.entry?

def traceText (h : History) : String :=
  joinLines (h.traceLines.map TraceLine.text)

end History

/-- The tokens of a source, through the last one, which is `finish`. -/
def tokenize (source : String) : List Token :=
  (scan source.toList).toList.map Scanned.token

def history (o : Options) (source : String) : History :=
  generate o (parse (scan source.toList).toList).toList

def compile (o : Options) (source : String) : Except (Fault Position) Compiled :=
  let h := history o source
  match h.fault with
  | none => .ok ⟨h.program, if o.trace then some h.traceText else none⟩
  | some fault => .error (fault.map (Position.ofOffset source.toList))

def compileToText (source : String) : Except (Fault Position) String :=
  (compile {} source).map fun compiled => programText compiled.program

end JackCompiler
