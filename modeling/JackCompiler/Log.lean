import JackCompiler.Grammar.Event
import JackCompiler.Machine.Text
import JackCompiler.Text.Quoted

/-!
# The log

What a compilation reports on its way, each entry at a level of severity.
-/

namespace JackCompiler

inductive Level
  | error | warn | info | debug | trace
deriving DecidableEq, Repr

namespace Level

def all : List Level :=
  [.error, .warn, .info, .debug, .trace]

def name : Level → String
  | .error => "ERROR"
  | .warn => "WARN"
  | .info => "INFO"
  | .debug => "DEBUG"
  | .trace => "TRACE"

/-- Zero for the most severe level. -/
def rank : Level → Nat
  | .error => 0
  | .warn => 1
  | .info => 2
  | .debug => 3
  | .trace => 4

end Level

structure Entry where
  level : Level
  message : String
deriving DecidableEq, Repr

def Entry.text (e : Entry) : String :=
  e.level.name ++ " " ++ e.message

def Entry.reaches (e : Entry) (least : Level) : Bool :=
  e.level.rank ≤ least.rank

def Skipped.entry (s : Skipped) : Entry :=
  ⟨.warn, "skipping unexpected character " ++ quoted s.char ++ " at byte " ++ toString s.offset⟩

def Instruction.entry (i : Instruction) : Entry :=
  ⟨.trace, "emit: " ++ i.text⟩

def SubroutineKind.title : SubroutineKind → String
  | .constructor => "Constructor"
  | .function => "Function"
  | .method => "Method"

def classEntry (name : String) : Entry :=
  ⟨.debug, "compiling class " ++ name⟩

def subroutineEntry (kind : SubroutineKind) (name : String) (locals : UInt16) : Entry :=
  ⟨.debug, "compiled " ++ kind.title ++ " " ++ name ++ " with " ++ toString locals.toNat ++
    " locals"⟩

end JackCompiler
