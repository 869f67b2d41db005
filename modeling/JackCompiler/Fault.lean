import JackCompiler.Scope.Variable
import JackCompiler.Text.Quoted
import JackCompiler.Text.Utf8
import JackCompiler.Token.Basic

/-!
# Faults

Why a source is not compiled. The compiler places a fault by a byte offset, a
report by line and column; `Fault.map` turns one into the other.
-/

namespace JackCompiler

inductive Fault (Place : Type)
  | unexpected (expected : List Terminal) (found : Token) (place : Place)
  | endOfSource
  | undefined (name : String) (place : Place)
  | duplicate (name : String) (kind : VariableKind)
  | unknownCallee (name : String) (place : Place)
  | integerOutOfRange (lexeme : String) (place : Place)
  | stringTooLong (length : Nat) (place : Place)
  | charOutOfRange (char : Char) (place : Place)
  | tooMany (name : String) (kind : VariableKind)
  /-- More arguments than a word counts: the compiler panics. -/
  | overflow
  | file (message : String)
  | encoding (fault : Utf8.Fault)
  | format
deriving DecidableEq, Repr

/-- The largest number that an instruction can push. -/
def maxConstant : Nat := 32767

namespace Fault

def map {α β : Type} (f : α → β) : Fault α → Fault β
  | .unexpected expected found place => .unexpected expected found (f place)
  | .endOfSource => .endOfSource
  | .undefined name place => .undefined name (f place)
  | .duplicate name kind => .duplicate name kind
  | .unknownCallee name place => .unknownCallee name (f place)
  | .integerOutOfRange lexeme place => .integerOutOfRange lexeme (f place)
  | .stringTooLong length place => .stringTooLong length (f place)
  | .charOutOfRange char place => .charOutOfRange char (f place)
  | .tooMany name kind => .tooMany name kind
  | .overflow => .overflow
  | .file message => .file message
  | .encoding fault => .encoding fault
  | .format => .format

/-! ## Messages -/

def describeToken (t : Token) : String :=
  match t.kind with
  | .ident | .number | .text => t.kind.describe ++ " \"" ++ t.lexeme ++ "\""
  | _ => t.kind.describe

def describeExpected : List Terminal → String
  | [] => ""
  | [t] => ", expected " ++ t.describe
  | ts => ", expected one of: " ++ ", ".intercalate (ts.map Terminal.describe)

def message : Fault Position → String
  | .unexpected expected found place =>
    place.text ++ ": encountered unexpected " ++ describeToken found ++ describeExpected expected
  | .endOfSource => "unexpected end of source code"
  | .undefined name place => place.text ++ ": undefined variable '" ++ name ++ "'"
  | .duplicate name kind => kind.text ++ " '" ++ name ++ "' is already defined in this scope"
  | .unknownCallee name place =>
    place.text ++ ": '" ++ name ++ "' is neither a variable nor a known class"
  | .integerOutOfRange lexeme place =>
    place.text ++ ": integer constant " ++ lexeme ++ " is out of range 0..=" ++
      toString maxConstant
  | .stringTooLong length place =>
    place.text ++ ": string constant of " ++ toString length ++ " characters is longer than " ++
      toString maxConstant
  | .charOutOfRange char place =>
    place.text ++ ": character " ++ quoted char ++ " in string constant is out of range 0..=" ++
      toString maxConstant
  | .tooMany name kind =>
    kind.text ++ " '" ++ name ++ "' exceeds the maximum number of " ++ kind.text ++ " variables"
  | .overflow => "attempt to add with overflow"
  | .file message => message
  | .encoding fault => fault.message
  | .format => "an error occurred when formatting an argument"

end Fault

end JackCompiler
