import JackCompiler.Machine.Instruction

/-!
# Variables

A variable is declared with a type and one of four kinds. The kind decides which
segment holds the variable and whether the whole class sees it or one
subroutine; the index is its place in the segment.
-/

namespace JackCompiler

inductive VariableKind
  | static | field | argument | local
deriving DecidableEq, Repr

namespace VariableKind

def all : List VariableKind :=
  [.static, .field, .argument, .local]

def text : VariableKind → String
  | .static => "static"
  | .field => "field"
  | .argument => "argument"
  | .local => "local"

def segment : VariableKind → Segment
  | .static => .static
  | .field => .this
  | .argument => .argument
  | .local => .local

def inClass : VariableKind → Bool
  | .static => true
  | .field => true
  | .argument => false
  | .local => false

end VariableKind

structure Variable where
  name : String
  type : String
  kind : VariableKind
  index : UInt16
deriving DecidableEq, Repr

def Variable.segment (v : Variable) : Segment :=
  v.kind.segment

end JackCompiler
