/-!
# Stack machine instructions

The machine has an operand stack and eight storage segments. Its operands are
16-bit words.
-/

namespace JackCompiler

inductive Segment
  | constant | argument | local | static | this | that | pointer | temp
deriving DecidableEq, Repr

namespace Segment

def all : List Segment :=
  [.constant, .argument, .local, .static, .this, .that, .pointer, .temp]

def text : Segment → String
  | .constant => "constant"
  | .argument => "argument"
  | .local => "local"
  | .static => "static"
  | .this => "this"
  | .that => "that"
  | .pointer => "pointer"
  | .temp => "temp"

end Segment

inductive Operation
  | add | sub | neg | eq | gt | lt | and | or | not
deriving DecidableEq, Repr

namespace Operation

def all : List Operation :=
  [.add, .sub, .neg, .eq, .gt, .lt, .and, .or, .not]

def text : Operation → String
  | .add => "add"
  | .sub => "sub"
  | .neg => "neg"
  | .eq => "eq"
  | .gt => "gt"
  | .lt => "lt"
  | .and => "and"
  | .or => "or"
  | .not => "not"

end Operation

inductive Instruction
  | push (segment : Segment) (index : UInt16)
  | pop (segment : Segment) (index : UInt16)
  | operate (operation : Operation)
  | label (name : String)
  | goto (name : String)
  | ifGoto (name : String)
  | call (name : String) (arguments : UInt16)
  | function (name : String) (locals : UInt16)
  | return
deriving DecidableEq, Repr

end JackCompiler
