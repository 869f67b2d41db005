import JackCompiler.Fault
import JackCompiler.Grammar.Event

/-!
# Code for single constructs

The instructions of the constructs that need no knowledge of the program around
them: constants, operators and accesses to a known variable.
-/

namespace JackCompiler

/-! ## Constants -/

def digitsValue (digits : List Char) : Nat :=
  digits.foldl (fun n d => 10 * n + (d.toNat - '0'.toNat)) 0

def integerValue? (lexeme : String) : Option UInt16 :=
  let n := digitsValue lexeme.toList
  if n ≤ maxConstant then some (UInt16.ofNat n) else none

/-- The first character whose code cannot be pushed, with its offset, that of
the text being `offset`. -/
def firstWide? (offset : Nat) : List Char → Option (Char × Nat)
  | [] => none
  | c :: cs =>
    if c.toNat ≤ maxConstant then firstWide? (offset + c.utf8Size) cs else some (c, offset)

def pushConstant (n : UInt16) : Instruction :=
  .push .constant n

def appendCode (c : Char) : List Instruction :=
  [pushConstant (UInt16.ofNat c.toNat), .call "String.appendChar" 2]

def textCode (text : List Char) : List Instruction :=
  pushConstant (UInt16.ofNat text.length) :: .call "String.new" 1 :: text.flatMap appendCode

def textCode? (literal : Token) : Except (Fault Nat) (List Instruction) :=
  let text := literal.lexeme.toList
  if text.length ≤ maxConstant then
    match firstWide? literal.span.index text with
    | none => .ok (textCode text)
    | some (c, offset) => .error (.charOutOfRange c offset)
  else
    .error (.stringTooLong text.length literal.span.index)

def wordCode : Word → List Instruction
  | .true => [pushConstant 0, .operate .not]
  | .false => [pushConstant 0]
  | .null => [pushConstant 0]
  | .this => [.push .pointer 0]

/-! ## Operators -/

def unaryCode : UnaryOp → List Instruction
  | .neg => [.operate .neg]
  | .not => [.operate .not]

def binaryCode : BinaryOp → List Instruction
  | .add => [.operate .add]
  | .sub => [.operate .sub]
  -- The machine has no instruction for these two.
  | .mul => [.call "Math.multiply" 2]
  | .div => [.call "Math.divide" 2]
  | .and => [.operate .and]
  | .or => [.operate .or]
  | .lt => [.operate .lt]
  | .gt => [.operate .gt]
  | .eq => [.operate .eq]

/-! ## Variables -/

def loadCode (v : Variable) : Instruction :=
  .push v.segment v.index

def storeCode (v : Variable) : Instruction :=
  .pop v.segment v.index

def addressCode (v : Variable) : List Instruction :=
  [loadCode v, .operate .add]

def loadElementCode (v : Variable) : List Instruction :=
  addressCode v ++ [.pop .pointer 1, .push .that 0]

def storeElementCode : List Instruction :=
  [.pop .temp 0, .pop .pointer 1, .push .temp 0, .pop .that 0]

/-! ## Objects -/

/-- What a subroutine does first to set up its object, if it is asked to: a
constructor allocates one, a method takes it from its first argument. -/
def setupCode (fields : UInt16) : SubroutineKind → List Instruction
  | .constructor => [pushConstant fields, .call "Memory.alloc" 1, .pop .pointer 0]
  | .method => [.push .argument 0, .pop .pointer 0]
  | .function => []

end JackCompiler
