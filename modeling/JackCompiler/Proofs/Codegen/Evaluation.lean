import JackCompiler.Proofs.Codegen.Static
import JackCompiler.Proofs.Machine.Store

/-!
# Evaluation

What the statements of a subroutine do, said of their tree. Operators have no precedence:
an expression is folded from the left, each operand being evaluated when its turn comes.
Multiplication, division and the making of strings are calls.
-/

namespace JackCompiler

/-! ## Evaluations -/

/-- An evaluation may change the storage, and may be lost in a call. -/
abbrev Eval (World α : Type) : Type :=
  StateT (Store World) (Except (Call World)) α

namespace Eval

variable {World : Type}

def load (v : Variable) : Eval World UInt16 := do
  return (← get).read v

def store (v : Variable) (value : UInt16) : Eval World Unit :=
  modify fun s => s.write v value

def loadHeap (address : UInt16) : Eval World UInt16 := do
  return (← get).readHeap address

def storeHeap (address value : UInt16) : Eval World Unit :=
  modify fun s => s.writeHeap address value

def object : Eval World UInt16 := do
  return (← get).object

def invoke (w : Callees World) (name : String) (arguments : List UInt16) :
    Eval World UInt16 := fun s =>
  match w.result ⟨name, arguments, s.memory⟩ with
  | some (value, memory) => .ok (value, { s with memory })
  | none => .error ⟨name, arguments, s.memory⟩

def andThen {α : Type} (m : Eval World α) (next : α → Store World → Option (Ending World))
    (s : Store World) : Option (Ending World) :=
  match m s with
  | .ok (a, s) => next a s
  | .error call => some (.lost call)

end Eval

section

variable {World : Type} (w : Callees World)

/-! ## Operators and constants -/

def UnaryOp.value : UnaryOp → UInt16 → UInt16
  | .neg, a => -a
  | .not, a => ~~~a

def BinaryOp.eval : BinaryOp → UInt16 → UInt16 → Eval World UInt16
  | .add, a, b => return a + b
  | .sub, a, b => return a - b
  | .mul, a, b => Eval.invoke w "Math.multiply" [a, b]
  | .div, a, b => Eval.invoke w "Math.divide" [a, b]
  | .and, a, b => return a &&& b
  | .or, a, b => return a ||| b
  | .lt, a, b => return truth (a.toInt16 < b.toInt16)
  | .gt, a, b => return truth (b.toInt16 < a.toInt16)
  | .eq, a, b => return truth (a = b)

def appendText : List Char → UInt16 → Eval World UInt16
  | [], text => return text
  | c :: cs, text => do
    let text ← Eval.invoke w "String.appendChar" [text, UInt16.ofNat c.toNat]
    appendText cs text

def evalText (text : List Char) : Eval World UInt16 := do
  let empty ← Eval.invoke w "String.new" [UInt16.ofNat text.length]
  appendText w text empty

def Word.eval : Word → Eval World UInt16
  | .true => return truth True
  | .false => return truth False
  | .null => return 0
  | .this => Eval.object

/-! ## Names -/

variable (names : Names)

def Names.load (name : Token) : Eval World UInt16 :=
  match names.find? name.lexeme with
  | some v => Eval.load v
  | none => return 0

def Names.store (name : Token) (value : UInt16) : Eval World Unit :=
  match names.find? name.lexeme with
  | some v => Eval.store v value
  | none => return ()

def Names.evalReceiver : CallName → Eval World (List UInt16)
  | .own _ => do
    return [← Eval.object]
  | .member qualifier _ =>
    match names.find? qualifier.token.lexeme with
    | some v => do
      return [← Eval.load v]
    | none => return []

/-! ## Expressions -/

mutual

def Term.eval : Term → Eval World UInt16
  | .integer literal => return UInt16.ofNat (decimalValue literal.token.lexeme.toList)
  | .text literal => evalText w literal.token.lexeme.toList
  | .word word => word.eval
  | .unary op operand => do
    let value ← operand.eval
    return op.value value
  | .group inner => inner.eval
  | .var name => names.load name.token
  | .element array index => do
    let i ← index.eval
    let base ← names.load array.token
    Eval.loadHeap (i + base)
  | .call target arguments => do
    let receiver ← names.evalReceiver target
    let values ← arguments.eval
    Eval.invoke w (names.calleeName target) (receiver ++ values)

def Expression.eval : Expression → Eval World UInt16
  | .mk first rest => do
    let value ← first.eval
    rest.eval value

def Operations.eval : Operations → UInt16 → Eval World UInt16
  | .nil, value => return value
  | .cons op operand rest, value => do
    let operand ← operand.eval
    let value ← op.eval w value operand
    rest.eval value

def Arguments.eval : Arguments → Eval World (List UInt16)
  | .nil => return []
  | .cons first rest => do
    let value ← first.eval
    let values ← rest.eval
    return value :: values

end

/-! ## Statements -/

def evalAssignment : Target → Expression → Eval World Unit
  | .var name, value => do
    let result ← value.eval w names
    names.store name.token result
  | .element array index, value => do
    let i ← index.eval w names
    let base ← names.load array.token
    let result ← value.eval w names
    Eval.storeHeap (i + base) result

def evalResult : Option Expression → Eval World UInt16
  | some value => value.eval w names
  | none => return 0

def Ending.andThen (next : Store World → Option (Ending World)) :
    Option (Ending World) → Option (Ending World)
  | some (.next s) => next s
  | ending => ending

def loop (test : Eval World UInt16) (body : Store World → Option (Ending World)) :
    Nat → Store World → Option (Ending World)
  | 0 => fun _ => none
  | rounds + 1 => test.andThen fun value s =>
    if ~~~value = 0 then Ending.andThen (loop test body rounds) (body s) else some (.next s)

/-- Runs the statements, giving up on a loop when it has made so many rounds. -/
def Block.run (rounds : Nat) : Block → Store World → Option (Ending World)
  | .empty => fun s => some (.next s)
  | .let_ target value next => (evalAssignment w names target value).andThen fun _ s =>
    next.run rounds s
  | .if_ condition yes next => (condition.eval w names).andThen fun value s =>
    Ending.andThen (next.run rounds) (if value ≠ 0 then yes.run rounds s else some (.next s))
  | .ifElse condition yes no next => (condition.eval w names).andThen fun value s =>
    Ending.andThen (next.run rounds) (if value ≠ 0 then yes.run rounds s else no.run rounds s)
  | .while_ condition body next => fun s =>
    Ending.andThen (next.run rounds) (loop (condition.eval w names) (body.run rounds) rounds s)
  | .do_ target arguments next => ((Term.call target arguments).eval w names).andThen fun _ s =>
    next.run rounds s
  | .return_ value _ => (evalResult w names value).andThen fun value s =>
    some (.returned value s)

end

end JackCompiler
