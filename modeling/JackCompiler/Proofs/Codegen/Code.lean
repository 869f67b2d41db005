import JackCompiler.Codegen.Construct
import JackCompiler.Codegen.Step
import JackCompiler.Proofs.Machine.Blocks
import JackCompiler.Proofs.Scope.Declarations
import JackCompiler.Proofs.Syntax.Tree

/-!
# The code of a tree

The code of an expression depends only on what its names mean. The code of a block also
depends on the numbers of its first conditional and its first loop, from which its labels
are made.
-/

namespace JackCompiler

/-! ## Names -/

structure Names where
  className : String
  find? : String → Option Variable

namespace Names

def access (names : Names) (name : Token) (code : Variable → List Instruction) :
    List Instruction :=
  match names.find? name.lexeme with
  | some v => code v
  | none => []

def receiver (names : Names) : CallName → List Instruction
  | .own _ => [.push .pointer 0]
  | .member qualifier _ => names.access qualifier.token fun v => [loadCode v]

def receivers (names : Names) : CallName → Nat
  | .own _ => 1
  | .member qualifier _ => if (names.find? qualifier.token.lexeme).isSome then 1 else 0

def calleeName (names : Names) : CallName → String
  | .own name => memberText names.className name.token.lexeme
  | .member qualifier name =>
    match names.find? qualifier.token.lexeme with
    | some v => memberText v.type name.token.lexeme
    | none => memberText qualifier.token.lexeme name.token.lexeme

/-- The call of the target with `count` arguments besides the receiver, if a word holds the
number of values. -/
def call (names : Names) (target : CallName) (count : Nat) : List Instruction :=
  if h : count + names.receivers target < UInt16.size then
    [.call (names.calleeName target) (.ofNatLT _ h)]
  else []

theorem forall_mem_call {names : Names} {target : CallName} {P : Instruction → Prop}
    (h : ∀ values, P (.call (names.calleeName target) values)) (count : Nat) :
    ∀ i ∈ names.call target count, P i := by
  rw [call]
  split
  · exact List.forall_mem_singleton.mpr (h _)
  · exact List.forall_mem_nil _

end Names

/-! ## Expressions -/

mutual

def Term.code (names : Names) : Term → List Instruction
  | .integer literal => [pushConstant (UInt16.ofNat (digitsValue literal.token.lexeme.toList))]
  | .text literal => textCode literal.token.lexeme.toList
  | .word word => wordCode word
  | .unary op operand => operand.code names ++ unaryCode op
  | .group inner => inner.code names
  | .var name => names.access name.token fun v => [loadCode v]
  | .element array index => index.code names ++ names.access array.token loadElementCode
  | .call target arguments =>
    names.receiver target ++ arguments.code names ++ names.call target arguments.length

def Expression.code (names : Names) : Expression → List Instruction
  | .mk first rest => first.code names ++ rest.code names

def Operations.code (names : Names) : Operations → List Instruction
  | .nil => []
  | .cons op operand rest => operand.code names ++ binaryCode op ++ rest.code names

def Arguments.code (names : Names) : Arguments → List Instruction
  | .nil => []
  | .cons first rest => first.code names ++ rest.code names

end

/-! ## Statements -/

def labelText (scope : String) (role : LabelRole) (n : Nat) : String :=
  scope ++ (role.text ++ toString n)

def Target.code (names : Names) : Target → List Instruction
  | .var _ => []
  | .element array index => index.code names ++ names.access array.token addressCode

def Target.storeCode (names : Names) : Target → List Instruction
  | .var name => names.access name.token fun v => [JackCompiler.storeCode v]
  | .element _ _ => storeElementCode

def resultCode (names : Names) : Option Expression → List Instruction
  | some value => value.code names
  | none => [pushConstant 0]

def Block.ifs : Block → Nat
  | .empty => 0
  | .let_ _ _ next => next.ifs
  | .if_ _ yes next => yes.ifs + next.ifs + 1
  | .ifElse _ yes no next => yes.ifs + no.ifs + next.ifs + 1
  | .while_ _ body next => body.ifs + next.ifs
  | .do_ _ _ next => next.ifs
  | .return_ _ next => next.ifs

def Block.whiles : Block → Nat
  | .empty => 0
  | .let_ _ _ next => next.whiles
  | .if_ _ yes next => yes.whiles + next.whiles
  | .ifElse _ yes no next => yes.whiles + no.whiles + next.whiles
  | .while_ _ body next => body.whiles + next.whiles + 1
  | .do_ _ _ next => next.whiles
  | .return_ _ next => next.whiles

/-- The code of a block whose first conditional has the number `i` and whose first loop
has the number `w`. -/
def Block.code (names : Names) (scope : String) (i w : Nat) : Block → List Instruction
  | .empty => []
  | .let_ target value next =>
    target.code names ++ value.code names ++ target.storeCode names ++ next.code names scope i w
  | .if_ condition yes next =>
    condition.code names ++
    [.ifGoto (labelText scope .ifTrue i), .goto (labelText scope .ifFalse i),
      .label (labelText scope .ifTrue i)] ++
    yes.code names scope (i + 1) w ++
    [.label (labelText scope .ifFalse i)] ++
    next.code names scope (i + 1 + yes.ifs) (w + yes.whiles)
  | .ifElse condition yes no next =>
    condition.code names ++
    [.ifGoto (labelText scope .ifTrue i), .goto (labelText scope .ifFalse i),
      .label (labelText scope .ifTrue i)] ++
    yes.code names scope (i + 1) w ++
    [.goto (labelText scope .ifEnd i), .label (labelText scope .ifFalse i)] ++
    no.code names scope (i + 1 + yes.ifs) (w + yes.whiles) ++
    [.label (labelText scope .ifEnd i)] ++
    next.code names scope (i + 1 + yes.ifs + no.ifs) (w + yes.whiles + no.whiles)
  | .while_ condition body next =>
    [.label (labelText scope .whileExp w)] ++ condition.code names ++
    [.operate .not, .ifGoto (labelText scope .whileEnd w)] ++
    body.code names scope i (w + 1) ++
    [.goto (labelText scope .whileExp w), .label (labelText scope .whileEnd w)] ++
    next.code names scope (i + body.ifs) (w + 1 + body.whiles)
  | .do_ target arguments next =>
    names.receiver target ++ arguments.code names ++ names.call target arguments.length ++
    [.pop .temp 0] ++ next.code names scope i w
  | .return_ value next =>
    resultCode names value ++ [.return] ++ next.code names scope i w

/-! ## Declarations -/

def Declared.declarations (kind : VariableKind) (d : Declared) : List Declaration :=
  (d.first :: d.more).map fun name => ⟨kind, d.type.token.lexeme, name.token.lexeme⟩

def Parameter.declaration (p : Parameter) : Declaration :=
  ⟨.argument, p.type.token.lexeme, p.name.token.lexeme⟩

/-- How a subroutine sets up its object, in a class of so many fields. -/
def prologue (fields : Nat) : SubroutineKind → List Instruction
  | .constructor =>
    [.push .constant (UInt16.ofNat fields), .call "Memory.alloc" 1, .pop .pointer 0]
  | .method => [.push .argument 0, .pop .pointer 0]
  | .function => []

namespace ClassDec

def declarations (c : ClassDec) : List Declaration :=
  c.variableDecs.flatMap fun d => d.declared.declarations d.kind

def fieldCount (c : ClassDec) : Nat :=
  countOf .field c.declarations

def receiverDeclarations (c : ClassDec) (s : SubroutineDec) : List Declaration :=
  if s.kind = .method then [⟨.argument, c.name.token.lexeme, "this"⟩] else []

def localDeclarations (c : ClassDec) (s : SubroutineDec) : List Declaration :=
  c.receiverDeclarations s ++
  s.parameters.map Parameter.declaration ++ s.locals.flatMap (Declared.declarations .local)

def known (c : ClassDec) (s : SubroutineDec) : Known :=
  ⟨c.declarations.reverse, (c.localDeclarations s).reverse⟩

def names (c : ClassDec) (s : SubroutineDec) : Names :=
  ⟨c.name.token.lexeme, (c.known s).find?⟩

def subroutineName (c : ClassDec) (s : SubroutineDec) : String :=
  memberText c.name.token.lexeme s.name.token.lexeme

def labelScope (c : ClassDec) (o : Options) (s : SubroutineDec) : String :=
  if o.qualifyLabels then c.subroutineName s ++ "$" else ""

def setup (c : ClassDec) (o : Options) (s : SubroutineDec) : List Instruction :=
  if o.objectSetup then setupCode (UInt16.ofNat (countOf .field c.declarations)) s.kind else []

theorem setup_eq (c : ClassDec) (o : Options) (s : SubroutineDec) :
    c.setup o s = if o.objectSetup then prologue c.fieldCount s.kind else [] := by
  unfold setup
  cases s.kind <;> rfl

def bodyCode (c : ClassDec) (o : Options) (s : SubroutineDec) : List Instruction :=
  s.body.code (c.names s) (c.labelScope o s) 0 0

def block (c : ClassDec) (o : Options) (s : SubroutineDec) : CodeBlock :=
  ⟨c.subroutineName s, UInt16.ofNat (countOf .local (c.localDeclarations s)),
    c.setup o s ++ c.bodyCode o s⟩

def code (c : ClassDec) (o : Options) : List Instruction :=
  c.subroutines.flatMap fun s => (c.block o s).code

end ClassDec

end JackCompiler
