import JackCompiler.Grammar.Goal

/-!
# Syntax trees

A class as a tree. The tree keeps the tokens whose text matters, which are names,
types and constants; the punctuation and the keywords between them follow from its
shape. A block is a sequence of statements, the first one at its head.
-/

namespace JackCompiler

/-- A token of one of the given kinds. -/
structure Leaf (kinds : List Terminal) where
  token : Token
  kind_mem : token.kind ∈ kinds

abbrev Name := Leaf [.ident]

inductive CallName
  | own (name : Name)
  | member (qualifier name : Name)

def CallName.callee : CallName → Callee
  | .own name => .own name.token
  | .member qualifier name => .member qualifier.token name.token

/-! ## Expressions -/

mutual

inductive Term
  | integer (literal : Leaf [.number])
  | text (literal : Leaf [.text])
  | word (word : Word)
  | unary (op : UnaryOp) (operand : Term)
  | group (inner : Expression)
  | var (name : Name)
  | element (array : Name) (index : Expression)
  | call (target : CallName) (arguments : Arguments)

inductive Expression
  | mk (first : Term) (rest : Operations)

/-- Operations on the value of what stands before them, to be done in order. -/
inductive Operations
  | nil
  | cons (op : BinaryOp) (operand : Term) (rest : Operations)

inductive Arguments
  | nil
  | cons (first : Expression) (rest : Arguments)

end

def Arguments.length : Arguments → Nat
  | .nil => 0
  | .cons _ rest => rest.length + 1

/-! ## Statements -/

inductive Target
  | var (name : Name)
  | element (array : Name) (index : Expression)

inductive Block
  | empty
  | let_ (target : Target) (value : Expression) (next : Block)
  | if_ (condition : Expression) (yes next : Block)
  | ifElse (condition : Expression) (yes no next : Block)
  | while_ (condition : Expression) (body next : Block)
  | do_ (target : CallName) (arguments : Arguments) (next : Block)
  | return_ (value : Option Expression) (next : Block)

/-! ## Calls -/

structure CallSite where
  target : CallName
  count : Nat

mutual

def Term.calls : Term → List CallSite
  | .integer _ => []
  | .text _ => []
  | .word _ => []
  | .unary _ operand => operand.calls
  | .group inner => inner.calls
  | .var _ => []
  | .element _ index => index.calls
  | .call target arguments => ⟨target, arguments.length⟩ :: arguments.calls

def Expression.calls : Expression → List CallSite
  | .mk first rest => first.calls ++ rest.calls

def Operations.calls : Operations → List CallSite
  | .nil => []
  | .cons _ operand rest => operand.calls ++ rest.calls

def Arguments.calls : Arguments → List CallSite
  | .nil => []
  | .cons first rest => first.calls ++ rest.calls

end

def Target.calls : Target → List CallSite
  | .var _ => []
  | .element _ index => index.calls

def resultCalls : Option Expression → List CallSite
  | some value => value.calls
  | none => []

def Block.calls : Block → List CallSite
  | .empty => []
  | .let_ target value next => target.calls ++ value.calls ++ next.calls
  | .if_ condition yes next => condition.calls ++ yes.calls ++ next.calls
  | .ifElse condition yes no next => condition.calls ++ yes.calls ++ no.calls ++ next.calls
  | .while_ condition body next => condition.calls ++ body.calls ++ next.calls
  | .do_ target arguments next => ⟨target, arguments.length⟩ :: arguments.calls ++ next.calls
  | .return_ value next => resultCalls value ++ next.calls

/-! ## Declarations -/

structure Declared where
  type : Leaf variableTypes
  first : Name
  more : List Name

structure ClassVarDec where
  kind : VariableKind
  inClass : kind.inClass = true
  declared : Declared

structure Parameter where
  type : Leaf variableTypes
  name : Name

structure SubroutineDec where
  kind : SubroutineKind
  result : Leaf resultTypes
  name : Name
  parameters : List Parameter
  locals : List Declared
  body : Block

structure ClassDec where
  name : Name
  variableDecs : List ClassVarDec
  subroutines : List SubroutineDec

/-! ## Terminals of operators and kinds -/

def BinaryOp.mark : BinaryOp → Mark
  | .add => .plus
  | .sub => .minus
  | .mul => .star
  | .div => .slash
  | .and => .amp
  | .or => .pipe
  | .lt => .lt
  | .gt => .gt
  | .eq => .eq

def UnaryOp.mark : UnaryOp → Mark
  | .neg => .minus
  | .not => .tilde

def Word.keyword : Word → Keyword
  | .true => .true_
  | .false => .false_
  | .null => .null
  | .this => .this_

def SubroutineKind.keyword : SubroutineKind → Keyword
  | .constructor => .constructor
  | .function => .function
  | .method => .method

def VariableKind.keyword : VariableKind → Keyword
  | .field => .field
  | _ => .static

theorem BinaryOp.ofTerminal?_eq_some_iff {kind : Terminal} {op : BinaryOp} :
    ofTerminal? kind = some op ↔ kind = .mark op.mark := by
  constructor
  · intro h
    unfold ofTerminal? at h
    split at h <;> cases h <;> rfl
  · rintro rfl
    cases op <;> rfl

theorem SubroutineKind.ofTerminal?_eq_some_iff {kind : Terminal} {k : SubroutineKind} :
    ofTerminal? kind = some k ↔ kind = .keyword k.keyword := by
  constructor
  · intro h
    unfold ofTerminal? at h
    split at h <;> cases h <;> rfl
  · rintro rfl
    cases k <;> rfl

theorem VariableKind.ofTerminal?_eq_some_iff {kind : Terminal} {k : VariableKind} :
    ofTerminal? kind = some k ↔ k.inClass = true ∧ kind = .keyword k.keyword := by
  constructor
  · intro h
    unfold ofTerminal? at h
    split at h <;> cases h <;> exact ⟨rfl, rfl⟩
  · rintro ⟨hk, rfl⟩
    cases k with
    | static | field => rfl
    | argument | «local» => cases hk

end JackCompiler
