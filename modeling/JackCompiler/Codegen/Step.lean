import JackCompiler.Codegen.Construct
import JackCompiler.Log
import JackCompiler.Options.Basic

/-!
# Code generation

The generator carries out a class's events in order. Each changes what the
generator knows and has effects: instructions, lines of the grammar trace and
entries of the log. The first event that cannot be carried out is the class's
fault, and has no effects.
-/

namespace JackCompiler

/-! ## Effects -/

inductive TraceLine
  | enter (rule : Rule)
  | leave (rule : Rule)
  | leaf (token : Token)
deriving DecidableEq, Repr

def TraceLine.text : TraceLine → String
  | .enter rule => "<" ++ rule.name ++ ">"
  | .leave rule => "</" ++ rule.name ++ ">"
  | .leaf token => token.markup

inductive Effect
  | emit (instruction : Instruction)
  | record (line : TraceLine)
  | skip (skipped : Skipped)
  | beginClass (name : String)
  | endSubroutine (kind : SubroutineKind) (name : String) (locals : UInt16)
deriving DecidableEq, Repr

namespace Effect

def instruction? : Effect → Option Instruction
  | .emit i => some i
  | _ => none

def line? : Effect → Option TraceLine
  | .record l => some l
  | _ => none

def entry? : Effect → Option Entry
  | .emit i => some i.entry
  | .record _ => none
  | .skip s => some s.entry
  | .beginClass name => some (classEntry name)
  | .endSubroutine kind name locals => some (subroutineEntry kind name locals)

end Effect

/-! ## Labels -/

inductive LabelRole
  | ifTrue | ifFalse | ifEnd | whileExp | whileEnd
deriving DecidableEq, Repr

def LabelRole.text : LabelRole → String
  | .ifTrue => "IF_TRUE"
  | .ifFalse => "IF_FALSE"
  | .ifEnd => "IF_END"
  | .whileExp => "WHILE_EXP"
  | .whileEnd => "WHILE_END"

/-! ## Knowledge -/

/-- What the generator knows between two events. -/
structure Context where
  className : String
  subroutine : String
  scopes : Scopes
  ifs : Nat
  whiles : Nat
  /-- The numbers of the conditionals and loops around this place, inner first. -/
  nesting : List Nat

namespace Context

def initial (o : Options) : Context :=
  ⟨"", "", .empty o.duplicates, 0, 0, []⟩

def number (c : Context) : Nat :=
  c.nesting.headD 0

def label (c : Context) (o : Options) (role : LabelRole) : String :=
  let name := role.text ++ toString c.number
  if o.qualifyLabels then c.subroutine ++ "$" ++ name else name

def resolve (c : Context) (name : Token) : Except (Fault Nat) Variable :=
  match c.scopes.find? name.lexeme with
  | some v => .ok v
  | none => .error (.undefined name.lexeme name.span.index)

/-- Whether a call may be qualified by the name, which is no variable's. -/
def mayCall (c : Context) (o : Options) (name : String) : Bool :=
  !o.strict || name == c.className || o.knownClasses.contains name

def declare (c : Context) (name type : String) (kind : VariableKind) :
    Except (Fault Nat) Context := do
  let (_, scopes) ← c.scopes.declare name type kind
  return { c with scopes }

end Context

/-! ## Calls -/

def memberText (owner name : String) : String :=
  owner ++ "." ++ name

/-- The receiver of a call: the current object for a subroutine of the class's
own, the variable that qualifies the call, or none if a class does. -/
def receiverCode (o : Options) (c : Context) :
    Callee → Except (Fault Nat) (List Instruction)
  | .own _ => .ok [.push .pointer 0]
  | .member qualifier _ =>
    match c.scopes.find? qualifier.lexeme with
    | some v => .ok [loadCode v]
    | none =>
      if c.mayCall o qualifier.lexeme then .ok []
      else .error (.unknownCallee qualifier.lexeme qualifier.span.index)

def argumentCount (n : Nat) : Except (Fault Nat) UInt16 :=
  if h : n < UInt16.size then .ok (.ofNatLT n h) else .error .overflow

def callCode (c : Context) (arguments : Nat) : Callee → Except (Fault Nat) Instruction
  | .own name => (argumentCount (arguments + 1)).map (.call (memberText c.className name.lexeme))
  | .member qualifier name =>
    match c.scopes.find? qualifier.lexeme with
    | some v => (argumentCount (arguments + 1)).map (.call (memberText v.type name.lexeme))
    | none => (argumentCount arguments).map (.call (memberText qualifier.lexeme name.lexeme))

/-! ## Actions -/

/-- Carries out an action: the knowledge after it and its effects. -/
def perform (o : Options) (c : Context) : Action → Except (Fault Nat) (Context × List Effect)
  | .nameClass name => .ok ({ c with className := name.lexeme }, [.beginClass name.lexeme])
  | .declare kind type name => do
    let c ← c.declare name.lexeme type.lexeme kind
    return (c, [])
  | .startSubroutine =>
    .ok ({ c with scopes := c.scopes.startSubroutine, ifs := 0, whiles := 0, nesting := [] }, [])
  | .receiveObject => do
    let c ← c.declare "this" c.className .argument
    return (c, [])
  | .nameSubroutine name =>
    .ok ({ c with subroutine := memberText c.className name.lexeme }, [])
  | .startBody kind =>
    let header := Instruction.function c.subroutine (c.scopes.count .local)
    let setup := if o.objectSetup then setupCode (c.scopes.count .field) kind else []
    .ok (c, (header :: setup).map .emit)
  | .endBody kind => .ok (c, [.endSubroutine kind c.subroutine (c.scopes.count .local)])
  | .pushInteger literal =>
    match integerValue? literal.lexeme with
    | some n => .ok (c, [.emit (pushConstant n)])
    | none => .error (.integerOutOfRange literal.lexeme literal.span.index)
  | .pushText literal => do
    let code ← textCode? literal
    return (c, code.map .emit)
  | .pushWord word => .ok (c, (wordCode word).map .emit)
  | .unary op => .ok (c, (unaryCode op).map .emit)
  | .binary op => .ok (c, (binaryCode op).map .emit)
  | .resolve name => do
    let _ ← c.resolve name
    return (c, [])
  | .load name => do
    let v ← c.resolve name
    return (c, [.emit (loadCode v)])
  | .store name => do
    let v ← c.resolve name
    return (c, [.emit (storeCode v)])
  | .loadElement name => do
    let v ← c.resolve name
    return (c, (loadElementCode v).map .emit)
  | .addressElement name => do
    let v ← c.resolve name
    return (c, (addressCode v).map .emit)
  | .storeElement => .ok (c, storeElementCode.map .emit)
  | .pushReceiver callee => do
    let code ← receiverCode o c callee
    return (c, code.map .emit)
  -- The number is only tested; the call emits it.
  | .countArguments n => do
    let _ ← argumentCount n
    return (c, [])
  | .call callee arguments => do
    let call ← callCode c arguments callee
    return (c, [.emit call])
  -- A call in a statement has a result too, which nothing uses.
  | .discard => .ok (c, [.emit (.pop .temp 0)])
  | .pushNoResult => .ok (c, [.emit (pushConstant 0)])
  | .leaveSubroutine => .ok (c, [.emit .return])
  | .startIf => .ok ({ c with ifs := c.ifs + 1, nesting := c.ifs :: c.nesting }, [])
  | .branchIf =>
    .ok (c,
      [.emit (.ifGoto (c.label o .ifTrue)), .emit (.goto (c.label o .ifFalse)),
        .emit (.label (c.label o .ifTrue))])
  | .elseIf =>
    .ok (c, [.emit (.goto (c.label o .ifEnd)), .emit (.label (c.label o .ifFalse))])
  | .endElse => .ok ({ c with nesting := c.nesting.tail }, [.emit (.label (c.label o .ifEnd))])
  | .endIf => .ok ({ c with nesting := c.nesting.tail }, [.emit (.label (c.label o .ifFalse))])
  | .startWhile =>
    let c := { c with whiles := c.whiles + 1, nesting := c.whiles :: c.nesting }
    .ok (c, [.emit (.label (c.label o .whileExp))])
  | .testWhile => .ok (c, [.emit (.operate .not), .emit (.ifGoto (c.label o .whileEnd))])
  | .endWhile =>
    .ok ({ c with nesting := c.nesting.tail },
      [.emit (.goto (c.label o .whileExp)), .emit (.label (c.label o .whileEnd))])

/-! ## Events -/

def step (o : Options) (c : Context) : Event → Except (Fault Nat) (Context × List Effect)
  | .note (.enter rule) => .ok (c, [.record (.enter rule)])
  | .note (.leave rule) => .ok (c, [.record (.leave rule)])
  | .note (.act action) => perform o c action
  | .look skipped => .ok (c, skipped.map .skip)
  | .take token => .ok (c, [.record (.leaf token)])
  | .refuse expected found => .error (.unexpected expected found found.span.index)
  | .exhausted => .error .endOfSource

structure History where
  effects : Array Effect
  fault : Option (Fault Nat)

/-- Carries out the events after those whose effects are in `done`. -/
def generateFrom (o : Options) (done : Array Effect) (c : Context) : List Event → History
  | [] => ⟨done, none⟩
  | e :: es =>
    match step o c e with
    | .error fault => ⟨done, some fault⟩
    | .ok (c, effects) => generateFrom o (done ++ effects) c es

theorem generateFrom_eq (o : Options) (done : Array Effect) (c : Context) (es : List Event) :
    generateFrom o done c es =
      ⟨done ++ (generateFrom o #[] c es).effects, (generateFrom o #[] c es).fault⟩ := by
  induction es generalizing done c with
  | nil => simp [generateFrom]
  | cons e es ih =>
    simp only [generateFrom]
    split
    · simp
    · rw [ih, ih (#[] ++ _)]
      simp [← Array.toList_inj]

def generate (o : Options) (events : List Event) : History :=
  generateFrom o #[] (.initial o) events

end JackCompiler
