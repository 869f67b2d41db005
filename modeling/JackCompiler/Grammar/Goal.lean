import JackCompiler.Grammar.Event

/-!
# The grammar, one token ahead

A goal is a part of the grammar still to be read; it carries the tokens read
before that its actions need. The next token decides what becomes of a goal: it
begins with that token, it is empty, or it cannot be met. So the parser's choices
depend on the kinds of the tokens alone.
-/

namespace JackCompiler

inductive Goal
  | only (kind : Terminal)
  | className
  | classVars
  | declaredType (kind : VariableKind)
  | declaredName (kind : VariableKind) (type : Token)
  | moreNames (kind : VariableKind) (type : Token)
  | subroutines
  | resultType
  | subroutineName
  | parameters
  | parameterType
  | moreParameters
  | locals
  | statements
  | letTarget
  | letRest (target : Token)
  | elseBranch
  | callName
  | callRest (name : Token)
  | memberName (qualifier : Token)
  | arguments (callee : Callee)
  | moreArguments (callee : Callee) (count : Nat)
  | result
  | expression
  | operators
  | term
  | termRest (name : Token)
deriving DecidableEq, Repr

/-- What is left to do: goals to read, and notes to make on the way. -/
inductive Item
  | goal (goal : Goal)
  | note (note : Note)
deriving DecidableEq, Repr

/-- What the next token makes of a goal, the notes being made before that. -/
inductive Move
  | take (before : List Note) (after : List Item)
  /-- The goal is empty; the token belongs to what follows. -/
  | pass (before : List Note)
  | refuse (before : List Note) (expected : List Terminal)

namespace Item

def mark (m : Mark) : Item := .goal (.only (.mark m))
def enter (r : Rule) : Item := .note (.enter r)
def leave (r : Rule) : Item := .note (.leave r)
def act (a : Action) : Item := .note (.act a)

end Item

/-! ## Terminals that stand for something -/

def VariableKind.ofTerminal? : Terminal → Option VariableKind
  | .keyword .static => some .static
  | .keyword .field => some .field
  | _ => none

def SubroutineKind.ofTerminal? : Terminal → Option SubroutineKind
  | .keyword .constructor => some .constructor
  | .keyword .function => some .function
  | .keyword .method => some .method
  | _ => none

def BinaryOp.ofTerminal? : Terminal → Option BinaryOp
  | .mark .plus => some .add
  | .mark .minus => some .sub
  | .mark .star => some .mul
  | .mark .slash => some .div
  | .mark .amp => some .and
  | .mark .pipe => some .or
  | .mark .lt => some .lt
  | .mark .gt => some .gt
  | .mark .eq => some .eq
  | _ => none

def variableTypes : List Terminal :=
  [.keyword .int, .keyword .char, .keyword .boolean, .ident]

def resultTypes : List Terminal :=
  [.keyword .void, .keyword .int, .keyword .char, .keyword .boolean, .ident]

def termStarts : List Terminal :=
  [.number, .text, .keyword .true_, .keyword .false_, .keyword .null, .keyword .this_,
    .mark .minus, .mark .tilde, .mark .leftParen, .ident]

/-! ## Parts that follow a token -/

def argumentItems (callee : Callee) : List Item :=
  [.enter .expressionList, .goal (.arguments callee)]

/-- A condition in parentheses, `tested` being done with its value, and a block. -/
def guardedItems (tested : Action) : List Item :=
  [.mark .leftParen, .goal .expression, .mark .rightParen, .act tested,
    .mark .leftBrace, .enter .statements, .goal .statements, .leave .statements,
    .mark .rightBrace]

def subroutineItems (kind : SubroutineKind) : List Item :=
  (if kind = .method then [.act .receiveObject] else []) ++
  [.goal .resultType, .goal .subroutineName, .mark .leftParen,
    .enter .parameterList, .goal .parameters, .leave .parameterList, .mark .rightParen,
    .enter .subroutineBody, .mark .leftBrace, .goal .locals, .act (.startBody kind),
    .enter .statements, .goal .statements, .leave .statements,
    .mark .rightBrace, .leave .subroutineBody, .act (.endBody kind), .leave .subroutineDec]

def classItems : List Item :=
  [.enter .classDec, .goal (.only (.keyword .class_)), .goal .className, .mark .leftBrace,
    .goal .classVars, .goal .subroutines, .mark .rightBrace, .leave .classDec]

/-! ## Moves -/

def oneOf (kinds : List Terminal) (t : Token) (after : List Item) : Move :=
  if t.kind ∈ kinds then .take [] after else .refuse [] kinds

def statementsMove (t : Token) : Move :=
  match t.kind with
  | .keyword .let_ =>
    .take [.enter .letStatement]
      [.goal .letTarget, .mark .semicolon, .leave .letStatement, .goal .statements]
  | .keyword .if_ =>
    .take [.enter .ifStatement, .act .startIf]
      (guardedItems .branchIf ++ [.goal .elseBranch, .leave .ifStatement, .goal .statements])
  | .keyword .while_ =>
    .take [.enter .whileStatement, .act .startWhile]
      (guardedItems .testWhile ++ [.act .endWhile, .leave .whileStatement, .goal .statements])
  | .keyword .do_ =>
    .take [.enter .doStatement]
      [.goal .callName, .mark .semicolon, .act .discard, .leave .doStatement, .goal .statements]
  | .keyword .return_ =>
    .take [.enter .returnStatement]
      [.goal .result, .mark .semicolon, .act .leaveSubroutine, .leave .returnStatement,
        .goal .statements]
  | _ => .pass []

/-- A term that begins with `t`, inside of `outer` and before `after`. -/
def termMove (outer : List Note) (t : Token) (after : List Item) : Move :=
  let before := outer ++ [.enter .term]
  let ends := fun items : List Item => items ++ .leave .term :: after
  match t.kind with
  | .number => .take before (ends [.act (.pushInteger t)])
  | .text => .take before (ends [.act (.pushText t)])
  | .keyword .true_ => .take before (ends [.act (.pushWord .true)])
  | .keyword .false_ => .take before (ends [.act (.pushWord .false)])
  | .keyword .null => .take before (ends [.act (.pushWord .null)])
  | .keyword .this_ => .take before (ends [.act (.pushWord .this)])
  | .mark .minus => .take before (ends [.goal .term, .act (.unary .neg)])
  | .mark .tilde => .take before (ends [.goal .term, .act (.unary .not)])
  | .mark .leftParen => .take before (ends [.goal .expression, .mark .rightParen])
  | .ident => .take before (ends [.goal (.termRest t)])
  | _ => .refuse before termStarts

def expressionMove (outer : List Note) (t : Token) (after : List Item) : Move :=
  termMove (outer ++ [.enter .expression]) t
    (.goal .operators :: .leave .expression :: after)

namespace Goal

/-- What becomes of the goal when the next token is `t`. -/
def move (g : Goal) (t : Token) : Move :=
  match g with
  | .only kind => oneOf [kind] t []
  | .className => oneOf [.ident] t [.act (.nameClass t)]
  | .classVars =>
    match VariableKind.ofTerminal? t.kind with
    | some kind =>
      .take [.enter .classVarDec]
        [.goal (.declaredType kind), .leave .classVarDec, .goal .classVars]
    | none => .pass []
  | .declaredType kind =>
    oneOf variableTypes t
      [.goal (.declaredName kind t), .goal (.moreNames kind t), .mark .semicolon]
  | .declaredName kind type => oneOf [.ident] t [.act (.declare kind type t)]
  | .moreNames kind type =>
    if t.kind = .mark .comma then
      .take [] [.goal (.declaredName kind type), .goal (.moreNames kind type)]
    else .pass []
  | .subroutines =>
    match SubroutineKind.ofTerminal? t.kind with
    | some kind =>
      .take [.enter .subroutineDec, .act .startSubroutine]
        (subroutineItems kind ++ [.goal .subroutines])
    | none => .pass []
  | .resultType => oneOf resultTypes t []
  | .subroutineName => oneOf [.ident] t [.act (.nameSubroutine t)]
  | .parameters =>
    if t.kind = .mark .rightParen then .pass []
    else oneOf variableTypes t [.goal (.declaredName .argument t), .goal .moreParameters]
  | .parameterType =>
    oneOf variableTypes t [.goal (.declaredName .argument t), .goal .moreParameters]
  | .moreParameters =>
    if t.kind = .mark .comma then .take [] [.goal .parameterType] else .pass []
  | .locals =>
    if t.kind = .keyword .var then
      .take [.enter .varDec] [.goal (.declaredType .local), .leave .varDec, .goal .locals]
    else .pass []
  | .statements => statementsMove t
  | .letTarget => oneOf [.ident] t [.act (.resolve t), .goal (.letRest t)]
  | .letRest target =>
    if t.kind = .mark .leftBracket then
      .take []
        [.goal .expression, .act (.addressElement target), .mark .rightBracket, .mark .eq,
          .goal .expression, .act .storeElement]
    else oneOf [.mark .eq] t [.goal .expression, .act (.store target)]
  | .elseBranch =>
    if t.kind = .keyword .else_ then
      .take [.act .elseIf]
        [.mark .leftBrace, .enter .statements, .goal .statements, .leave .statements,
          .mark .rightBrace, .act .endElse]
    else .pass [.act .endIf]
  | .callName => oneOf [.ident] t [.goal (.callRest t)]
  | .callRest name =>
    match t.kind with
    | .mark .dot => .take [] [.goal (.memberName name)]
    | .mark .leftParen => .take [.act (.pushReceiver (.own name))] (argumentItems (.own name))
    | _ => .refuse [.act (.pushReceiver (.own name))] [.mark .leftParen]
  | .memberName qualifier =>
    oneOf [.ident] t
      (.act (.pushReceiver (.member qualifier t)) :: .mark .leftParen ::
        argumentItems (.member qualifier t))
  | .arguments callee =>
    if t.kind = .mark .rightParen then
      .take [.leave .expressionList] [.act (.call callee 0)]
    else expressionMove [] t [.act (.countArguments 1), .goal (.moreArguments callee 1)]
  | .moreArguments callee count =>
    match t.kind with
    | .mark .comma =>
      .take []
        [.goal .expression, .act (.countArguments (count + 1)),
          .goal (.moreArguments callee (count + 1))]
    | .mark .rightParen => .take [.leave .expressionList] [.act (.call callee count)]
    | _ => .refuse [.leave .expressionList] [.mark .rightParen]
  | .result =>
    if t.kind = .mark .semicolon then .pass [.act .pushNoResult] else expressionMove [] t []
  | .expression => expressionMove [] t []
  | .operators =>
    match BinaryOp.ofTerminal? t.kind with
    | some op => .take [] [.goal .term, .act (.binary op), .goal .operators]
    | none => .pass []
  | .term => termMove [] t []
  | .termRest name =>
    match t.kind with
    | .mark .dot => .take [] [.goal (.memberName name)]
    | .mark .leftParen => .take [.act (.pushReceiver (.own name))] (argumentItems (.own name))
    | .mark .leftBracket =>
      .take [.act (.resolve name)]
        [.goal .expression, .mark .rightBracket, .act (.loadElement name)]
    | _ => .pass [.act (.load name)]

end Goal

end JackCompiler
