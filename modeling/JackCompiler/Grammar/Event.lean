import JackCompiler.Scope.Variable
import JackCompiler.Token.Scan

/-!
# What parsing a class brings about

Reading a class is a sequence of events. Some concern the tokens, some the
grammar rules that begin and end, and some are actions: what the class means, in
the order in which the source says it, with the tokens that say it.
-/

namespace JackCompiler

/-! ## Rules -/

inductive Rule
  | classDec | classVarDec | subroutineDec | parameterList | subroutineBody | varDec
  | statements | letStatement | ifStatement | whileStatement | doStatement | returnStatement
  | expression | term | expressionList
deriving DecidableEq, Repr

def Rule.name : Rule → String
  | .classDec => "class"
  | .classVarDec => "classVarDec"
  | .subroutineDec => "subroutineDec"
  | .parameterList => "parameterList"
  | .subroutineBody => "subroutineBody"
  | .varDec => "varDec"
  | .statements => "statements"
  | .letStatement => "letStatement"
  | .ifStatement => "ifStatement"
  | .whileStatement => "whileStatement"
  | .doStatement => "doStatement"
  | .returnStatement => "returnStatement"
  | .expression => "expression"
  | .term => "term"
  | .expressionList => "expressionList"

/-! ## Actions -/

inductive SubroutineKind
  | constructor | function | method
deriving DecidableEq, Repr

inductive BinaryOp
  | add | sub | mul | div | and | or | lt | gt | eq
deriving DecidableEq, Repr

inductive UnaryOp
  | neg | not
deriving DecidableEq, Repr

/-- The keywords that are terms. -/
inductive Word
  | true | false | null | this
deriving DecidableEq, Repr

/-- What a call names: a subroutine of the class itself, or a member of what
stands before a dot. -/
inductive Callee
  | own (name : Token)
  | member (qualifier name : Token)
deriving DecidableEq, Repr

inductive Action
  | nameClass (name : Token)
  | declare (kind : VariableKind) (type name : Token)
  | startSubroutine
  | receiveObject
  | nameSubroutine (name : Token)
  | startBody (kind : SubroutineKind)
  | endBody (kind : SubroutineKind)
  | pushInteger (literal : Token)
  | pushText (literal : Token)
  | pushWord (word : Word)
  | unary (op : UnaryOp)
  | binary (op : BinaryOp)
  /-- The name has to be a variable's. -/
  | resolve (name : Token)
  | load (name : Token)
  | store (name : Token)
  | loadElement (name : Token)
  | addressElement (name : Token)
  | storeElement
  | pushReceiver (callee : Callee)
  /-- There are so many arguments by now. -/
  | countArguments (arguments : Nat)
  | call (callee : Callee) (arguments : Nat)
  | discard
  | pushNoResult
  | leaveSubroutine
  | startIf
  | branchIf
  | elseIf
  | endElse
  | endIf
  | startWhile
  | testWhile
  | endWhile
deriving DecidableEq, Repr

/-! ## Events -/

inductive Note
  | enter (rule : Rule)
  | leave (rule : Rule)
  | act (action : Action)
deriving DecidableEq, Repr

inductive Event
  | note (note : Note)
  /-- The next token is looked at, behind the characters skipped before it. -/
  | look (skipped : List Skipped)
  | take (token : Token)
  | refuse (expected : List Terminal) (found : Token)
  | exhausted
deriving DecidableEq, Repr

end JackCompiler
