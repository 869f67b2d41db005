import JackCompiler.Proofs.Syntax.Tree

/-!
# Scripts

The script of a tree is what reading it brings about: its tokens and the notes made
between them, in order. A token list reads as a script if it has the script's tokens;
the events are then those of the script.
-/

namespace JackCompiler

inductive Part
  | note (note : Note)
  | fixed (kind : Terminal)
  | token (token : Token)

namespace Part

def Fits (x : Part) (t : Token) : Prop :=
  x = .token t ∨ x = .fixed t.kind

def enter (r : Rule) : Part := .note (.enter r)
def leave (r : Rule) : Part := .note (.leave r)
def act (a : Action) : Part := .note (.act a)
def mark (m : Mark) : Part := .fixed (.mark m)
def keyword (k : Keyword) : Part := .fixed (.keyword k)

end Part

abbrev Script := List Part

/-- The tokens are those of the script, and the events those of reading it. -/
inductive Reads : Script → List Token → List Event → Prop
  | nil : Reads [] [] []
  | note {n p u es} (h : Reads p u es) : Reads (.note n :: p) u (.note n :: es)
  | fixed {t : Token} {p u es} (h : Reads p u es) :
      Reads (.fixed t.kind :: p) (t :: u) (.take t :: es)
  | token {t p u es} (h : Reads p u es) : Reads (.token t :: p) (t :: u) (.take t :: es)

namespace Reads

theorem append {p q : Script} {u v : List Token} {es fs : List Event} (hp : Reads p u es)
    (hq : Reads q v fs) : Reads (p ++ q) (u ++ v) (es ++ fs) := by
  induction hp with
  | nil => exact hq
  | note _ ih => exact .note ih
  | fixed _ ih => exact .fixed ih
  | token _ ih => exact .token ih

theorem take {x : Part} {t : Token} {p : Script} {u : List Token} {es : List Event}
    (hx : x.Fits t) (h : Reads p u es) : Reads (x :: p) (t :: u) (.take t :: es) := by
  rcases hx with rfl | rfl
  · exact .token h
  · exact .fixed h

theorem notes (ns : List Note) : Reads (ns.map .note) [] (ns.map .note) := by
  induction ns with
  | nil => exact .nil
  | cons n ns ih => exact .note ih

end Reads

def Script.fits : Script → List Token → Bool
  | [], u => u.isEmpty
  | .note _ :: p, u => fits p u
  | .fixed _ :: _, [] => false
  | .fixed kind :: p, t :: u => t.kind == kind && fits p u
  | .token _ :: _, [] => false
  | .token t' :: p, t :: u => t == t' && fits p u

theorem exists_reads_iff {p : Script} {u : List Token} : (∃ es, Reads p u es) ↔ p.fits u = true := by
  refine ⟨fun h => ?_, fun h => ?_⟩
  · obtain ⟨es, h⟩ := h
    induction h with
    | nil => rfl
    | note _ ih => exact ih
    | fixed _ ih => simpa [Script.fits] using ih
    | token _ ih => simpa [Script.fits] using ih
  · fun_induction Script.fits p u with
    | case1 u => exact ⟨[], by rw [List.isEmpty_iff.mp h]; exact .nil⟩
    | case2 n p u ih =>
      obtain ⟨es, hes⟩ := ih h
      exact ⟨_, hes.note⟩
    | case3 | case5 => cases h
    | case4 kind p t u ih =>
      obtain ⟨hkind, hrest⟩ := Bool.and_eq_true_iff.mp h
      obtain ⟨es, hes⟩ := ih hrest
      rw [← eq_of_beq hkind]
      exact ⟨_, hes.fixed⟩
    | case6 t' p t u ih =>
      obtain ⟨ht, hrest⟩ := Bool.and_eq_true_iff.mp h
      obtain ⟨es, hes⟩ := ih hrest
      rw [← eq_of_beq ht]
      exact ⟨_, hes.token⟩

/-! ## Expressions -/

def CallName.nameScript : CallName → Script
  | .own name => [.token name.token]
  | .member qualifier name => [.token qualifier.token, .mark .dot, .token name.token]

def callEndScript (callee : Callee) (count : Nat) : Script :=
  [.leave .expressionList, .mark .rightParen, .act (.call callee count)]

def CallName.script (target : CallName) (arguments : Script) (count : Nat) : Script :=
  target.nameScript ++
  [.act (.pushReceiver target.callee), .mark .leftParen, .enter .expressionList] ++ arguments ++
  callEndScript target.callee count

mutual

def Term.script : Term → Script
  | .integer literal =>
    [.enter .term, .token literal.token, .act (.pushInteger literal.token), .leave .term]
  | .text literal =>
    [.enter .term, .token literal.token, .act (.pushText literal.token), .leave .term]
  | .word word => [.enter .term, .keyword word.keyword, .act (.pushWord word), .leave .term]
  | .unary op operand =>
    [.enter .term, .mark op.mark] ++ operand.script ++ [.act (.unary op), .leave .term]
  | .group inner =>
    [.enter .term, .mark .leftParen] ++ inner.script ++ [.mark .rightParen, .leave .term]
  | .var name => [.enter .term, .token name.token, .act (.load name.token), .leave .term]
  | .element array index =>
    [.enter .term, .token array.token, .act (.resolve array.token), .mark .leftBracket] ++
    index.script ++ [.mark .rightBracket, .act (.loadElement array.token), .leave .term]
  | .call target arguments =>
    [.enter .term] ++ target.script arguments.script arguments.length ++ [.leave .term]

def Expression.script : Expression → Script
  | .mk first rest => [.enter .expression] ++ first.script ++ rest.script ++ [.leave .expression]

def Operations.script : Operations → Script
  | .nil => []
  | .cons op operand rest => [.mark op.mark] ++ operand.script ++ [.act (.binary op)] ++ rest.script

def Arguments.script : Arguments → Script
  | .nil => []
  | .cons first rest => first.script ++ [.act (.countArguments 1)] ++ rest.moreScript 1

def Arguments.moreScript (count : Nat) : Arguments → Script
  | .nil => []
  | .cons first rest =>
    [.mark .comma] ++ first.script ++ [.act (.countArguments (count + 1))] ++
    rest.moreScript (count + 1)

end

/-! ## Statements -/

def Target.script : Target → Script
  | .var name => [.token name.token, .act (.resolve name.token)]
  | .element array index =>
    [.token array.token, .act (.resolve array.token), .mark .leftBracket] ++ index.script ++
    [.act (.addressElement array.token), .mark .rightBracket]

def Target.stored : Target → Action
  | .var name => .store name.token
  | .element _ _ => .storeElement

def assignmentScript (target : Target) (value : Expression) : Script :=
  target.script ++ [.mark .eq] ++ value.script ++ [.act target.stored]

def resultScript : Option Expression → Script
  | some value => value.script
  | none => [.act .pushNoResult]

def bracedScript (block : Script) : Script :=
  [.mark .leftBrace, .enter .statements] ++ block ++ [.leave .statements, .mark .rightBrace]

def guardedScript (condition : Expression) (tested : Action) (block : Script) : Script :=
  [.mark .leftParen] ++ condition.script ++ [.mark .rightParen, .act tested] ++ bracedScript block

def Block.script : Block → Script
  | .empty => []
  | .let_ target value next =>
    [.enter .letStatement, .keyword .let_] ++ assignmentScript target value ++
    [.mark .semicolon, .leave .letStatement] ++ next.script
  | .if_ condition yes next =>
    [.enter .ifStatement, .act .startIf, .keyword .if_] ++
    guardedScript condition .branchIf yes.script ++
    [.act .endIf, .leave .ifStatement] ++ next.script
  | .ifElse condition yes no next =>
    [.enter .ifStatement, .act .startIf, .keyword .if_] ++
    guardedScript condition .branchIf yes.script ++
    [.act .elseIf, .keyword .else_] ++ bracedScript no.script ++
    [.act .endElse, .leave .ifStatement] ++ next.script
  | .while_ condition body next =>
    [.enter .whileStatement, .act .startWhile, .keyword .while_] ++
    guardedScript condition .testWhile body.script ++
    [.act .endWhile, .leave .whileStatement] ++ next.script
  | .do_ target arguments next =>
    [.enter .doStatement, .keyword .do_] ++ target.script arguments.script arguments.length ++
    [.mark .semicolon, .act .discard, .leave .doStatement] ++ next.script
  | .return_ value next =>
    [.enter .returnStatement, .keyword .return_] ++ resultScript value ++
    [.mark .semicolon, .act .leaveSubroutine, .leave .returnStatement] ++ next.script

/-! ## Declarations -/

def nameScript (kind : VariableKind) (type : Token) (name : Name) : Script :=
  [.token name.token, .act (.declare kind type name.token)]

def moreNamesScript (kind : VariableKind) (type : Token) (names : List Name) : Script :=
  names.flatMap fun name => .mark .comma :: nameScript kind type name

def Declared.script (kind : VariableKind) (d : Declared) : Script :=
  [.token d.type.token] ++ nameScript kind d.type.token d.first ++
  moreNamesScript kind d.type.token d.more ++ [.mark .semicolon]

def ClassVarDec.script (d : ClassVarDec) : Script :=
  [.enter .classVarDec, .keyword d.kind.keyword] ++ d.declared.script d.kind ++
  [.leave .classVarDec]

def localsScript (d : Declared) : Script :=
  [.enter .varDec, .keyword .var] ++ d.script .local ++ [.leave .varDec]

def Parameter.script (p : Parameter) : Script :=
  .token p.type.token :: nameScript .argument p.type.token p.name

def moreParametersScript (ps : List Parameter) : Script :=
  ps.flatMap fun p => .mark .comma :: p.script

def parametersScript : List Parameter → Script
  | [] => []
  | p :: ps => p.script ++ moreParametersScript ps

def SubroutineDec.script (s : SubroutineDec) : Script :=
  [.enter .subroutineDec, .act .startSubroutine, .keyword s.kind.keyword] ++
  (if s.kind = .method then [.act .receiveObject] else []) ++
  [.token s.result.token, .token s.name.token, .act (.nameSubroutine s.name.token),
    .mark .leftParen, .enter .parameterList] ++ parametersScript s.parameters ++
  [.leave .parameterList, .mark .rightParen, .enter .subroutineBody, .mark .leftBrace] ++
  s.locals.flatMap localsScript ++ [.act (.startBody s.kind), .enter .statements] ++
  s.body.script ++
  [.leave .statements, .mark .rightBrace, .leave .subroutineBody, .act (.endBody s.kind),
    .leave .subroutineDec]

def ClassDec.script (c : ClassDec) : Script :=
  [.enter .classDec, .keyword .class_, .token c.name.token, .act (.nameClass c.name.token),
    .mark .leftBrace] ++
  c.variableDecs.flatMap ClassVarDec.script ++ c.subroutines.flatMap SubroutineDec.script ++
  [.mark .rightBrace, .leave .classDec]

/-! ## Parts of declarations -/

def SubroutineDec.opening (s : SubroutineDec) : Script :=
  let kind : Script := [.enter .subroutineDec, .act .startSubroutine, .keyword s.kind.keyword]
  let object : Script := if s.kind = .method then [.act .receiveObject] else []
  let name : Script :=
    [.token s.result.token, .token s.name.token, .act (.nameSubroutine s.name.token),
      .mark .leftParen, .enter .parameterList]
  let brace : Script :=
    [.leave .parameterList, .mark .rightParen, .enter .subroutineBody, .mark .leftBrace]
  let start : Script := [.act (.startBody s.kind), .enter .statements]
  kind ++ object ++ name ++ parametersScript s.parameters ++ brace ++
    s.locals.flatMap localsScript ++ start

def SubroutineDec.closing (s : SubroutineDec) : Script :=
  [.leave .statements, .mark .rightBrace, .leave .subroutineBody, .act (.endBody s.kind),
    .leave .subroutineDec]

theorem SubroutineDec.script_eq (s : SubroutineDec) :
    s.script = s.opening ++ s.body.script ++ s.closing :=
  rfl

def headScript (name : Name) (vars : List ClassVarDec) : Script :=
  [.enter .classDec, .keyword .class_, .token name.token, .act (.nameClass name.token),
    .mark .leftBrace] ++ vars.flatMap ClassVarDec.script

def endScript : Script :=
  [.mark .rightBrace, .leave .classDec]

theorem ClassDec.script_eq (c : ClassDec) :
    c.script = headScript c.name c.variableDecs ++
      (c.subroutines.flatMap SubroutineDec.script ++ endScript) := by
  simp [script, headScript, endScript]

/-! ## Spelling -/

/-- The tokens spell the class. -/
def ClassDec.Spells (c : ClassDec) (tokens : List Token) : Prop :=
  ∃ es, Reads c.script tokens es

instance (c : ClassDec) (tokens : List Token) : Decidable (c.Spells tokens) :=
  decidable_of_iff (c.script.fits tokens = true) exists_reads_iff.symm

end JackCompiler
