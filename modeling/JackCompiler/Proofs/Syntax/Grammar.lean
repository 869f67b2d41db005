import Mathlib.Computability.ContextFreeGrammar
import JackCompiler.Token.Basic

/-!
# The grammar

The documented grammar of classes as a context-free grammar over the kinds of tokens. A
repetition has a nonterminal of its own, which is empty or begins with one more member.
-/

namespace JackCompiler

inductive Nonterminal
  | classDec | classVarDecs | classVarDec | type | moreNames
  | subroutineDecs | subroutineDec | resultType | parameterList | moreParameters
  | subroutineBody | varDecs | varDec
  | statements | statement | letStatement | ifStatement | whileStatement | doStatement
  | returnStatement
  | expression | operations | op | term | keywordConstant | unaryOp
  | subroutineCall | expressionList | moreExpressions
deriving DecidableEq

namespace Nonterminal

def all : List Nonterminal :=
  [.classDec, .classVarDecs, .classVarDec, .type, .moreNames,
    .subroutineDecs, .subroutineDec, .resultType, .parameterList, .moreParameters,
    .subroutineBody, .varDecs, .varDec,
    .statements, .statement, .letStatement, .ifStatement, .whileStatement, .doStatement,
    .returnStatement,
    .expression, .operations, .op, .term, .keywordConstant, .unaryOp,
    .subroutineCall, .expressionList, .moreExpressions]

theorem mem_all (n : Nonterminal) : n ∈ all := by
  cases n <;> decide

end Nonterminal

namespace Grammar

abbrev Form := List (Symbol Terminal Nonterminal)

def mark (m : Mark) : Symbol Terminal Nonterminal := .terminal (.mark m)
def keyword (k : Keyword) : Symbol Terminal Nonterminal := .terminal (.keyword k)
def ident : Symbol Terminal Nonterminal := .terminal .ident
def part (n : Nonterminal) : Symbol Terminal Nonterminal := .nonterminal n

def alternatives : Nonterminal → List Form
  | .classDec => [[keyword .class_, ident, mark .leftBrace, part .classVarDecs,
      part .subroutineDecs, mark .rightBrace]]
  | .classVarDecs => [[], [part .classVarDec, part .classVarDecs]]
  | .classVarDec => [
      [keyword .static, part .type, ident, part .moreNames, mark .semicolon],
      [keyword .field, part .type, ident, part .moreNames, mark .semicolon]]
  | .type => [[keyword .int], [keyword .char], [keyword .boolean], [ident]]
  | .moreNames => [[], [mark .comma, ident, part .moreNames]]
  | .subroutineDecs => [[], [part .subroutineDec, part .subroutineDecs]]
  | .subroutineDec => [.constructor, .function, .method].map fun kind =>
      [keyword kind, part .resultType, ident, mark .leftParen, part .parameterList,
        mark .rightParen, part .subroutineBody]
  | .resultType => [[part .type], [keyword .void]]
  | .parameterList => [[], [part .type, ident, part .moreParameters]]
  | .moreParameters => [[], [mark .comma, part .type, ident, part .moreParameters]]
  | .subroutineBody => [[mark .leftBrace, part .varDecs, part .statements, mark .rightBrace]]
  | .varDecs => [[], [part .varDec, part .varDecs]]
  | .varDec => [[keyword .var, part .type, ident, part .moreNames, mark .semicolon]]
  | .statements => [[], [part .statement, part .statements]]
  | .statement => [[part .letStatement], [part .ifStatement], [part .whileStatement],
      [part .doStatement], [part .returnStatement]]
  | .letStatement => [
      [keyword .let_, ident, mark .eq, part .expression, mark .semicolon],
      [keyword .let_, ident, mark .leftBracket, part .expression, mark .rightBracket, mark .eq,
        part .expression, mark .semicolon]]
  | .ifStatement => [
      [keyword .if_, mark .leftParen, part .expression, mark .rightParen,
        mark .leftBrace, part .statements, mark .rightBrace],
      [keyword .if_, mark .leftParen, part .expression, mark .rightParen,
        mark .leftBrace, part .statements, mark .rightBrace,
        keyword .else_, mark .leftBrace, part .statements, mark .rightBrace]]
  | .whileStatement => [
      [keyword .while_, mark .leftParen, part .expression, mark .rightParen,
        mark .leftBrace, part .statements, mark .rightBrace]]
  | .doStatement => [[keyword .do_, part .subroutineCall, mark .semicolon]]
  | .returnStatement => [
      [keyword .return_, mark .semicolon],
      [keyword .return_, part .expression, mark .semicolon]]
  | .expression => [[part .term, part .operations]]
  | .operations => [[], [part .op, part .term, part .operations]]
  | .op => [.plus, .minus, .star, .slash, .amp, .pipe, .lt, .gt, .eq].map fun m => [mark m]
  | .term => [[.terminal .number], [.terminal .text], [part .keywordConstant], [ident],
      [ident, mark .leftBracket, part .expression, mark .rightBracket], [part .subroutineCall],
      [mark .leftParen, part .expression, mark .rightParen], [part .unaryOp, part .term]]
  | .keywordConstant => [.true_, .false_, .null, .this_].map fun k => [keyword k]
  | .unaryOp => [[mark .minus], [mark .tilde]]
  | .subroutineCall => [
      [ident, mark .leftParen, part .expressionList, mark .rightParen],
      [ident, mark .dot, ident, mark .leftParen, part .expressionList, mark .rightParen]]
  | .expressionList => [[], [part .expression, part .moreExpressions]]
  | .moreExpressions => [[], [mark .comma, part .expression, part .moreExpressions]]

end Grammar

def grammar : ContextFreeGrammar Terminal where
  NT := Nonterminal
  initial := .classDec
  rules := (Nonterminal.all.flatMap fun n =>
    (Grammar.alternatives n).map fun p => (⟨n, p⟩ : ContextFreeRule Terminal Nonterminal)).toFinset

namespace Grammar

theorem mem_rules_iff {r : ContextFreeRule Terminal Nonterminal} :
    r ∈ grammar.rules ↔ r.output ∈ alternatives r.input := by
  refine (List.mem_toFinset (a := r)).trans ⟨fun h => ?_, fun h => ?_⟩
  · obtain ⟨n, -, h⟩ := List.mem_flatMap.mp h
    obtain ⟨p, hp, rfl⟩ := List.mem_map.mp h
    exact hp
  · exact List.mem_flatMap.mpr ⟨r.input, r.input.mem_all, List.mem_map.mpr ⟨r.output, h, rfl⟩⟩

/-! ## Interpretations

An interpretation says which lists of tokens belong to a nonterminal. -/

/-- The tokens are a row of the symbols, the nonterminals being interpreted. -/
def Row (J : Nonterminal → List Token → Prop) :
    Form → List Token → Prop
  | [], u => u = []
  | .terminal kind :: p, u => ∃ t v, u = t :: v ∧ t.kind = kind ∧ Row J p v
  | .nonterminal n :: p, u => ∃ v w, u = v ++ w ∧ J n v ∧ Row J p w

theorem row_append_iff {J : Nonterminal → List Token → Prop}
    {p q : Form} {u : List Token} :
    Row J (p ++ q) u ↔ ∃ v w, u = v ++ w ∧ Row J p v ∧ Row J q w := by
  induction p generalizing u with
  | nil => simp [Row]
  | cons x p ih =>
    cases x with
    | terminal kind =>
      simp only [List.cons_append, Row, ih]
      refine ⟨fun h => ?_, fun h => ?_⟩
      · obtain ⟨t, _, rfl, ht, v, w, rfl, hv, hw⟩ := h
        exact ⟨t :: v, w, rfl, ⟨t, v, rfl, ht, hv⟩, hw⟩
      · obtain ⟨_, w, rfl, ⟨t, v, rfl, ht, hv⟩, hw⟩ := h
        exact ⟨t, v ++ w, rfl, ht, v, w, rfl, hv, hw⟩
    | nonterminal n =>
      simp only [List.cons_append, Row, ih]
      refine ⟨fun h => ?_, fun h => ?_⟩
      · obtain ⟨a, _, rfl, ha, v, w, rfl, hv, hw⟩ := h
        exact ⟨a ++ v, w, (List.append_assoc ..).symm, ⟨a, v, rfl, ha, hv⟩, hw⟩
      · obtain ⟨_, w, rfl, ⟨a, v, rfl, ha, hv⟩, hw⟩ := h
        exact ⟨a, v ++ w, List.append_assoc .., ha, v, w, rfl, hv, hw⟩

def kinds (u : List Token) : Form :=
  u.map fun t => .terminal t.kind

theorem kinds_append (u v : List Token) : kinds (u ++ v) = kinds u ++ kinds v :=
  List.map_append

theorem row_kinds (J : Nonterminal → List Token → Prop) (u : List Token) : Row J (kinds u) u := by
  induction u with
  | nil => rfl
  | cons t u ih => exact ⟨t, u, rfl, rfl, ih⟩

/-- An interpretation that is closed under the alternatives has all tokens of which the
kinds can be derived. -/
theorem row_of_derives {J : Nonterminal → List Token → Prop}
    (hJ : ∀ n, ∀ p ∈ alternatives n, ∀ u, Row J p u → J n u)
    {p : Form} {u : List Token}
    (h : grammar.Derives p (kinds u)) : Row J p u := by
  induction h using Relation.ReflTransGen.head_induction_on with
  | refl => exact row_kinds J u
  | head hstep _ ih =>
    obtain ⟨r, hr, hrewrites⟩ := hstep
    obtain ⟨p, q, rfl, rfl⟩ := hrewrites.exists_parts
    obtain ⟨_, w, rfl, hv, hw⟩ := row_append_iff.mp ih
    obtain ⟨a, b, rfl, ha, hb⟩ := row_append_iff.mp hv
    have hinput : J r.input b := hJ r.input r.output (mem_rules_iff.mp hr) b hb
    refine row_append_iff.mpr ⟨a ++ b, w, rfl, row_append_iff.mpr ⟨a, b, rfl, ha, ?_⟩, hw⟩
    exact ⟨b, [], (List.append_nil b).symm, hinput, rfl⟩

def Derived (n : Nonterminal) (u : List Token) : Prop :=
  grammar.Derives [.nonterminal n] (kinds u)

theorem derives_of_row {p : Form} {u : List Token}
    (h : Row Derived p u) : grammar.Derives p (kinds u) := by
  induction p generalizing u with
  | nil =>
    obtain rfl : u = [] := h
    exact .refl []
  | cons x p ih =>
    cases x with
    | terminal kind =>
      obtain ⟨t, v, rfl, rfl, hv⟩ := h
      exact (ih hv).append_left [.terminal t.kind]
    | nonterminal n =>
      obtain ⟨v, w, rfl, hv, hw⟩ := h
      rw [kinds_append]
      exact (hv.append_right p).trans ((ih hw).append_left (kinds v))

theorem derived_of_row {n : Nonterminal} (p : Form) {u : List Token}
    (hp : p ∈ alternatives n) (h : Row Derived p u) : Derived n u := by
  have hstep : grammar.Produces [.nonterminal n] p :=
    ⟨⟨n, p⟩, mem_rules_iff.mpr hp, ContextFreeRule.Rewrites.input_output⟩
  exact hstep.single.trans (derives_of_row h)

end Grammar

end JackCompiler
