import Mathlib.Computability.RegularExpressions
import Mathlib.Order.CompletePartialOrder
import JackCompiler.Proofs.Syntax.Markup

/-!
# Patterns of rules

For each rule that a trace shows, the documented grammar as a regular expression: what can
stand in the rule, the rules that a trace does not show being written out. A tree derives
its leaves if what stands in each of its nodes matches the pattern (`Markup.Conforms`).
-/

namespace JackCompiler

abbrev Label := Terminal ⊕ Rule

def Markup.label : Markup → Label
  | leaf kind _ => .inl kind
  | node rule _ => .inr rule

namespace Pattern

open RegularExpression

def terminal (kind : Terminal) : RegularExpression Label := char (.inl kind)
def mark (m : Mark) : RegularExpression Label := terminal (.mark m)
def keyword (k : Keyword) : RegularExpression Label := terminal (.keyword k)
def ident : RegularExpression Label := terminal .ident
def part (r : Rule) : RegularExpression Label := char (.inr r)

def choice (ps : List (RegularExpression Label)) : RegularExpression Label :=
  ps.sum

def optional (p : RegularExpression Label) : RegularExpression Label :=
  1 + p

def listOf (p : RegularExpression Label) : RegularExpression Label :=
  p * star (mark .comma * p)

def type : RegularExpression Label :=
  choice [keyword .int, keyword .char, keyword .boolean, ident]

def block : RegularExpression Label :=
  mark .leftBrace * part .statements * mark .rightBrace

def guarded : RegularExpression Label :=
  mark .leftParen * part .expression * mark .rightParen * block

def arguments : RegularExpression Label :=
  mark .leftParen * part .expressionList * mark .rightParen

def subroutineCall : RegularExpression Label :=
  choice [ident * arguments, ident * mark .dot * ident * arguments]

def index : RegularExpression Label :=
  mark .leftBracket * part .expression * mark .rightBracket

def keywordConstant : RegularExpression Label :=
  choice [keyword .true_, keyword .false_, keyword .null, keyword .this_]

def unaryOp : RegularExpression Label :=
  choice [mark .minus, mark .tilde]

def op : RegularExpression Label :=
  choice [mark .plus, mark .minus, mark .star, mark .slash, mark .amp, mark .pipe, mark .lt,
    mark .gt, mark .eq]

end Pattern

open Pattern RegularExpression in
def Rule.pattern : Rule → RegularExpression Label
  | .classDec => keyword .class_ * ident * mark .leftBrace * star (part .classVarDec) *
      star (part .subroutineDec) * mark .rightBrace
  | .classVarDec => choice [keyword .static, keyword .field] * type * listOf ident *
      mark .semicolon
  | .subroutineDec => choice [keyword .constructor, keyword .function, keyword .method] *
      choice [keyword .void, type] * ident * mark .leftParen * part .parameterList *
      mark .rightParen * part .subroutineBody
  | .parameterList => optional (listOf (type * ident))
  | .subroutineBody => mark .leftBrace * star (part .varDec) * part .statements *
      mark .rightBrace
  | .varDec => keyword .var * type * listOf ident * mark .semicolon
  | .statements => star (choice [part .letStatement, part .ifStatement, part .whileStatement,
      part .doStatement, part .returnStatement])
  | .letStatement => keyword .let_ * ident * optional index * mark .eq * part .expression *
      mark .semicolon
  | .ifStatement => keyword .if_ * guarded * optional (keyword .else_ * block)
  | .whileStatement => keyword .while_ * guarded
  | .doStatement => keyword .do_ * subroutineCall * mark .semicolon
  | .returnStatement => keyword .return_ * optional (part .expression) * mark .semicolon
  | .expression => part .term * star (op * part .term)
  | .term => choice [terminal .number, terminal .text, keywordConstant, ident, ident * index,
      subroutineCall, mark .leftParen * part .expression * mark .rightParen,
      unaryOp * part .term]
  | .expressionList => optional (listOf (part .expression))

/-- What stands in each node matches the pattern of its rule. -/
inductive Markup.Conforms : Markup → Prop
  | leaf {kind lexeme} : Conforms (leaf kind lexeme)
  | node {rule children} (hpattern : children.map label ∈ rule.pattern.matches')
      (h : ∀ m ∈ children, Conforms m) : Conforms (node rule children)

/-! ## Languages of patterns -/

namespace Pattern

variable {w : List Label} {p : RegularExpression Label} {ps : List (RegularExpression Label)}

theorem mem_terminal_iff {kind : Terminal} :
    w ∈ (terminal kind).matches' ↔ w = [.inl kind] := Iff.rfl

theorem mem_part_iff {r : Rule} : w ∈ (part r).matches' ↔ w = [.inr r] := Iff.rfl

theorem mem_choice_iff : w ∈ (choice ps).matches' ↔ ∃ p ∈ ps, w ∈ p.matches' := by
  induction ps with
  | nil => exact iff_of_false (Language.notMem_zero w) (by simp)
  | cons p ps ih =>
    rw [choice, List.sum_cons, RegularExpression.matches'_add, Language.mem_add]
    rw [choice] at ih
    rw [ih, List.exists_mem_cons_iff]

theorem le_choice (hp : p ∈ ps) : p.matches' ≤ (choice ps).matches' :=
  fun _ hw => mem_choice_iff.mpr ⟨p, hp, hw⟩

theorem one_le_optional : 1 ≤ (optional p).matches' :=
  fun _ hw => .inl hw

theorem le_optional : p.matches' ≤ (optional p).matches' :=
  fun _ hw => .inr hw

end Pattern

end JackCompiler
