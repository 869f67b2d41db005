import JackCompiler.Token.Keyword

/-!
# Terminals

The terminals of the grammar are what the parser tells tokens apart by: the
punctuation marks, the keywords, three classes of tokens that carry a text of
their own, and the end of the source.
-/

namespace JackCompiler

/-! ## Marks -/

inductive Mark
  | leftBrace | rightBrace | leftParen | rightParen | leftBracket | rightBracket
  | dot | comma | semicolon
  | plus | minus | star | slash | amp | pipe | lt | gt | eq | tilde
deriving DecidableEq, Repr

namespace Mark

def all : List Mark :=
  [.leftBrace, .rightBrace, .leftParen, .rightParen, .leftBracket, .rightBracket,
    .dot, .comma, .semicolon,
    .plus, .minus, .star, .slash, .amp, .pipe, .lt, .gt, .eq, .tilde]

def char : Mark → Char
  | .leftBrace => '{'
  | .rightBrace => '}'
  | .leftParen => '('
  | .rightParen => ')'
  | .leftBracket => '['
  | .rightBracket => ']'
  | .dot => '.'
  | .comma => ','
  | .semicolon => ';'
  | .plus => '+'
  | .minus => '-'
  | .star => '*'
  | .slash => '/'
  | .amp => '&'
  | .pipe => '|'
  | .lt => '<'
  | .gt => '>'
  | .eq => '='
  | .tilde => '~'

def name : Mark → String
  | .leftBrace => "LeftBrace"
  | .rightBrace => "RightBrace"
  | .leftParen => "LeftParen"
  | .rightParen => "RightParen"
  | .leftBracket => "LeftBracket"
  | .rightBracket => "RightBracket"
  | .dot => "Dot"
  | .comma => "Comma"
  | .semicolon => "Semicolon"
  | .plus => "Plus"
  | .minus => "Minus"
  | .star => "Star"
  | .slash => "Slash"
  | .amp => "Amp"
  | .pipe => "Pipe"
  | .lt => "Lt"
  | .gt => "Gt"
  | .eq => "Eq"
  | .tilde => "Tilde"

def ofChar? (c : Char) : Option Mark :=
  all.find? (·.char == c)

theorem mem_all (m : Mark) : m ∈ all := by
  cases m <;> decide

theorem char_injective {m n : Mark} (h : m.char = n.char) : m = n := by
  cases m <;> cases n <;> first | rfl | (exact absurd h (by decide))

theorem ofChar?_eq_some_iff {c : Char} {m : Mark} : ofChar? c = some m ↔ m.char = c := by
  constructor
  · intro h
    simpa using List.find?_some h
  · rintro rfl
    cases h : ofChar? m.char with
    | none => exact absurd (List.find?_eq_none.mp h m (mem_all m)) (by simp)
    | some n =>
      have e : n.char = m.char := by simpa using List.find?_some h
      rw [char_injective e]

end Mark

/-! ## Terminals -/

inductive Terminal
  | mark (m : Mark)
  | ident
  | keyword (k : Keyword)
  | number
  | text
  | finish
deriving DecidableEq, Repr

namespace Terminal

def all : List Terminal :=
  Mark.all.map .mark ++ [.ident] ++ Keyword.all.map .keyword ++ [.number, .text, .finish]

def name : Terminal → String
  | .mark m => m.name
  | .ident => "Ident"
  | .keyword k => "Keyword(" ++ k.name ++ ")"
  | .number => "Number"
  | .text => "String"
  | .finish => "EOF"

def describe : Terminal → String
  | .mark m => "'" ++ m.char.toString ++ "'"
  | .ident => "identifier"
  | .keyword k => "'" ++ k.spelling ++ "'"
  | .number => "integer literal"
  | .text => "string literal"
  | .finish => "end-of-file"

def tag : Terminal → String
  | .mark _ => "symbol"
  | .ident => "identifier"
  | .keyword _ => "keyword"
  | .number => "integerConstant"
  | .text => "stringConstant"
  | .finish => "eof"

end Terminal

end JackCompiler
