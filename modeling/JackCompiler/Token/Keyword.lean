/-!
# Keywords

The 21 words that are no identifiers, each with its spelling.
-/

namespace JackCompiler

inductive Keyword
  | class_ | constructor | function | method | field | static | var
  | int | char | boolean | void
  | true_ | false_ | null | this_
  | let_ | do_ | if_ | else_ | while_ | return_
deriving DecidableEq, Repr

namespace Keyword

def all : List Keyword :=
  [.class_, .constructor, .function, .method, .field, .static, .var,
    .int, .char, .boolean, .void,
    .true_, .false_, .null, .this_,
    .let_, .do_, .if_, .else_, .while_, .return_]

def spelling : Keyword → String
  | .class_ => "class"
  | .constructor => "constructor"
  | .function => "function"
  | .method => "method"
  | .field => "field"
  | .static => "static"
  | .var => "var"
  | .int => "int"
  | .char => "char"
  | .boolean => "boolean"
  | .void => "void"
  | .true_ => "true"
  | .false_ => "false"
  | .null => "null"
  | .this_ => "this"
  | .let_ => "let"
  | .do_ => "do"
  | .if_ => "if"
  | .else_ => "else"
  | .while_ => "while"
  | .return_ => "return"

def name (k : Keyword) : String :=
  k.spelling.capitalize

def ofSpelling? (word : String) : Option Keyword :=
  all.find? (·.spelling == word)

theorem mem_all (k : Keyword) : k ∈ all := by
  cases k <;> decide

theorem spelling_injective {j k : Keyword} (h : j.spelling = k.spelling) : j = k := by
  cases j <;> cases k <;> first | rfl | (exact absurd h (by decide))

theorem ofSpelling?_eq_some_iff {word : String} {k : Keyword} :
    ofSpelling? word = some k ↔ k.spelling = word := by
  constructor
  · intro h
    simpa using List.find?_some h
  · rintro rfl
    cases h : ofSpelling? k.spelling with
    | none => exact absurd (List.find?_eq_none.mp h k (mem_all k)) (by simp)
    | some j =>
      have e : j.spelling = k.spelling := by simpa using List.find?_some h
      rw [spelling_injective e]

end Keyword

end JackCompiler
