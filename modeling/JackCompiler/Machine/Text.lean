import JackCompiler.Machine.Instruction

/-!
# The text of a program

An instruction is one line of words, separated by single spaces; every line of
a program ends with a line feed.
-/

namespace JackCompiler

namespace Instruction

def words : Instruction → List String
  | .push segment index => ["push", segment.text, toString index.toNat]
  | .pop segment index => ["pop", segment.text, toString index.toNat]
  | .operate operation => [operation.text]
  | .label name => ["label", name]
  | .goto name => ["goto", name]
  | .ifGoto name => ["if-goto", name]
  | .call name arguments => ["call", name, toString arguments.toNat]
  | .function name locals => ["function", name, toString locals.toNat]
  | .return => ["return"]

def text (i : Instruction) : String :=
  " ".intercalate i.words

end Instruction

def joinLines (lines : List String) : String :=
  lines.foldl (fun text line => text ++ line ++ "\n") ""

theorem toList_foldl_lines (text : String) (lines : List String) :
    (lines.foldl (fun text line => text ++ line ++ "\n") text).toList =
      text.toList ++ lines.flatMap fun line => line.toList ++ ['\n'] := by
  induction lines generalizing text with
  | nil => simp
  | cons line lines ih => rw [List.foldl_cons, ih]; simp

theorem toList_joinLines (lines : List String) :
    (joinLines lines).toList = lines.flatMap fun line => line.toList ++ ['\n'] := by
  rw [joinLines, toList_foldl_lines]
  rfl

theorem splitOn_newline_lines (lines : List (List Char)) (h : ∀ line ∈ lines, '\n' ∉ line) :
    (lines.flatMap fun line => line ++ ['\n']).splitOn '\n' = lines ++ [[]] := by
  induction lines with
  | nil => rfl
  | cons line lines ih =>
    rw [List.forall_mem_cons] at h
    have hline : ∀ c ∈ line, (c == '\n') = false := by
      intro c hc
      exact beq_false_of_ne (ne_of_mem_of_not_mem hc h.1)
    have hrest := ih h.2
    rw [List.splitOn] at hrest ⊢
    rw [List.flatMap_cons, List.append_assoc, List.singleton_append,
      List.splitOnP_append_cons _ _ rfl, hrest, List.splitOnP_eq_singleton hline]
    rfl

def programText (program : List Instruction) : String :=
  joinLines (program.map Instruction.text)

end JackCompiler
