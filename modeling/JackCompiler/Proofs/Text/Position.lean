import Mathlib.Algebra.GroupWithZero.Nat
import JackCompiler.Text.Position

/-!
# Positions in a text with lines before it

Lines put before a text move the positions in it down by their number and leave the
columns as they are (`ofOffset_behind_lines`).
-/

namespace JackCompiler

namespace Position

def down (k : Nat) (p : Position) : Position :=
  ⟨p.line + k, p.column⟩

def advance (p : Position) (text : List Char) : Position :=
  text.foldl next p

theorem next_down (p : Position) (k : Nat) (c : Char) : (p.down k).next c = (p.next c).down k := by
  unfold next
  by_cases hc : c = '\n'
  · simp only [if_pos hc, down, Nat.add_right_comm]
  · simp only [if_neg hc, down]

/-! ## Walks -/

theorem walk_of_le {start index : Nat} (h : index ≤ start) (p : Position) (text : List Char) :
    walk p start index text = p := by
  cases text with
  | nil => rfl
  | cons c cs => rw [walk, if_pos h]

theorem walk_cons_of_lt {start index : Nat} (h : start < index) (p : Position) (c : Char)
    (cs : List Char) :
    walk p start index (c :: cs) = walk (p.next c) (start + c.utf8Size) index cs := by
  rw [walk, if_neg (Nat.not_le_of_lt h)]

theorem walk_append_of_le {start index : Nat} {a : List Char} (h : start + byteSize a ≤ index)
    (p : Position) (b : List Char) :
    walk p start index (a ++ b) = walk (p.advance a) (start + byteSize a) index b := by
  induction a generalizing p start with
  | nil => rfl
  | cons c cs ih =>
    have hc := c.utf8Size_pos
    rw [byteSize_cons, ← Nat.add_assoc] at h ⊢
    rw [List.cons_append, walk_cons_of_lt (by omega), ih h]
    rfl

theorem walk_append_of_ge {start index : Nat} {a : List Char} (h : index ≤ start + byteSize a)
    (p : Position) (b : List Char) : walk p start index (a ++ b) = walk p start index a := by
  induction a generalizing p start with
  | nil => exact walk_of_le h p b
  | cons c cs ih =>
    by_cases hindex : index ≤ start
    · rw [walk_of_le hindex, walk_of_le hindex]
    · rw [Nat.not_le] at hindex
      rw [byteSize_cons, ← Nat.add_assoc] at h
      rw [List.cons_append, walk_cons_of_lt hindex, walk_cons_of_lt hindex, ih h]

theorem walk_add (p : Position) (start index d : Nat) (text : List Char) :
    walk p (start + d) (index + d) text = walk p start index text := by
  induction text generalizing p start with
  | nil => rfl
  | cons c cs ih =>
    by_cases hindex : index ≤ start
    · rw [walk_of_le hindex, walk_of_le (Nat.add_le_add_right hindex d)]
    · rw [Nat.not_le] at hindex
      rw [walk_cons_of_lt hindex, walk_cons_of_lt (Nat.add_lt_add_right hindex d),
        Nat.add_right_comm, ih]

theorem walk_down (p : Position) (k start index : Nat) (text : List Char) :
    walk (p.down k) start index text = (walk p start index text).down k := by
  induction text generalizing p start with
  | nil => rfl
  | cons c cs ih =>
    by_cases hindex : index ≤ start
    · rw [walk_of_le hindex, walk_of_le hindex]
    · rw [Nat.not_le] at hindex
      rw [walk_cons_of_lt hindex, walk_cons_of_lt hindex, next_down, ih]

/-! ## Lines -/

theorem advance_append (p : Position) (a b : List Char) :
    p.advance (a ++ b) = (p.advance a).advance b :=
  List.foldl_append

theorem line_advance (p : Position) (a : List Char) :
    (p.advance a).line = p.line + a.count '\n' := by
  induction a generalizing p with
  | nil => rfl
  | cons c cs ih =>
    show ((p.next c).advance cs).line = _
    rw [ih, List.count_cons, next]
    by_cases hc : c = '\n'
    · subst hc
      simp only [if_true, beq_self_eq_true]
      omega
    · simp [hc]

theorem advance_line (p : Position) (a : List Char) :
    p.advance (a ++ ['\n']) = ⟨p.line + a.count '\n' + 1, 1⟩ := by
  rw [advance_append, ← line_advance]
  rfl

end Position

def linesOf (texts : List (List Char)) : List Char :=
  texts.flatMap fun text => text ++ ['\n']

def lineCount (texts : List (List Char)) : Nat :=
  (texts.map fun text => text.count '\n' + 1).sum

namespace Position

theorem advance_linesOf (line : Nat) (texts : List (List Char)) :
    advance ⟨line, 1⟩ (linesOf texts) = (⟨line, 1⟩ : Position).down (lineCount texts) := by
  induction texts generalizing line with
  | nil => rfl
  | cons text texts ih =>
    rw [linesOf, List.flatMap_cons, advance_append, advance_line]
    refine (ih _).trans ?_
    simp only [down, lineCount, List.map_cons, List.sum_cons, Nat.add_assoc]

theorem ofOffset_behind {text : List Char} {place : Nat} (h : place ≤ byteSize text)
    (before rest : List Char) :
    ofOffset (before ++ (text ++ rest)) (place + byteSize before) =
      walk (advance ⟨1, 1⟩ before) 0 place text := by
  have hwalk := walk_add (advance ⟨1, 1⟩ before) 0 place (byteSize before) (text ++ rest)
  rw [ofOffset, walk_append_of_le (by omega), hwalk, walk_append_of_ge (by omega)]

theorem ofOffset_behind_lines {text : List Char} {place : Nat} (h : place ≤ byteSize text)
    (header : List Char) (lines : List (List Char)) (rest rest' : List Char) :
    ofOffset (header ++ ['\n'] ++ linesOf lines ++ (text ++ rest))
        (place + byteSize (header ++ ['\n'] ++ linesOf lines)) =
      (ofOffset (header ++ ['\n'] ++ (text ++ rest')) (place + byteSize (header ++ ['\n']))).down
        (lineCount lines) := by
  rw [ofOffset_behind h, ofOffset_behind h, advance_append _ (header ++ ['\n']), advance_line,
    advance_linesOf, walk_down]

end Position

end JackCompiler
