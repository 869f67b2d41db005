import Mathlib.Data.List.Induction
import JackCompiler.Proofs.Text.Position

/-!
# Positions of character boundaries

A position is read off the characters before it: the line feeds among them and the
characters since the last of these. Each character moves it on, so that no two boundaries
of a text have the same position (`Position.marks_ofOffset_iff`).
-/

namespace JackCompiler

/-- The offset is one where a character of the text begins, or the text ends. -/
def IsBoundary (text : List Char) (index : Nat) : Prop :=
  ∃ before behind, text = before ++ behind ∧ byteSize before = index

namespace Position

def Before (p q : Position) : Prop :=
  p.line < q.line ∨ p.line = q.line ∧ p.column < q.column

/-- The boundary at the offset is in the line and column of the position. -/
def Marks (p : Position) (text : List Char) (index : Nat) : Prop :=
  ∃ before behind, text = before ++ behind ∧ index = byteSize before ∧
    p.line = before.count '\n' + 1 ∧
    p.column = (before.reverse.takeWhile (· != '\n')).length + 1

/-! ## Positions move on -/

theorem Before.irrefl (p : Position) : ¬ p.Before p := by
  rintro (h | ⟨-, h⟩) <;> exact Nat.lt_irrefl _ h

theorem Before.trans {p q r : Position} (hpq : p.Before q) (hqr : q.Before r) : p.Before r := by
  unfold Before at *
  omega

theorem before_next (p : Position) (c : Char) : p.Before (p.next c) := by
  unfold next
  by_cases hc : c = '\n'
  · rw [if_pos hc]
    exact .inl (Nat.lt_succ_self _)
  · rw [if_neg hc]
    exact .inr ⟨rfl, Nat.lt_succ_self _⟩

theorem before_advance (p : Position) {text : List Char} (h : text ≠ []) :
    p.Before (p.advance text) := by
  induction text generalizing p with
  | nil => exact absurd rfl h
  | cons c cs ih =>
    by_cases hcs : cs = []
    · subst hcs
      exact before_next p c
    · exact (before_next p c).trans (ih _ hcs)

/-- Of two texts with which another begins, the one with the same position is the same. -/
theorem eq_of_advance_eq {p : Position} {a b a' b' : List Char} (htext : a ++ b = a' ++ b')
    (h : p.advance a = p.advance a') : a = a' := by
  rcases List.append_eq_append_iff.mp htext with ⟨more, rfl, -⟩ | ⟨more, rfl, -⟩
  · by_cases hmore : more = []
    · rw [hmore, List.append_nil]
    · rw [advance_append] at h
      have hbefore := before_advance (p.advance a) hmore
      rw [← h] at hbefore
      exact absurd hbefore (Before.irrefl _)
  · by_cases hmore : more = []
    · rw [hmore, List.append_nil]
    · rw [advance_append] at h
      have hbefore := before_advance (p.advance a') hmore
      rw [h] at hbefore
      exact absurd hbefore (Before.irrefl _)

/-! ## Lines and columns -/

theorem column_advance (a : List Char) :
    (advance ⟨1, 1⟩ a).column = (a.reverse.takeWhile (· != '\n')).length + 1 := by
  induction a using List.reverseRecOn with
  | nil => rfl
  | append_singleton a c ih =>
    rw [advance_append, List.reverse_append, List.reverse_singleton, List.singleton_append]
    show ((advance ⟨1, 1⟩ a).next c).column = _
    unfold next
    by_cases hc : c = '\n'
    · rw [if_pos hc, List.takeWhile_cons_of_neg (by simp [hc])]
      rfl
    · rw [if_neg hc, List.takeWhile_cons_of_pos (by simp [hc]), List.length_cons, ← ih]

theorem ofOffset_append (before behind : List Char) :
    ofOffset (before ++ behind) (byteSize before) = advance ⟨1, 1⟩ before := by
  rw [ofOffset, walk_append_of_le (by omega), walk_of_le (by omega)]

theorem marks_iff {p : Position} {text : List Char} {index : Nat} :
    p.Marks text index ↔ ∃ before behind, text = before ++ behind ∧ index = byteSize before ∧
      p = advance ⟨1, 1⟩ before := by
  have hp : ∀ before : List Char, p = advance ⟨1, 1⟩ before ↔
      p.line = before.count '\n' + 1 ∧
      p.column = (before.reverse.takeWhile (· != '\n')).length + 1 := by
    intro before
    rw [← column_advance, Nat.add_comm _ 1, ← line_advance ⟨1, 1⟩]
    exact ⟨fun h => h ▸ ⟨rfl, rfl⟩, fun h => congrArg₂ Position.mk h.1 h.2⟩
  simp only [Marks, hp]

/-- The position that is given for a boundary is in its line and column, and no other
boundary is. -/
theorem marks_ofOffset_iff {text : List Char} {index other : Nat} (h : IsBoundary text index) :
    (ofOffset text index).Marks text other ↔ other = index := by
  obtain ⟨before, behind, rfl, rfl⟩ := h
  rw [ofOffset_append, marks_iff]
  refine ⟨fun hmarks => ?_, fun hother => ⟨before, behind, rfl, hother, rfl⟩⟩
  obtain ⟨before', behind', htext, rfl, hposition⟩ := hmarks
  rw [eq_of_advance_eq htext hposition]

end Position

end JackCompiler
