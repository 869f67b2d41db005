import Mathlib.Order.Bounds.Defs
import JackCompiler.Proofs.Text.Boundaries

/-!
# Positions and offsets

The boundaries of a text are in the order of their positions, and the offset of each can be
found by its position (`Position.offset?_eq_some_iff`). Where there is no boundary, the
position is that of the next one, or of the end (`positions_identify_offsets`).
-/

namespace JackCompiler

namespace Position

/-! ## Boundaries in order -/

theorem before_ofOffset {text : List Char} {i j : Nat} (hi : IsBoundary text i)
    (hj : IsBoundary text j) (h : i < j) : (ofOffset text i).Before (ofOffset text j) := by
  obtain ⟨a, rest, rfl, rfl⟩ := hi
  obtain ⟨b, rest', htext, rfl⟩ := hj
  have hposition : ofOffset (a ++ rest) (byteSize b) = advance ⟨1, 1⟩ b := by
    rw [htext, ofOffset_append]
  rw [ofOffset_append, hposition]
  rcases List.append_eq_append_iff.mp htext with ⟨more, rfl, -⟩ | ⟨more, rfl, -⟩
  · rw [advance_append]
    refine before_advance _ fun hmore => ?_
    rw [hmore, List.append_nil] at h
    exact Nat.lt_irrefl _ h
  · rw [byteSize_append] at h
    omega

theorem before_ofOffset_iff {text : List Char} {i j : Nat} (hi : IsBoundary text i)
    (hj : IsBoundary text j) : (ofOffset text i).Before (ofOffset text j) ↔ i < j := by
  refine ⟨fun h => ?_, before_ofOffset hi hj⟩
  by_contra hle
  rcases Nat.eq_or_lt_of_not_lt hle with rfl | hlt
  · exact Before.irrefl _ h
  · exact Before.irrefl _ (h.trans (before_ofOffset hj hi hlt))

/-! ## Offsets of positions -/

/-- Looks for the position `p` at the boundaries from the offset `start` on, where the
position is `q`. -/
def seek (p q : Position) (start : Nat) : List Char → Option Nat
  | [] => if q = p then some start else none
  | c :: cs => if q = p then some start else seek p (q.next c) (start + c.utf8Size) cs

def offset? (p : Position) (text : List Char) : Option Nat :=
  seek p ⟨1, 1⟩ 0 text

theorem exists_of_seek {p q : Position} {start index : Nat} {text : List Char}
    (h : seek p q start text = some index) :
    ∃ before behind, text = before ++ behind ∧ index = start + byteSize before ∧
      p = q.advance before := by
  induction text generalizing q start with
  | nil =>
    rw [seek] at h
    by_cases hq : q = p
    · rw [if_pos hq] at h
      cases h
      exact ⟨[], [], rfl, rfl, hq.symm⟩
    · rw [if_neg hq] at h
      cases h
  | cons c cs ih =>
    rw [seek] at h
    by_cases hq : q = p
    · rw [if_pos hq] at h
      cases h
      exact ⟨[], c :: cs, rfl, rfl, hq.symm⟩
    · rw [if_neg hq] at h
      obtain ⟨before, behind, rfl, rfl, hp⟩ := ih h
      exact ⟨c :: before, behind, rfl, by rw [byteSize_cons, Nat.add_assoc], hp⟩

theorem seek_self (p : Position) (start : Nat) (text : List Char) :
    seek p p start text = some start := by
  cases text <;> rw [seek, if_pos rfl]

theorem seek_advance (q : Position) (start : Nat) (before behind : List Char) :
    seek (q.advance before) q start (before ++ behind) = some (start + byteSize before) := by
  induction before generalizing q start with
  | nil => exact seek_self q start behind
  | cons c cs ih =>
    have hne : q ≠ q.advance (c :: cs) := fun h => by
      have hbefore := before_advance q (List.cons_ne_nil c cs)
      rw [← h] at hbefore
      exact Before.irrefl q hbefore
    rw [List.cons_append, seek, if_neg hne, byteSize_cons, ← Nat.add_assoc]
    exact ih (q.next c) (start + c.utf8Size)

theorem offset?_eq_some_iff {p : Position} {text : List Char} {index : Nat} :
    p.offset? text = some index ↔ IsBoundary text index ∧ ofOffset text index = p := by
  refine ⟨fun h => ?_, ?_⟩
  · obtain ⟨before, behind, rfl, hindex, rfl⟩ := exists_of_seek h
    rw [Nat.zero_add] at hindex
    subst hindex
    exact ⟨⟨before, behind, rfl, rfl⟩, ofOffset_append before behind⟩
  · rintro ⟨⟨before, behind, rfl, rfl⟩, rfl⟩
    rw [ofOffset_append, offset?, seek_advance, Nat.zero_add]

/-! ## Offsets between boundaries -/

theorem exists_walk_eq {start index : Nat} {text : List Char} (h : index ≤ start + byteSize text)
    (p : Position) :
    ∃ before behind, text = before ++ behind ∧ index ≤ start + byteSize before ∧
      walk p start index text = p.advance before ∧
      ∀ a b, text = a ++ b → index ≤ start + byteSize a → byteSize before ≤ byteSize a := by
  induction text generalizing p start with
  | nil => exact ⟨[], [], rfl, h, rfl, fun _ _ _ _ => Nat.zero_le _⟩
  | cons c cs ih =>
    by_cases hindex : index ≤ start
    · exact ⟨[], c :: cs, rfl, hindex, walk_of_le hindex p _, fun _ _ _ _ => Nat.zero_le _⟩
    · rw [byteSize_cons, ← Nat.add_assoc] at h
      obtain ⟨before, behind, rfl, hle, hwalk, hleast⟩ := ih h (p.next c)
      refine ⟨c :: before, behind, rfl, ?_, ?_, fun a b htext ha => ?_⟩
      · rwa [byteSize_cons, ← Nat.add_assoc]
      · rw [walk_cons_of_lt (Nat.lt_of_not_le hindex), hwalk]
        rfl
      · cases a with
        | nil => exact absurd ha hindex
        | cons d a =>
          obtain ⟨rfl, htail⟩ := List.cons.inj htext
          rw [byteSize_cons, ← Nat.add_assoc] at ha
          rw [byteSize_cons, byteSize_cons]
          exact Nat.add_le_add_left (hleast a b htail ha) _

theorem exists_next_boundary {text : List Char} {index : Nat} (h : index ≤ byteSize text) :
    ∃ next, IsLeast {i | IsBoundary text i ∧ index ≤ i} next ∧
      ofOffset text index = ofOffset text next := by
  rw [← Nat.zero_add (byteSize text)] at h
  obtain ⟨before, behind, rfl, hle, hwalk, hleast⟩ := exists_walk_eq h ⟨1, 1⟩
  rw [Nat.zero_add] at hle
  refine ⟨byteSize before, ⟨⟨⟨before, behind, rfl, rfl⟩, hle⟩, ?_⟩, ?_⟩
  · rintro _ ⟨⟨a, b, htext, rfl⟩, ha⟩
    exact hleast a b htext (by rwa [Nat.zero_add])
  · rw [ofOffset_append, ofOffset, hwalk]

theorem ofOffset_of_le {text : List Char} {index : Nat} (h : byteSize text ≤ index) :
    ofOffset text index = ofOffset text (byteSize text) := by
  have hend : ∀ i, byteSize text ≤ i → ofOffset (text ++ []) i = advance ⟨1, 1⟩ text := by
    intro i hi
    rw [ofOffset, walk_append_of_le (by omega)]
    rfl
  rw [List.append_nil] at hend
  rw [hend index h, hend _ (Nat.le_refl _)]

end Position

/-! ## Positions of ranges -/

/-- The positions of a text are in the order of its boundaries. Each says how many line feeds
are before the boundary and how many characters since the last of these, and leads back to the
boundary. An offset within a character has the position of the next boundary, and one behind
the end that of the end. -/
theorem positions_identify_offsets (text : List Char) :
    (∀ s t : Span, IsBoundary text s.index → IsBoundary text t.index →
      ((s.position text).Before (t.position text) ↔ s.index < t.index)) ∧
    (∀ (s : Span) (before behind : List Char), text = before ++ behind →
      s.index = byteSize before → s.position text =
        ⟨before.count '\n' + 1, (before.reverse.takeWhile (· != '\n')).length + 1⟩) ∧
    (∀ (s : Span) (p : Position),
      p.offset? text = some s.index ↔ IsBoundary text s.index ∧ s.position text = p) ∧
    (∀ s : Span, s.index ≤ byteSize text →
      ∃ next, IsLeast {i | IsBoundary text i ∧ s.index ≤ i} next ∧
        s.position text = Position.ofOffset text next) ∧
    ∀ s : Span, byteSize text ≤ s.index →
      s.position text = Position.ofOffset text (byteSize text) := by
  refine ⟨fun s t => Position.before_ofOffset_iff, fun s before behind htext hindex => ?_,
    fun s p => Position.offset?_eq_some_iff, fun s => Position.exists_next_boundary,
    fun s => Position.ofOffset_of_le⟩
  rw [Span.position, hindex, htext, Position.ofOffset_append, ← Position.column_advance,
    Nat.add_comm _ 1, ← Position.line_advance ⟨1, 1⟩]

theorem positions_identify_offsets_accent :
    let text := ['é', '\n', 'b']
    ((⟨2, 1⟩ : Span).position text).Before ((⟨3, 1⟩ : Span).position text) ∧
      (⟨3, 1⟩ : Span).position text = ⟨2, 1⟩ ∧ (⟨2, 1⟩ : Position).offset? text = some 3 ∧
      (∃ next, IsLeast {i | IsBoundary text i ∧ 1 ≤ i} next ∧
        (⟨1, 1⟩ : Span).position text = Position.ofOffset text next) ∧
      (⟨7, 1⟩ : Span).position text = Position.ofOffset text 4 := by
  intro text
  have hline : IsBoundary text 2 := ⟨['é'], ['\n', 'b'], rfl, by decide⟩
  have hletter : IsBoundary text 3 := ⟨['é', '\n'], ['b'], rfl, by decide⟩
  obtain ⟨horder, hcounts, hoffset, hwithin, hbehind⟩ := positions_identify_offsets text
  have hposition := hcounts ⟨3, 1⟩ ['é', '\n'] ['b'] rfl (by decide)
  exact ⟨(horder ⟨2, 1⟩ ⟨3, 1⟩ hline hletter).mpr (by decide), hposition,
    (hoffset ⟨3, 1⟩ ⟨2, 1⟩).mpr ⟨hletter, hposition⟩, hwithin ⟨1, 1⟩ (by decide),
    hbehind ⟨7, 1⟩ (by decide)⟩

end JackCompiler
