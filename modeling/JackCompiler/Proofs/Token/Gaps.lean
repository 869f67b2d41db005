import JackCompiler.Token.Scan

/-!
# Gaps between tokens

A line end closes whatever is open in a text but a block comment. So a gap in a text that
is closed in this sense does not reach beyond the line end, and what is skipped in it
does not depend on what follows (`skipGap_append_line`).
-/

namespace JackCompiler

/-! ## Regions of a text -/

/-- What a place in a text is inside of: code, a comment of either sort, or a string. -/
inductive Region
  | code | line | block | text
deriving DecidableEq, Repr

namespace Region

def after : Region → List Char → Region
  | r, [] => r
  | .code, '"' :: cs => after .text cs
  | .code, '/' :: '/' :: cs => after .line cs
  | .code, '/' :: '*' :: cs => after .block cs
  | .code, _ :: cs => after .code cs
  | .line, c :: cs => after (if isLineEnd c then .code else .line) cs
  | .block, '*' :: '/' :: cs => after .code cs
  | .block, _ :: cs => after .block cs
  | .text, c :: cs => after (if isTextChar c then .text else .code) cs

theorem after_code {c : Char} (hquote : c ≠ '"') (hslash : c ≠ '/') (cs : List Char) :
    after .code (c :: cs) = after .code cs := by
  rw [after.eq_5] <;> grind

theorem after_code_slash {cs : List Char} (h : ∀ c ∈ cs.head?, c ≠ '/' ∧ c ≠ '*') :
    after .code ('/' :: cs) = after .code cs := by
  rw [after.eq_5] <;> grind

theorem after_lineEnd {c : Char} (h : isLineEnd c = true) (cs : List Char) :
    after .line (c :: cs) = after .code cs := by
  rw [after, if_pos h]

theorem after_line {c : Char} (h : ¬ isLineEnd c = true) (cs : List Char) :
    after .line (c :: cs) = after .line cs := by
  rw [after, if_neg h]

theorem after_block {c : Char} (h : c ≠ '*') (cs : List Char) :
    after .block (c :: cs) = after .block cs := by
  rw [after.eq_8]
  grind

theorem after_block_star {cs : List Char} (h : ∀ c ∈ cs.head?, c ≠ '/') :
    after .block ('*' :: cs) = after .block cs := by
  rw [after.eq_8]
  grind

theorem after_code_dropWhile {p : Char → Bool} (h : ∀ c, p c = true → c ≠ '"' ∧ c ≠ '/')
    (cs : List Char) : after .code (cs.dropWhile p) = after .code cs := by
  induction cs with
  | nil => rfl
  | cons c cs ih =>
    by_cases hc : p c = true
    · rw [List.dropWhile_cons_of_pos hc, ih, after_code (h c hc).1 (h c hc).2]
    · rw [List.dropWhile_cons_of_neg hc]

end Region

/-- No block comment is open where the text ends. -/
def Closed (text : List Char) : Prop :=
  Region.after .code text ≠ .block

instance (text : List Char) : Decidable (Closed text) :=
  inferInstanceAs (Decidable (_ ≠ _))

/-! ## Single steps through a gap -/

section Steps

variable (skipped : List Skipped) (offset : Nat) {c : Char} (cs : List Char)

theorem skipGap_blank (h : isBlank c = true) :
    skipGap .between skipped offset (c :: cs) =
      skipGap .between skipped (offset + c.utf8Size) cs := by
  rw [skipGap.eq_def]
  simp only [h, if_true]

theorem skipGap_lead (hblank : ¬ isBlank c = true) (hslash : c ≠ '/') {lead : Lead}
    (hlead : Lead.ofChar? c = some lead) :
    skipGap .between skipped offset (c :: cs) = ⟨skipped.reverse, offset, some (lead, c, cs)⟩ := by
  rw [skipGap.eq_def]
  simp only [if_neg hblank, if_neg hslash, hlead]

theorem skipGap_odd (hblank : ¬ isBlank c = true) (hslash : c ≠ '/')
    (hlead : Lead.ofChar? c = none) :
    skipGap .between skipped offset (c :: cs) =
      skipGap .between (⟨c, offset⟩ :: skipped) (offset + c.utf8Size) cs := by
  rw [skipGap.eq_def]
  simp only [if_neg hblank, if_neg hslash, hlead]

theorem skipGap_slash {cs : List Char} (h : ∀ c ∈ cs.head?, c ≠ '/' ∧ c ≠ '*') :
    skipGap .between skipped offset ('/' :: cs) =
      ⟨skipped.reverse, offset, some (.mark .slash, '/', cs)⟩ := by
  have hblank : ¬ isBlank '/' = true := by decide
  rw [skipGap.eq_def]
  simp only [if_neg hblank, if_true]
  split <;> grind

theorem skipGap_lineEnd (h : isLineEnd c = true) :
    skipGap .line skipped offset (c :: cs) = skipGap .between skipped (offset + 1) cs := by
  rw [skipGap.eq_def]
  simp only [h, if_true]

theorem skipGap_line (h : ¬ isLineEnd c = true) :
    skipGap .line skipped offset (c :: cs) = skipGap .line skipped (offset + c.utf8Size) cs := by
  rw [skipGap.eq_def]
  simp only [if_neg h]

theorem skipGap_star {cs : List Char} (h : ∀ c ∈ cs.head?, c ≠ '/') :
    skipGap .block skipped offset ('*' :: cs) = skipGap .block skipped (offset + 1) cs := by
  rw [skipGap.eq_def]
  simp only [if_true]
  split <;> grind

theorem skipGap_block (h : c ≠ '*') :
    skipGap .block skipped offset (c :: cs) = skipGap .block skipped (offset + c.utf8Size) cs := by
  rw [skipGap.eq_def]
  simp only [if_neg h]

end Steps

/-! ## Gaps -/

def Lead.Suits (c : Char) : Lead → Prop
  | .quote => c = '"'
  | .letter => isLetter c = true
  | .digit => c.isDigit = true
  | .mark m => m.char = c

theorem Lead.suits_of_ofChar? {c : Char} {lead : Lead} (h : Lead.ofChar? c = some lead) :
    lead.Suits c := by
  unfold Lead.ofChar? at h
  split at h
  · cases h
    assumption
  · split at h
    · cases h
      assumption
    · split at h
      · cases h
        assumption
      · obtain ⟨m, hm, rfl⟩ := Option.map_eq_some_iff.mp h
        exact Mark.ofChar?_eq_some_iff.mp hm

def Gap.region : Gap → Region
  | .between => .code
  | .line => .line
  | .block => .block

theorem isBlank_ne {c : Char} (h : isBlank c = true) : c ≠ '"' ∧ c ≠ '/' :=
  ⟨by rintro rfl; revert h; decide, by rintro rfl; revert h; decide⟩

theorem ofChar?_ne {c : Char} (h : Lead.ofChar? c = none) : c ≠ '"' ∧ c ≠ '/' :=
  ⟨by rintro rfl; revert h; decide, by rintro rfl; revert h; decide⟩

theorem head?_ne {d : Char} {cs : List Char} (h : ∀ rest, cs = d :: rest → False) :
    ∀ c ∈ cs.head?, c ≠ d := by
  rintro c hc rfl
  obtain ⟨rest, rfl⟩ := List.head?_eq_some_iff.mp hc
  exact h rest rfl

theorem head?_append_line {P : Char → Prop} {cs : List Char} (h : ∀ c ∈ cs.head?, P c)
    (hline : P '\n') (b : List Char) : ∀ c ∈ (cs ++ '\n' :: b).head?, P c := by
  cases cs with
  | nil => simpa using hline
  | cons c cs => exact h

namespace Landing

def rest (l : Landing) : List Char :=
  match l.found with
  | some (_, c, cs) => c :: cs
  | none => []

def thenLine (l : Landing) (b : List Char) : Landing :=
  match l.found with
  | some (lead, c, cs) => ⟨l.skipped, l.offset, some (lead, c, cs ++ '\n' :: b)⟩
  | none => skipGap .between l.skipped.reverse (l.offset + 1) b

end Landing

section Gaps

variable (gap : Gap) (skipped : List Skipped) (offset : Nat) (a : List Char)

theorem skipGap_append_line (h : gap.region.after a ≠ .block) (b : List Char) :
    skipGap gap skipped offset (a ++ '\n' :: b) = (skipGap gap skipped offset a).thenLine b := by
  fun_induction skipGap gap skipped offset a with
  | case1 gap skipped offset =>
    rw [List.nil_append, Landing.thenLine, List.reverse_reverse]
    cases gap with
    | between => exact skipGap_blank skipped offset b (by decide)
    | line => exact skipGap_lineEnd skipped offset b (by decide)
    | block => exact absurd rfl h
  | case2 skipped offset c cs hblank ih =>
    obtain ⟨hquote, hslash⟩ := isBlank_ne hblank
    rw [Gap.region, Region.after_code hquote hslash] at h
    rw [← ih h, List.cons_append, skipGap_blank _ _ _ hblank]
  | case3 skipped offset cs hblank ih =>
    rw [← ih h]
    simp [skipGap, hblank]
  | case4 skipped offset cs hblank ih =>
    rw [← ih h]
    simp [skipGap, hblank]
  -- A slash at the end of the text stays one: a line end does not begin a comment.
  | case5 skipped offset cs hslash hstar hblank =>
    have hhead : ∀ c ∈ cs.head?, c ≠ '/' ∧ c ≠ '*' :=
      fun c hc => ⟨head?_ne hslash c hc, head?_ne hstar c hc⟩
    exact skipGap_slash skipped offset (head?_append_line hhead (by decide) b)
  | case6 skipped offset c cs hblank hslash lead hlead =>
    exact skipGap_lead skipped offset _ hblank hslash hlead
  | case7 skipped offset c cs hblank hslash hlead ih =>
    rw [Gap.region, Region.after_code (ofChar?_ne hlead).1 hslash] at h
    rw [← ih h, List.cons_append, skipGap_odd _ _ _ hblank hslash hlead]
  | case8 skipped offset c cs hend ih =>
    rw [Gap.region, Region.after_lineEnd hend] at h
    rw [← ih h, List.cons_append, skipGap_lineEnd _ _ _ hend]
  | case9 skipped offset c cs hend ih =>
    rw [Gap.region, Region.after_line hend] at h
    rw [← ih h, List.cons_append, skipGap_line _ _ _ hend]
  | case10 skipped offset cs ih =>
    rw [← ih h]
    simp [skipGap]
  | case11 skipped offset cs hslash ih =>
    rw [Gap.region, Region.after_block_star (head?_ne hslash)] at h
    rw [← ih h, List.cons_append,
      skipGap_star _ _ (head?_append_line (head?_ne hslash) (by decide) b)]
  | case12 skipped offset c cs hstar ih =>
    rw [Gap.region, Region.after_block hstar] at h
    rw [← ih h, List.cons_append, skipGap_block _ _ _ hstar]

theorem landing_of_found {lead : Lead} {c : Char} {cs : List Char}
    (h : (skipGap gap skipped offset a).found = some (lead, c, cs)) :
    Lead.ofChar? c = some lead ∧ (c = '/' → ∀ d ∈ cs.head?, d ≠ '/' ∧ d ≠ '*') ∧
      gap.region.after a = Region.after .code (c :: cs) := by
  fun_induction skipGap gap skipped offset a with
  | case1 => cases h
  | case2 skipped offset c' cs' hblank ih =>
    obtain ⟨hquote, hslash⟩ := isBlank_ne hblank
    rw [Gap.region, Region.after_code hquote hslash]
    exact ih h
  | case3 skipped offset cs' hblank ih => exact ih h
  | case4 skipped offset cs' hblank ih => exact ih h
  | case5 skipped offset cs' hslash hstar hblank =>
    cases h
    exact ⟨by decide, fun _ d hd => ⟨head?_ne hslash d hd, head?_ne hstar d hd⟩, rfl⟩
  | case6 skipped offset c' cs' hblank hslash lead' hlead =>
    cases h
    exact ⟨hlead, fun hc => absurd hc hslash, rfl⟩
  | case7 skipped offset c' cs' hblank hslash hlead ih =>
    rw [Gap.region, Region.after_code (ofChar?_ne hlead).1 hslash]
    exact ih h
  | case8 skipped offset c' cs' hend ih =>
    rw [Gap.region, Region.after_lineEnd hend]
    exact ih h
  | case9 skipped offset c' cs' hend ih =>
    rw [Gap.region, Region.after_line hend]
    exact ih h
  | case10 skipped offset cs' ih => exact ih h
  | case11 skipped offset cs' hslash ih =>
    rw [Gap.region, Region.after_block_star (head?_ne hslash)]
    exact ih h
  | case12 skipped offset c' cs' hstar ih =>
    rw [Gap.region, Region.after_block hstar]
    exact ih h

theorem utf8Size_lineEnd {c : Char} (h : isLineEnd c = true) : c.utf8Size = 1 := by
  rcases (by simpa [isLineEnd] using h : c = '\n' ∨ c = '\r') with rfl | rfl <;> decide

theorem offset_skipGap :
    (skipGap gap skipped offset a).offset + byteSize (skipGap gap skipped offset a).rest =
      offset + byteSize a := by
  have hslash : '/'.utf8Size = 1 := by decide
  have hstar : '*'.utf8Size = 1 := by decide
  fun_induction skipGap gap skipped offset a with
  | case1 | case5 | case6 => rfl
  | case2 _ _ _ _ _ ih | case7 _ _ _ _ _ _ _ ih | case9 _ _ _ _ _ ih | case12 _ _ _ _ _ ih =>
    rw [ih, byteSize_cons]
    omega
  | case3 _ _ _ _ ih | case4 _ _ _ _ ih | case10 _ _ _ ih =>
    rw [ih, byteSize_cons, byteSize_cons]
    omega
  | case8 _ _ _ _ hend ih =>
    rw [ih, byteSize_cons, utf8Size_lineEnd hend]
    omega
  | case11 _ _ _ _ ih =>
    rw [ih, byteSize_cons]
    omega

end Gaps

/-! ## Moved texts -/

def Skipped.move (d : Nat) (s : Skipped) : Skipped :=
  ⟨s.char, s.offset + d⟩

def Token.move (d : Nat) (t : Token) : Token :=
  ⟨t.kind, ⟨t.span.index + d, t.span.size⟩, t.lexeme⟩

theorem Token.map_move_move (d e : Nat) (tokens : List Token) :
    (tokens.map (move d)).map (move e) = tokens.map (move (d + e)) := by
  rw [List.map_map]
  refine List.map_congr_left fun t _ => ?_
  simp only [Function.comp_apply, move, Nat.add_assoc]

theorem skipGap_move (gap : Gap) (skipped before : List Skipped) (offset d : Nat)
    (a : List Char) :
    skipGap gap (skipped.map (Skipped.move d) ++ before) (offset + d) a =
      ⟨before.reverse ++ (skipGap gap skipped offset a).skipped.map (Skipped.move d),
        (skipGap gap skipped offset a).offset + d, (skipGap gap skipped offset a).found⟩ := by
  fun_induction skipGap gap skipped offset a with
  | case1 => simp [skipGap]
  | case2 skipped offset c cs hblank ih =>
    rw [← ih, skipGap_blank _ _ _ hblank, Nat.add_right_comm]
  | case3 skipped offset cs hblank ih =>
    rw [← ih, Nat.add_right_comm]
    simp [skipGap, hblank]
  | case4 skipped offset cs hblank ih =>
    rw [← ih, Nat.add_right_comm]
    simp [skipGap, hblank]
  | case5 skipped offset cs hslash hstar hblank =>
    rw [skipGap_slash _ _ fun c hc => ⟨head?_ne hslash c hc, head?_ne hstar c hc⟩]
    simp
  | case6 skipped offset c cs hblank hslash lead hlead =>
    rw [skipGap_lead _ _ _ hblank hslash hlead]
    simp
  | case7 skipped offset c cs hblank hslash hlead ih =>
    rw [← ih, skipGap_odd _ _ _ hblank hslash hlead, Nat.add_right_comm]
    rfl
  | case8 skipped offset c cs hend ih =>
    rw [← ih, skipGap_lineEnd _ _ _ hend, Nat.add_right_comm]
  | case9 skipped offset c cs hend ih =>
    rw [← ih, skipGap_line _ _ _ hend, Nat.add_right_comm]
  | case10 skipped offset cs ih =>
    rw [← ih, Nat.add_right_comm]
    simp [skipGap]
  | case11 skipped offset cs hslash ih =>
    rw [← ih, skipGap_star _ _ (head?_ne hslash), Nat.add_right_comm]
  | case12 skipped offset c cs hstar ih =>
    rw [← ih, skipGap_block _ _ _ hstar, Nat.add_right_comm]

end JackCompiler
