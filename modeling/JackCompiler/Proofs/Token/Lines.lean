import JackCompiler.Compile
import JackCompiler.Proofs.Token.Gaps

/-!
# Scanning line by line

The tokens of a text that is closed, a line end and another text are those of the two
texts, the second one's being moved (`tokenize_append_line`).
-/

namespace JackCompiler

/-! ## Tokens -/

theorem takeWhile_append_line {p : Char → Bool} (hp : p '\n' = false) (cs b : List Char) :
    (cs ++ '\n' :: b).takeWhile p = cs.takeWhile p := by
  induction cs with
  | nil => rw [List.nil_append, List.takeWhile_cons_of_neg (by simp [hp]), List.takeWhile_nil]
  | cons c cs ih =>
    by_cases hc : p c = true
    · rw [List.cons_append, List.takeWhile_cons_of_pos hc, List.takeWhile_cons_of_pos hc, ih]
    · rw [List.cons_append, List.takeWhile_cons_of_neg hc, List.takeWhile_cons_of_neg hc]

theorem dropWhile_append_line {p : Char → Bool} (hp : p '\n' = false) (cs b : List Char) :
    (cs ++ '\n' :: b).dropWhile p = cs.dropWhile p ++ '\n' :: b := by
  induction cs with
  | nil => rw [List.nil_append, List.dropWhile_cons_of_neg (by simp [hp]), List.dropWhile_nil]; rfl
  | cons c cs ih =>
    by_cases hc : p c = true
    · rw [List.cons_append, List.dropWhile_cons_of_pos hc, List.dropWhile_cons_of_pos hc, ih]
    · rw [List.cons_append, List.dropWhile_cons_of_neg hc, List.dropWhile_cons_of_neg hc]
      rfl

namespace Cursor

def thenLine (c : Cursor) (b : List Char) : Cursor :=
  ⟨c.offset, c.rest ++ '\n' :: b⟩

theorem closeQuote_thenLine (c : Cursor) (b : List Char) :
    (c.thenLine b).closeQuote = c.closeQuote.thenLine b := by
  obtain ⟨offset, rest⟩ := c
  cases rest with
  | nil => rfl
  | cons c cs =>
    by_cases hc : c = '"'
    · subst hc
      rfl
    · simp [thenLine, closeQuote, hc]

theorem read_append_line (offset : Nat) (c : Char) (cs : List Char) (lead : Lead)
    (b : List Char) :
    read offset c (cs ++ '\n' :: b) lead =
      ((read offset c cs lead).1, (read offset c cs lead).2.thenLine b) := by
  cases lead with
  | quote =>
    simp only [read, makeText, takeWhile_append_line (p := isTextChar) (by decide),
      dropWhile_append_line (p := isTextChar) (by decide)]
    exact congrArg (Prod.mk _) (closeQuote_thenLine ⟨_, cs.dropWhile isTextChar⟩ b)
  | letter =>
    simp only [read, takeWhile_append_line (p := isWordChar) (by decide),
      dropWhile_append_line (p := isWordChar) (by decide)]
    rfl
  | digit =>
    simp only [read, takeWhile_append_line (p := Char.isDigit) (by decide),
      dropWhile_append_line (p := Char.isDigit) (by decide)]
    rfl
  | mark m => rfl

theorem wordKind_ne_finish (word : List Char) : wordKind word ≠ .finish := by
  unfold wordKind
  split <;> exact Terminal.noConfusion

theorem read_kind_ne_finish (offset : Nat) (c : Char) (cs : List Char) (lead : Lead) :
    (read offset c cs lead).1.kind ≠ .finish := by
  cases lead with
  | letter => exact wordKind_ne_finish _
  | _ => exact Terminal.noConfusion

theorem offset_closeQuote (c : Cursor) :
    c.closeQuote.offset + byteSize c.closeQuote.rest = c.offset + byteSize c.rest := by
  have hquote : '"'.utf8Size = 1 := by decide
  unfold closeQuote
  split
  · simp only [byteSize_cons]
    omega
  · rfl

theorem byteSize_takeWhile_dropWhile (p : Char → Bool) (cs : List Char) :
    byteSize (cs.takeWhile p) + byteSize (cs.dropWhile p) = byteSize cs := by
  rw [← byteSize_append, List.takeWhile_append_dropWhile]

theorem offset_read (offset : Nat) (c : Char) (cs : List Char) {lead : Lead}
    (h : Lead.ofChar? c = some lead) :
    (read offset c cs lead).2.offset + byteSize (read offset c cs lead).2.rest =
      offset + byteSize (c :: cs) := by
  cases lead with
  | quote =>
    have hc : c = '"' := Lead.suits_of_ofChar? h
    have hquote : c.utf8Size = 1 := by rw [hc]; decide
    have hsize := byteSize_takeWhile_dropWhile isTextChar cs
    simp only [read, makeText, offset_closeQuote, make, byteSize_cons]
    omega
  | letter =>
    have hsize := byteSize_takeWhile_dropWhile isWordChar cs
    simp only [read, make, byteSize_cons]
    omega
  | digit =>
    have hsize := byteSize_takeWhile_dropWhile Char.isDigit cs
    simp only [read, make, byteSize_cons]
    omega
  | mark m =>
    simp only [read, make, byteSize_cons, byteSize_nil]
    omega

theorem isWordChar_ne {c : Char} (h : isWordChar c = true) : c ≠ '"' ∧ c ≠ '/' :=
  ⟨by rintro rfl; revert h; decide, by rintro rfl; revert h; decide⟩

theorem isDigit_ne {c : Char} (h : c.isDigit = true) : c ≠ '"' ∧ c ≠ '/' :=
  ⟨by rintro rfl; revert h; decide, by rintro rfl; revert h; decide⟩

theorem closed_closeQuote {cs : List Char} (h : Region.after .text cs ≠ .block) (offset : Nat) :
    Closed (closeQuote ⟨offset, cs.dropWhile isTextChar⟩).rest := by
  induction cs with
  | nil => exact Region.noConfusion
  | cons c cs ih =>
    rw [Region.after] at h
    by_cases hc : isTextChar c = true
    · rw [if_pos hc] at h
      rw [List.dropWhile_cons_of_pos hc]
      exact ih h
    · rw [if_neg hc] at h
      rw [List.dropWhile_cons_of_neg hc]
      by_cases hquote : c = '"'
      · subst hquote
        exact h
      · have hslash : c ≠ '/' := by rintro rfl; exact hc (by decide)
        have hclose : closeQuote ⟨offset, c :: cs⟩ = ⟨offset, c :: cs⟩ := by
          simp [closeQuote, hquote]
        rw [hclose, Closed, Region.after_code hquote hslash]
        exact h

theorem closed_read (offset : Nat) {c : Char} {cs : List Char} {lead : Lead}
    (hlead : Lead.ofChar? c = some lead)
    (hslash : c = '/' → ∀ d ∈ cs.head?, d ≠ '/' ∧ d ≠ '*') (h : Closed (c :: cs)) :
    Closed (read offset c cs lead).2.rest := by
  cases lead with
  | quote =>
    have hc : c = '"' := Lead.suits_of_ofChar? hlead
    rw [hc] at h
    exact closed_closeQuote h _
  | letter =>
    have hc : isLetter c = true := Lead.suits_of_ofChar? hlead
    obtain ⟨hquote, hslash⟩ := isWordChar_ne (c := c) (by simp [isWordChar, hc])
    rw [Closed, Region.after_code hquote hslash,
      ← Region.after_code_dropWhile (fun _ => isWordChar_ne)] at h
    exact h
  | digit =>
    obtain ⟨hquote, hslash⟩ := isDigit_ne (Lead.suits_of_ofChar? hlead)
    rw [Closed, Region.after_code hquote hslash,
      ← Region.after_code_dropWhile (fun _ => isDigit_ne)] at h
    exact h
  | mark m =>
    by_cases hc : c = '/'
    · subst hc
      rw [Closed, Region.after_code_slash (hslash rfl)] at h
      exact h
    · have hquote : c ≠ '"' := by
        rintro rfl
        simp [Lead.ofChar?] at hlead
      rw [Closed, Region.after_code hquote hc] at h
      exact h

/-! ## Whole texts -/

theorem next_of_finish {c : Cursor} (h : c.next.1.token.kind = .finish) :
    (skipGap .between [] c.offset c.rest).found = none := by
  unfold next at h
  cases hfound : (skipGap .between [] c.offset c.rest).found with
  | none => rfl
  | some found =>
    simp only [hfound] at h
    exact absurd h (read_kind_ne_finish _ _ _ _)

theorem next_of_found {c : Cursor} {lead : Lead} {d : Char} {cs : List Char}
    (h : (skipGap .between [] c.offset c.rest).found = some (lead, d, cs)) :
    c.next = (⟨(skipGap .between [] c.offset c.rest).skipped,
        (read (skipGap .between [] c.offset c.rest).offset d cs lead).1⟩,
      (read (skipGap .between [] c.offset c.rest).offset d cs lead).2) := by
  unfold next
  simp only [h]

theorem next_of_none {c : Cursor} (h : (skipGap .between [] c.offset c.rest).found = none) :
    c.next = (⟨(skipGap .between [] c.offset c.rest).skipped,
        ⟨.finish, ⟨(skipGap .between [] c.offset c.rest).offset, 0⟩, ""⟩⟩,
      ⟨(skipGap .between [] c.offset c.rest).offset, []⟩) := by
  unfold next
  simp only [h]

theorem offset_next (c : Cursor) :
    c.next.2.offset + byteSize c.next.2.rest = c.offset + byteSize c.rest := by
  have hgap := offset_skipGap .between [] c.offset c.rest
  cases hfound : (skipGap .between [] c.offset c.rest).found with
  | none => rw [next_of_none hfound, ← hgap, Landing.rest, hfound]
  | some found =>
    obtain ⟨lead, d, cs⟩ := found
    have hlead := (landing_of_found _ _ _ _ hfound).1
    rw [next_of_found hfound, offset_read _ _ _ hlead, ← hgap, Landing.rest, hfound]

theorem next_thenLine {c : Cursor} (h : Closed c.rest) (hkind : c.next.1.token.kind ≠ .finish)
    (b : List Char) :
    (c.thenLine b).next = (c.next.1, c.next.2.thenLine b) ∧ Closed c.next.2.rest := by
  have hgap := skipGap_append_line .between [] c.offset c.rest h b
  cases hfound : (skipGap .between [] c.offset c.rest).found with
  | none => exact absurd (by rw [next_of_none hfound]) hkind
  | some found =>
    obtain ⟨lead, d, cs⟩ := found
    obtain ⟨hlead, hslash, hregion⟩ := landing_of_found _ _ _ _ hfound
    have hclosed : Closed (d :: cs) := by
      rw [Closed, ← hregion]
      exact h
    simp only [Landing.thenLine, hfound] at hgap
    rw [next_of_found hfound]
    refine ⟨?_, closed_read _ hlead hslash hclosed⟩
    rw [next_of_found (c := c.thenLine b) (congrArg Landing.found hgap)]
    simp only [thenLine, hgap]
    rw [read_append_line]
    rfl

theorem next_thenLine_of_finish {c : Cursor} (h : Closed c.rest)
    (hkind : c.next.1.token.kind = .finish) (b : List Char) :
    (c.thenLine b).next =
      (⟨c.next.1.skipped ++ (next ⟨c.offset + byteSize c.rest + 1, b⟩).1.skipped,
        (next ⟨c.offset + byteSize c.rest + 1, b⟩).1.token⟩,
      (next ⟨c.offset + byteSize c.rest + 1, b⟩).2) := by
  have hnone := next_of_finish hkind
  have hgap := skipGap_append_line .between [] c.offset c.rest h b
  have hoffset := offset_skipGap .between [] c.offset c.rest
  simp only [Landing.rest, hnone, byteSize_nil, Nat.add_zero] at hoffset
  have hmove := skipGap_move .between [] (skipGap .between [] c.offset c.rest).skipped.reverse
    (c.offset + byteSize c.rest + 1) 0 b
  have hid : Skipped.move 0 = id := rfl
  simp only [List.map_nil, List.nil_append, List.reverse_reverse, hid, List.map_id,
    Nat.add_zero] at hmove
  simp only [Landing.thenLine, hnone, hoffset, hmove] at hgap
  rw [next_of_none hnone]
  cases hb : (skipGap .between [] (c.offset + byteSize c.rest + 1) b).found with
  | none =>
    rw [next_of_none (c := c.thenLine b) (by rw [thenLine, hgap, hb]),
      next_of_none (c := ⟨c.offset + byteSize c.rest + 1, b⟩) hb]
    simp only [thenLine, hgap]
  | some found =>
    obtain ⟨lead, d, cs⟩ := found
    rw [next_of_found (c := c.thenLine b) (by rw [thenLine, hgap, hb]),
      next_of_found (c := ⟨c.offset + byteSize c.rest + 1, b⟩) hb]
    simp only [thenLine, hgap]

theorem make_move (kind : Terminal) (offset d : Nat) (lexeme rest : List Char) :
    make kind (offset + d) lexeme rest =
      ((make kind offset lexeme rest).1.move d,
        ⟨(make kind offset lexeme rest).2.offset + d, rest⟩) := by
  simp only [make, Token.move, Nat.add_right_comm]

theorem closeQuote_move (offset d : Nat) (cs : List Char) :
    closeQuote ⟨offset + d, cs⟩ =
      ⟨(closeQuote ⟨offset, cs⟩).offset + d, (closeQuote ⟨offset, cs⟩).rest⟩ := by
  cases cs with
  | nil => rfl
  | cons c cs =>
    by_cases hc : c = '"'
    · subst hc
      simp only [closeQuote, Nat.add_right_comm]
    · simp [closeQuote, hc]

theorem read_move (offset d : Nat) (c : Char) (cs : List Char) (lead : Lead) :
    read (offset + d) c cs lead =
      ((read offset c cs lead).1.move d,
        ⟨(read offset c cs lead).2.offset + d, (read offset c cs lead).2.rest⟩) := by
  cases lead with
  | quote =>
    simp only [read, makeText]
    rw [Nat.add_right_comm, make_move]
    exact congrArg (Prod.mk _) (closeQuote_move _ d _)
  | letter | digit | mark => exact make_move _ offset d _ _

theorem next_move (offset d : Nat) (a : List Char) :
    next ⟨offset + d, a⟩ =
      (⟨(next ⟨offset, a⟩).1.skipped.map (Skipped.move d), (next ⟨offset, a⟩).1.token.move d⟩,
        ⟨(next ⟨offset, a⟩).2.offset + d, (next ⟨offset, a⟩).2.rest⟩) := by
  have hgap : skipGap .between [] (offset + d) a = _ := skipGap_move .between [] [] offset d a
  simp only [List.reverse_nil, List.nil_append] at hgap
  cases hfound : (skipGap .between [] offset a).found with
  | none =>
    rw [next_of_none (c := ⟨offset + d, a⟩) (by rw [hgap, hfound]),
      next_of_none (c := ⟨offset, a⟩) hfound]
    simp only [hgap]
    rfl
  | some found =>
    obtain ⟨lead, c, cs⟩ := found
    rw [next_of_found (c := ⟨offset + d, a⟩) (by rw [hgap, hfound]),
      next_of_found (c := ⟨offset, a⟩) hfound]
    simp only [hgap, read_move]

def scanned (c : Cursor) : List Scanned :=
  (scanFrom #[] c).toList

theorem scanned_of_finish {c : Cursor} (h : c.next.1.token.kind = .finish) :
    c.scanned = [c.next.1] := by
  rw [scanned, scanFrom_eq, if_pos h]
  rfl

theorem scanned_of_ne_finish {c : Cursor} (h : c.next.1.token.kind ≠ .finish) :
    c.scanned = c.next.1 :: c.next.2.scanned := by
  rw [scanned, scanFrom_eq, if_neg h, scanFrom_append]
  simp [scanned]

def tokens (c : Cursor) : List Token :=
  (scanFrom #[] c).toList.map Scanned.token

theorem tokens_of_finish {c : Cursor} (h : c.next.1.token.kind = .finish) :
    c.tokens = [c.next.1.token] :=
  congrArg (List.map Scanned.token) (scanned_of_finish h)

theorem tokens_of_ne_finish {c : Cursor} (h : c.next.1.token.kind ≠ .finish) :
    c.tokens = c.next.1.token :: c.next.2.tokens :=
  congrArg (List.map Scanned.token) (scanned_of_ne_finish h)

theorem tokens_ne_nil (c : Cursor) : c.tokens ≠ [] := by
  by_cases h : c.next.1.token.kind = .finish
  · simp [tokens_of_finish h]
  · simp [tokens_of_ne_finish h]

theorem tokens_move (offset d : Nat) (a : List Char) :
    tokens ⟨offset + d, a⟩ = (tokens ⟨offset, a⟩).map (Token.move d) := by
  have hkind : (next ⟨offset + d, a⟩).1.token.kind = (next ⟨offset, a⟩).1.token.kind := by
    rw [next_move]
    rfl
  by_cases h : (next ⟨offset, a⟩).1.token.kind = .finish
  · rw [tokens_of_finish h, tokens_of_finish (hkind.trans h), next_move]
    rfl
  · have hlength := length_next_lt h
    rw [tokens_of_ne_finish h, tokens_of_ne_finish (hkind ▸ h), next_move, List.map_cons,
      tokens_move]
termination_by a.length

theorem tokens_thenLine (c : Cursor) (h : Closed c.rest) (b : List Char) :
    (c.thenLine b).tokens =
      c.tokens.dropLast ++ tokens ⟨c.offset + byteSize c.rest + 1, b⟩ := by
  by_cases hkind : c.next.1.token.kind = .finish
  · have hnext := next_thenLine_of_finish h hkind b
    rw [tokens_of_finish hkind, List.dropLast_singleton, List.nil_append]
    by_cases hb : (next ⟨c.offset + byteSize c.rest + 1, b⟩).1.token.kind = .finish
    · rw [tokens_of_finish hb, tokens_of_finish (by rw [hnext]; exact hb), hnext]
    · rw [tokens_of_ne_finish hb, tokens_of_ne_finish (by rw [hnext]; exact hb), hnext]
  · have hlength := length_next_lt hkind
    obtain ⟨hnext, hclosed⟩ := next_thenLine h hkind b
    rw [tokens_of_ne_finish hkind, tokens_of_ne_finish (by rw [hnext]; exact hkind), hnext,
      tokens_thenLine _ hclosed, offset_next,
      List.dropLast_cons_of_ne_nil (tokens_ne_nil c.next.2), List.cons_append]
termination_by c.rest.length

end Cursor

/-! ## Places of tokens -/

namespace Cursor

theorem stop_read_le (offset : Nat) (c : Char) (cs : List Char) (lead : Lead) :
    (read offset c cs lead).1.span.index + byteSize (read offset c cs lead).1.lexeme.toList ≤
      (read offset c cs lead).2.offset := by
  have hmake : ∀ kind offset lexeme rest, (make kind offset lexeme rest).1.span.index +
      byteSize (make kind offset lexeme rest).1.lexeme.toList =
        (make kind offset lexeme rest).2.offset := by
    intro kind offset lexeme rest
    simp [make]
  cases lead with
  | quote =>
    have hclose : ∀ c : Cursor, c.offset ≤ c.closeQuote.offset := by
      intro c
      unfold closeQuote
      split
      · exact Nat.le_succ _
      · exact Nat.le_refl _
    have hstop := hmake .text (offset + 1) (cs.takeWhile isTextChar) (cs.dropWhile isTextChar)
    exact Nat.le_trans (Nat.le_of_eq hstop) (hclose _)
  | letter | digit | mark => exact Nat.le_of_eq (hmake _ _ _ _)

theorem stop_next_le (c : Cursor) :
    c.next.1.token.span.index + byteSize c.next.1.token.lexeme.toList ≤ c.next.2.offset := by
  cases hfound : (skipGap .between [] c.offset c.rest).found with
  | none =>
    rw [next_of_none hfound]
    exact Nat.le_refl _
  | some found =>
    obtain ⟨lead, d, cs⟩ := found
    rw [next_of_found hfound]
    exact stop_read_le _ d cs lead

theorem stop_le_of_mem_tokens (c : Cursor) :
    ∀ t ∈ c.tokens, t.span.index + byteSize t.lexeme.toList ≤ c.offset + byteSize c.rest := by
  intro t ht
  have hnext := stop_next_le c
  have hoffset := offset_next c
  by_cases hkind : c.next.1.token.kind = .finish
  · rw [tokens_of_finish hkind, List.mem_singleton] at ht
    subst ht
    omega
  · have hlength := length_next_lt hkind
    rw [tokens_of_ne_finish hkind] at ht
    rcases List.mem_cons.mp ht with rfl | ht
    · omega
    · rw [← hoffset]
      exact stop_le_of_mem_tokens c.next.2 t ht
termination_by c.rest.length

end Cursor

theorem stop_le_of_mem_tokenize {source : String} {t : Token} (h : t ∈ tokenize source) :
    t.span.index + byteSize t.lexeme.toList ≤ byteSize source.toList := by
  have hle := (Cursor.ofList source.toList).stop_le_of_mem_tokens t h
  rwa [Cursor.ofList, Nat.zero_add] at hle

/-! ## Whole sources -/

theorem tokenize_append_line {a : String} (h : Closed a.toList) (b : String) :
    tokenize (a ++ "\n" ++ b) =
      (tokenize a).dropLast ++ (tokenize b).map (Token.move (byteSize a.toList + 1)) := by
  have hline := (Cursor.ofList a.toList).tokens_thenLine h b.toList
  have htext : (a ++ "\n" ++ b).toList = a.toList ++ '\n' :: b.toList := by simp
  have hmove := Cursor.tokens_move 0 (byteSize a.toList + 1) b.toList
  simp only [Nat.zero_add] at hmove
  show Cursor.tokens ⟨0, (a ++ "\n" ++ b).toList⟩ = _
  rw [htext]
  refine hline.trans ?_
  rw [Cursor.ofList, Nat.zero_add, hmove]
  rfl

end JackCompiler
