import JackCompiler.Proofs.Token.Reading

/-!
# Texts put together at a line end

What a text leaves open, a line end closes, unless it is a block comment. So a text and one on
the lines behind it are scanned as each of them is by itself: the tokens are those of both,
and so are the characters that are skipped (`scanning_composes`).
-/

namespace JackCompiler

/-! ## What is open behind a line end -/

theorem Region.after_append_line {r : Region} {a : List Char} (h : r.after a ≠ .block)
    (b : List Char) : r.after (a ++ '\n' :: b) = Region.after .code b := by
  have hline : isLineEnd '\n' = true := by decide
  have htext : ¬ isTextChar '\n' = true := by decide
  fun_induction Region.after r a with
  | case1 r =>
    rw [List.nil_append]
    cases r with
    | code => exact after_code (by decide) (by decide) b
    | line => exact after_lineEnd hline b
    | block => exact absurd rfl h
    | text => rw [after, if_neg htext]
  | case2 cs ih | case3 cs ih | case4 cs ih | case7 cs ih =>
    rw [← ih h]
    rfl
  -- A slash before the line end opens no comment, since the line end is neither slash nor star.
  | case5 c cs hquote hslash hstar ih =>
    rw [← ih h, List.cons_append]
    by_cases hc : c = '/'
    · subst hc
      have hhead : ∀ d ∈ cs.head?, d ≠ '/' ∧ d ≠ '*' := fun d hd =>
        ⟨head?_ne (fun rest hrest => hslash rest rfl hrest) d hd,
          head?_ne (fun rest hrest => hstar rest rfl hrest) d hd⟩
      exact after_code_slash (head?_append_line hhead (by decide) b)
    · exact after_code hquote hc _
  | case6 c cs ih | case9 c cs ih =>
    rw [← ih h, List.cons_append, after]
  | case8 c cs hstar ih =>
    rw [← ih h, List.cons_append]
    by_cases hc : c = '*'
    · subst hc
      exact after_block_star
        (head?_append_line (head?_ne fun rest hrest => hstar rest rfl hrest) (by decide) b)
    · exact after_block hc _

theorem closed_append_line_iff {a : List Char} (h : Closed a) (b : List Char) :
    Closed (a ++ '\n' :: b) ↔ Closed b := by
  rw [Closed, Region.after_append_line h, Closed]

/-! ## What is skipped -/

namespace Cursor

def skipped (c : Cursor) : List Skipped :=
  c.scanned.flatMap Scanned.skipped

theorem skipped_of_finish {c : Cursor} (h : c.next.1.token.kind = .finish) :
    c.skipped = c.next.1.skipped := by
  rw [skipped, scanned_of_finish h, List.flatMap_singleton]

theorem skipped_of_ne_finish {c : Cursor} (h : c.next.1.token.kind ≠ .finish) :
    c.skipped = c.next.1.skipped ++ c.next.2.skipped := by
  rw [skipped, scanned_of_ne_finish h, List.flatMap_cons]
  rfl

theorem skipped_move (offset d : Nat) (a : List Char) :
    skipped ⟨offset + d, a⟩ = (skipped ⟨offset, a⟩).map (Skipped.move d) := by
  have hkind : (next ⟨offset + d, a⟩).1.token.kind = (next ⟨offset, a⟩).1.token.kind := by
    rw [next_move]
    rfl
  by_cases h : (next ⟨offset, a⟩).1.token.kind = .finish
  · rw [skipped_of_finish h, skipped_of_finish (hkind.trans h), next_move]
  · have hlength := length_next_lt h
    rw [skipped_of_ne_finish h, skipped_of_ne_finish (hkind ▸ h), next_move, List.map_append,
      skipped_move]
termination_by a.length

theorem skipped_thenLine (c : Cursor) (h : Closed c.rest) (b : List Char) :
    (c.thenLine b).skipped = c.skipped ++ skipped ⟨c.offset + byteSize c.rest + 1, b⟩ := by
  by_cases hkind : c.next.1.token.kind = .finish
  · have hnext := next_thenLine_of_finish h hkind b
    rw [skipped_of_finish hkind]
    by_cases hb : (next ⟨c.offset + byteSize c.rest + 1, b⟩).1.token.kind = .finish
    · rw [skipped_of_finish hb, skipped_of_finish (by rw [hnext]; exact hb), hnext]
    · rw [skipped_of_ne_finish hb, skipped_of_ne_finish (by rw [hnext]; exact hb), hnext,
        List.append_assoc]
  · have hlength := length_next_lt hkind
    obtain ⟨hnext, hclosed⟩ := next_thenLine h hkind b
    rw [skipped_of_ne_finish hkind, skipped_of_ne_finish (by rw [hnext]; exact hkind), hnext,
      skipped_thenLine _ hclosed, offset_next, List.append_assoc]
termination_by c.rest.length

end Cursor

/-! ## Whole sources -/

theorem toList_append_line (a b : String) :
    (a ++ "\n" ++ b).toList = a.toList ++ '\n' :: b.toList := by
  simp

theorem skippedIn_append_line {a : String} (h : Closed a.toList) (b : String) :
    skippedIn (a ++ "\n" ++ b) =
      skippedIn a ++ (skippedIn b).map (Skipped.move (byteSize a.toList + 1)) := by
  have hline := (Cursor.ofList a.toList).skipped_thenLine h b.toList
  have hmove := Cursor.skipped_move 0 (byteSize a.toList + 1) b.toList
  simp only [Nat.zero_add] at hmove
  show Cursor.skipped ⟨0, (a ++ "\n" ++ b).toList⟩ = _
  rw [toList_append_line]
  refine hline.trans ?_
  rw [Cursor.ofList, Nat.zero_add, hmove]
  rfl

/-- The tokens of a text on lines of its own are the same whatever stands on the lines before and
behind it, but for their places. -/
theorem scanning_composes {a : String} (h : Closed a.toList) (b : String) :
    tokenize (a ++ "\n" ++ b) =
        (tokenize a).dropLast ++ (tokenize b).map (Token.move (byteSize a.toList + 1)) ∧
      skippedIn (a ++ "\n" ++ b) =
        skippedIn a ++ (skippedIn b).map (Skipped.move (byteSize a.toList + 1)) ∧
      (Closed (a ++ "\n" ++ b).toList ↔ Closed b.toList) ∧
      ∀ front : String, Closed front.toList →
        tokenize (front ++ "\n" ++ (a ++ "\n" ++ b)) =
          (tokenize front).dropLast ++
            ((tokenize a).dropLast.map (Token.move (byteSize front.toList + 1)) ++
              (tokenize b).map (Token.move (byteSize front.toList + byteSize a.toList + 2))) := by
  refine ⟨tokenize_append_line h b, skippedIn_append_line h b, ?_, fun front hfront => ?_⟩
  · rw [toList_append_line]
    exact closed_append_line_iff h b.toList
  · have hsum : byteSize a.toList + 1 + (byteSize front.toList + 1) =
        byteSize front.toList + byteSize a.toList + 2 := by omega
    rw [tokenize_append_line hfront, tokenize_append_line h, List.map_append,
      Token.map_move_move, hsum]

def openTextLine : String :=
  "é = \"// b"

theorem scanning_composes_openTextLine :
    Closed openTextLine.toList ∧
      tokenize (openTextLine ++ "\n" ++ "c @") =
        [⟨.mark .eq, ⟨3, 1⟩, "="⟩, ⟨.text, ⟨6, 4⟩, "// b"⟩, ⟨.ident, ⟨11, 1⟩, "c"⟩,
          ⟨.finish, ⟨14, 0⟩, ""⟩] ∧
      skippedIn (openTextLine ++ "\n" ++ "c @") = [⟨'é', 0⟩, ⟨'@', 13⟩] := by
  have hclosed : Closed openTextLine.toList := by decide +kernel
  obtain ⟨htokens, hskipped, -⟩ := scanning_composes hclosed "c @"
  rw [htokens, hskipped]
  exact ⟨hclosed, by decide +kernel, by decide +kernel⟩

end JackCompiler
