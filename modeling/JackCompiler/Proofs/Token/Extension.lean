import JackCompiler.Proofs.Token.Layout

/-!
# Tokens of texts that go on

The tokens before the end of a text, or before a mark in it, are those of any text that goes
on from there. At the end a line feed is needed, which is in no token
(`exists_tokenize_append_line`); a mark ends itself (`exists_tokenize_behind_mark`).
-/

namespace JackCompiler

/-! ## What a token needs of the text behind it -/

/-- The second text begins as the first one does, as far as a token before it can tell. One
letter is as good as another, and nothing goes on behind a line feed. -/
def Likewise (rest rest' : List Char) : Prop :=
  ∀ c ∈ rest'.head?, c = '\n' ∨ ∃ d ∈ rest.head?, d = c ∨ isLetter d = true ∧ isLetter c = true

namespace Likewise

variable {rest rest' : List Char}

theorem forall_head? (h : Likewise rest rest') {P : Char → Prop} (hrest : ∀ c ∈ rest.head?, P c)
    (hline : P '\n') (hletter : ∀ d c, isLetter d = true → isLetter c = true → P d → P c) :
    ∀ c ∈ rest'.head?, P c := by
  intro c hc
  rcases h c hc with rfl | ⟨d, hd, rfl | ⟨hletter₁, hletter₂⟩⟩
  · exact hline
  · exact hrest d hd
  · exact hletter d c hletter₁ hletter₂ (hrest d hd)

theorem append (h : Likewise rest rest') (a : List Char) : Likewise (a ++ rest) (a ++ rest') := by
  cases a with
  | nil => exact h
  | cons c cs => exact fun d hd => .inr ⟨d, hd, .inl rfl⟩

end Likewise

def Meets (rest rest' : List Char) : Prop :=
  ∀ c ∈ rest'.head?, c ∈ rest.head? ∨ c = '\n'

namespace Meets

variable {rest rest' : List Char}

theorem likewise (h : Meets rest rest') : Likewise rest rest' := by
  intro c hc
  rcases h c hc with hc | rfl
  · exact .inr ⟨c, hc, .inl rfl⟩
  · exact .inl rfl

theorem line (rest b : List Char) : Meets rest (rest ++ '\n' :: b) := by
  cases rest with
  | nil => simp [Meets]
  | cons c cs => exact fun d hd => .inl hd

end Meets

theorem ne_of_isLetter {c d : Char} (hc : isLetter c = true) (hd : isLetter d = false) :
    c ≠ d := by
  rintro rfl
  rw [hc] at hd
  cases hd

theorem isWordChar_of_isLetter {c : Char} (hc : isLetter c = true) : isWordChar c = true := by
  rw [isWordChar, hc, Bool.true_or]

theorem isTextChar_of_isLetter {c : Char} (hc : isLetter c = true) : isTextChar c = true := by
  have hquote : c ≠ '"' := ne_of_isLetter hc (by decide)
  have hline : c ≠ '\n' := ne_of_isLetter hc (by decide)
  have hreturn : c ≠ '\r' := ne_of_isLetter hc (by decide)
  simp [isTextChar, isLineEnd, hquote, hline, hreturn]

theorem Terminal.Stands.of_likewise {kind : Terminal} {lexeme closing rest rest' : List Char}
    (h : Terminal.Stands kind lexeme closing rest) (hlike : Likewise rest rest') :
    Terminal.Stands kind lexeme closing rest' := by
  refine ⟨h.ne_finish, h.spells, ?_, ?_⟩
  · have hcloses := h.closes
    cases kind with
    | text =>
      rcases (hcloses : _ ∨ _) with hclosing | ⟨hclosing, hrest⟩
      · exact .inl hclosing
      · refine .inr ⟨hclosing, hlike.forall_head? hrest (by decide) fun d c _ hc _ => ?_⟩
        exact ne_of_isLetter hc (by decide)
    | mark | ident | keyword | number | finish => exact hcloses
  · have hends := h.ends
    have hbehind := hlike.append closing
    cases kind with
    | mark m =>
      cases m with
      | slash =>
        refine hbehind.forall_head? hends (by decide) fun d c _ hc _ => ?_
        exact ⟨ne_of_isLetter hc (by decide), ne_of_isLetter hc (by decide)⟩
      | _ => exact trivial
    | ident | keyword =>
      refine hbehind.forall_head? hends (by decide) fun d c hd _ hno => ?_
      exact absurd (isWordChar_of_isLetter hd) hno
    | number =>
      refine hbehind.forall_head? hends (by decide) fun d c _ hc _ hdigit => ?_
      exact not_isLetter_of_isDigit hdigit hc
    | text =>
      refine hbehind.forall_head? hends (by decide) fun d c hd _ hno => ?_
      exact absurd (isTextChar_of_isLetter hd) hno
    | finish => exact absurd rfl h.ne_finish

theorem Trivia.of_likewise {rest rest' gap : List Char} (h : Trivia rest gap) (hrest : rest ≠ [])
    (hlike : Likewise rest rest') : Trivia rest' gap := by
  induction h with
  | nil => exact .nil
  | blank hc _ ih => exact .blank hc ih
  | odd hblank hc _ ih => exact .odd hblank hc ih
  | line hbody hend _ ih =>
    refine .line hbody ((hlike.append _).forall_head? hend (by decide) fun d c hd _ hline => ?_) ih
    have htext := isTextChar_of_isLetter hd
    rw [isTextChar, hline, Bool.not_true, Bool.and_false] at htext
    cases htext
  | block hbody _ ih => exact .block hbody ih
  | openBlock hnil _ => exact absurd hnil hrest

/-! ## Layouts -/

namespace Layout

variable {offset : Nat} {text : List Char} {ts : List Token}

theorem cons_of_likewise {gap : List Char} {kind : Terminal} {lexeme closing rest rest' : List Char}
    (hgap : Trivia (kind.cover lexeme closing ++ rest) gap)
    (htoken : Terminal.Stands kind lexeme closing rest) (hlike : Likewise rest rest')
    (h : Layout (offset + byteSize (gap ++ kind.cover lexeme closing)) rest' ts) :
    Layout offset (gap ++ (kind.cover lexeme closing ++ rest'))
      (kind.token (offset + byteSize gap) lexeme :: ts) := by
  have hne : kind.cover lexeme closing ++ rest ≠ [] :=
    List.append_ne_nil_of_left_ne_nil htoken.cover_ne_nil _
  exact .token (hgap.of_likewise hne (hlike.append _)) (htoken.of_likewise hlike) h

theorem ne_nil (h : Layout offset text ts) : ts ≠ [] := by
  cases h <;> exact List.cons_ne_nil _ _

theorem exists_append_line (h : Layout offset text ts) (b : List Char) :
    ∃ more, more ≠ [] ∧ Layout offset (text ++ '\n' :: b) (ts.dropLast ++ more) := by
  induction h with
  -- Behind the last token there may have been an open comment, so the gap is read anew.
  | @finish offset gap hgap =>
    obtain ⟨more, hmore⟩ := Cursor.exists_layout offset (gap ++ '\n' :: b)
    exact ⟨more, hmore.ne_nil, hmore⟩
  | @token offset gap kind lexeme closing rest ts hgap htoken h ih =>
    obtain ⟨more, hne, hmore⟩ := ih
    refine ⟨more, hne, ?_⟩
    rw [List.dropLast_cons_of_ne_nil h.ne_nil, List.append_assoc, List.append_assoc]
    exact cons_of_likewise hgap htoken (Meets.line rest b).likewise hmore

theorem exists_behind_mark {front rest : List Token} {t : Token} {m : Mark}
    (h : Layout offset text (front ++ t :: rest)) (ht : t.kind = .mark m) (hm : m ≠ .slash) :
    ∃ before after, text = before ++ m.char :: after ∧ t.span.index = offset + byteSize before ∧
      ∀ after', ∃ more, more ≠ [] ∧
        Layout offset (before ++ m.char :: after') (front ++ t :: more) := by
  generalize hts : front ++ t :: rest = ts at h
  induction h generalizing front with
  | @finish offset gap hgap =>
    have hkind : t.kind = .finish := by
      have hmem : t ∈ front ++ t :: rest := by simp
      rw [hts, List.mem_singleton] at hmem
      rw [hmem]
    rw [ht] at hkind
    cases hkind
  | @token offset gap kind lexeme closing behind ts hgap htoken h ih =>
    cases front with
    | nil =>
      obtain ⟨rfl, -⟩ := List.cons.inj hts
      obtain rfl : kind = .mark m := ht
      obtain rfl : lexeme = [m.char] := htoken.spells
      obtain rfl : closing = [] := htoken.closes
      refine ⟨gap, behind, rfl, rfl, fun after' => ?_⟩
      obtain ⟨more, hmore⟩ :=
        Cursor.exists_layout (offset + byteSize (gap ++ (Terminal.mark m).cover [m.char] [])) after'
      have hstands : (Terminal.mark m).Stands [m.char] [] after' := by
        refine ⟨htoken.ne_finish, rfl, rfl, ?_⟩
        -- Any mark but the slash ends whatever follows it.
        cases m <;> first | exact trivial | exact absurd rfl hm
      refine ⟨more, hmore.ne_nil, .token ?_ hstands hmore⟩
      exact hgap.of_likewise (List.cons_ne_nil _ _) fun c hc => .inr ⟨c, hc, .inl rfl⟩
    | cons s front =>
      obtain ⟨rfl, hrest⟩ := List.cons.inj hts
      obtain ⟨before, after, rfl, hindex, hafter⟩ := ih hrest
      refine ⟨gap ++ (kind.cover lexeme closing ++ before), after, ?_, ?_, fun after' => ?_⟩
      · simp only [List.append_assoc]
      · rw [hindex]
        simp only [byteSize_append, Nat.add_assoc]
      · obtain ⟨more, hne, hmore⟩ := hafter after'
        refine ⟨more, hne, ?_⟩
        have hmeets : Meets (before ++ m.char :: after) (before ++ m.char :: after') := by
          cases before <;> exact fun c hc => .inl hc
        have hcons := cons_of_likewise hgap htoken hmeets.likewise hmore
        rw [List.append_assoc, List.append_assoc]
        exact hcons

end Layout

/-! ## Sources -/

theorem exists_tokenize_append_line (s t : String) :
    ∃ more, more ≠ [] ∧ tokenize (s ++ "\n" ++ t) = (tokenize s).dropLast ++ more := by
  have hlayout : Layout 0 s.toList (tokenize s) := Cursor.tokens_eq_iff.mp rfl
  obtain ⟨more, hne, hmore⟩ := hlayout.exists_append_line t.toList
  have htext : (s ++ "\n" ++ t).toList = s.toList ++ '\n' :: t.toList := by simp
  rw [← htext] at hmore
  exact ⟨more, hne, Cursor.tokens_of_layout hmore⟩

theorem exists_tokenize_behind_mark {source : String} {front rest : List Token} {t : Token}
    {m : Mark} (h : tokenize source = front ++ t :: rest) (ht : t.kind = .mark m)
    (hm : m ≠ .slash) :
    ∃ before after, source = before ++ m.char.toString ++ after ∧
      t.span.index = byteSize before.toList ∧
      ∀ after', ∃ more, tokenize (before ++ m.char.toString ++ after') = front ++ t :: more := by
  have hlayout : Layout 0 source.toList (tokenize source) := Cursor.tokens_eq_iff.mp rfl
  rw [h] at hlayout
  obtain ⟨before, after, htext, hindex, hafter⟩ := hlayout.exists_behind_mark ht hm
  refine ⟨String.ofList before, String.ofList after, ?_, ?_, fun after' => ?_⟩
  · rw [← String.toList_inj, htext]
    simp
  · rw [hindex, String.toList_ofList, Nat.zero_add]
  · obtain ⟨more, -, hmore⟩ := hafter after'.toList
    have htext' : (String.ofList before ++ m.char.toString ++ after').toList =
        before ++ m.char :: after'.toList := by simp
    rw [← htext'] at hmore
    exact ⟨more, Cursor.tokens_of_layout hmore⟩

end JackCompiler
