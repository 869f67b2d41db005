import JackCompiler.Proofs.Token.Extension
import JackCompiler.Proofs.Token.Rendering

/-!
# Identifiers spelled in another way

If another identifier is put in place of some identifiers of a source, its tokens stay the
same but for the lexemes of these (`content_respell`).
-/

namespace JackCompiler

/-! ## Text in other places -/

/-- The text at the offset, with the word in place of what each of the spans covers. -/
def respellFrom (spans : List Span) (word : List Char) : Nat → List Char → List Char
  | _, [] => []
  | offset, c :: cs =>
    (if ∃ s ∈ spans, s.index < offset ∧ offset < s.stop then []
      else if ∃ s ∈ spans, s.index = offset then word
      else [c]) ++ respellFrom spans word (offset + c.utf8Size) cs

def respell (spans : List Span) (word source : String) : String :=
  String.ofList (respellFrom spans word.toList 0 source.toList)

section

variable {spans : List Span} {word : List Char} {offset : Nat}

theorem respellFrom_append (a b : List Char) :
    respellFrom spans word offset (a ++ b) =
      respellFrom spans word offset a ++ respellFrom spans word (offset + byteSize a) b := by
  induction a generalizing offset with
  | nil => rfl
  | cons c cs ih =>
    rw [List.cons_append, respellFrom, respellFrom, ih, byteSize_cons, List.append_assoc,
      Nat.add_assoc]

theorem respellFrom_apart {text : List Char} (hsize : ∀ s ∈ spans, 0 < s.size)
    (h : ∀ s ∈ spans, s.stop ≤ offset ∨ offset + byteSize text ≤ s.index) :
    respellFrom spans word offset text = text := by
  induction text generalizing offset with
  | nil => rfl
  | cons c cs ih =>
    have hc := c.utf8Size_pos
    rw [byteSize_cons] at h
    have hinside : ¬ ∃ s ∈ spans, s.index < offset ∧ offset < s.stop := by
      rintro ⟨s, hs, hindex, hstop⟩
      rcases h s hs with h | h <;> omega
    have hbegin : ¬ ∃ s ∈ spans, s.index = offset := by
      rintro ⟨s, hs, hindex⟩
      have := hsize s hs
      rcases h s hs with h | h
      · rw [Span.stop] at h
        omega
      · omega
    rw [respellFrom, if_neg hinside, if_neg hbegin, ih fun s hs => ?_]
    · rfl
    · rcases h s hs with h | h
      · exact .inl (by omega)
      · exact .inr (by omega)

theorem respellFrom_inside {text : List Char}
    (h : ∃ s ∈ spans, s.index < offset ∧ offset + byteSize text ≤ s.stop) :
    respellFrom spans word offset text = [] := by
  induction text generalizing offset with
  | nil => rfl
  | cons c cs ih =>
    obtain ⟨s, hs, hindex, hstop⟩ := h
    have hc := c.utf8Size_pos
    rw [byteSize_cons] at hstop
    rw [respellFrom, if_pos ⟨s, hs, hindex, by omega⟩, ih ⟨s, hs, by omega, by omega⟩]
    rfl

theorem respellFrom_span {text : List Char} (hne : text ≠ [])
    (hmem : ⟨offset, byteSize text⟩ ∈ spans)
    (h : ∀ s ∈ spans, ¬ (s.index < offset ∧ offset < s.stop)) :
    respellFrom spans word offset text = word := by
  obtain ⟨c, cs, rfl⟩ := List.exists_cons_of_ne_nil hne
  have hc := c.utf8Size_pos
  have hinside : ¬ ∃ s ∈ spans, s.index < offset ∧ offset < s.stop := by
    rintro ⟨s, hs, hs'⟩
    exact h s hs hs'
  have hrest : respellFrom spans word (offset + c.utf8Size) cs = [] := by
    refine respellFrom_inside ⟨_, hmem, ?_, ?_⟩
    · show offset < offset + c.utf8Size
      omega
    · show offset + c.utf8Size + byteSize cs ≤ offset + byteSize (c :: cs)
      rw [byteSize_cons]
      omega
  rw [respellFrom, if_neg hinside, if_pos ⟨_, hmem, rfl⟩, hrest, List.append_nil]

theorem respellFrom_next {gap text rest : List Char} (hsize : ∀ s ∈ spans, 0 < s.size)
    (hne : text ≠ []) (hmem : ⟨offset + byteSize gap, byteSize text⟩ ∈ spans)
    (h : ∀ s ∈ spans, s ≠ ⟨offset + byteSize gap, byteSize text⟩ →
      s.stop ≤ offset ∨ offset + byteSize (gap ++ text) ≤ s.index) :
    respellFrom spans word offset (gap ++ (text ++ rest)) =
      gap ++ (word ++ respellFrom spans word (offset + byteSize (gap ++ text)) rest) := by
  rw [byteSize_append] at h ⊢
  have hgap : respellFrom spans word offset gap = gap := by
    refine respellFrom_apart hsize fun s hs => ?_
    by_cases hspan : s = ⟨offset + byteSize gap, byteSize text⟩
    · rw [hspan]
      exact .inr (Nat.le_refl _)
    · exact (h s hs hspan).imp_right fun hindex => by omega
  have htext : respellFrom spans word (offset + byteSize gap) text = word := by
    refine respellFrom_span hne hmem fun s hs => ?_
    by_cases hspan : s = ⟨offset + byteSize gap, byteSize text⟩
    · rw [hspan]
      exact fun hinside => Nat.lt_irrefl _ hinside.1
    · have hapart := h s hs hspan
      omega
  rw [respellFrom_append, respellFrom_append, hgap, htext, Nat.add_assoc]

end

/-! ## Tokens with the other text -/

def Token.respelled (us : List Token) (word : String) (t : Token) : Token :=
  if t ∈ us then { t with lexeme := word } else t

@[simp] theorem Token.kind_respelled (us : List Token) (word : String) (t : Token) :
    (t.respelled us word).kind = t.kind := by
  unfold respelled
  split <;> rfl

theorem Token.respelled_of_mem {us : List Token} {t : Token} (h : t ∈ us) (word : String) :
    t.respelled us word = { t with lexeme := word } :=
  if_pos h

theorem Token.respelled_of_not_mem {us : List Token} {t : Token} (h : t ∉ us) (word : String) :
    t.respelled us word = t :=
  if_neg h

namespace Likewise

theorem refl (rest : List Char) : Likewise rest rest :=
  fun c hc => .inr ⟨c, hc, .inl rfl⟩

theorem words {word word' : List Char} (h : IsWord word) (h' : IsWord word')
    (rest rest' : List Char) : Likewise (word ++ rest) (word' ++ rest') := by
  obtain ⟨d, ds, rfl, hd, -⟩ := h
  obtain ⟨c, cs, rfl, hc, -⟩ := h'
  intro c' hc'
  obtain rfl := Option.some.inj hc'
  exact .inr ⟨d, rfl, .inr ⟨hd, hc⟩⟩

end Likewise

namespace Layout

variable {offset : Nat} {text : List Char} {ts us : List Token} {word : String}

theorem cons_ident {gap lexeme rest : List Char} (hgap : Trivia (lexeme ++ rest) gap)
    (htoken : Terminal.ident.Stands lexeme [] rest)
    (h : Layout (offset + byteSize (gap ++ lexeme)) rest ts) :
    Layout offset (gap ++ (lexeme ++ rest))
      (Terminal.ident.token (offset + byteSize gap) lexeme :: ts) := by
  have hcover : Terminal.ident.cover lexeme [] = lexeme := List.append_nil lexeme
  have hlayout : Layout offset (gap ++ (Terminal.ident.cover lexeme [] ++ rest))
      (Terminal.ident.token (offset + byteSize gap) lexeme :: ts) :=
    .token (by rwa [hcover]) htoken (by rwa [hcover])
  rwa [hcover] at hlayout

/-- The tokens are identifiers, and those that are not behind the text are tokens of it. -/
structure Replaces (us ts : List Token) (offset : Nat) : Prop where
  ident : ∀ t ∈ us, t.kind = .ident
  size : ∀ t ∈ us, 0 < t.span.size
  mem : ∀ t ∈ us, t ∈ ts ∨ t.span.stop ≤ offset

theorem Replaces.tail {t : Token} {stop : Nat} (h : Replaces us (t :: ts) offset)
    (ht : t.span.stop ≤ stop) (hle : offset ≤ stop) : Replaces us ts stop := by
  refine ⟨h.ident, h.size, fun u hu => ?_⟩
  rcases h.mem u hu with hmem | hstop
  · rcases List.mem_cons.mp hmem with rfl | hmem
    · exact .inr ht
    · exact .inl hmem
  · exact .inr (Nat.le_trans hstop hle)

theorem Replaces.apart {t : Token} {stop : Nat} (h : Replaces us (t :: ts) offset)
    (hts : ∀ u ∈ ts, stop ≤ u.span.index) :
    ∀ u ∈ us, u ≠ t → u.span.stop ≤ offset ∨ stop ≤ u.span.index := by
  intro u hu hne
  rcases h.mem u hu with hmem | hstop
  · exact .inr (hts u ((List.mem_cons.mp hmem).resolve_left hne))
  · exact .inl hstop

theorem exists_respelled (h : Layout offset text ts) (hus : Replaces us ts offset)
    (hword : Terminal.ident.Spells word.toList) (offset' : Nat) :
    ∃ ts', Layout offset' (respellFrom (us.map Token.span) word.toList offset text) ts' ∧
      ts'.map Token.content = ts.map (fun t => (t.respelled us word).content) ∧
      Likewise text (respellFrom (us.map Token.span) word.toList offset text) := by
  have hsize : ∀ s ∈ us.map Token.span, 0 < s.size := List.forall_mem_map.mpr hus.size
  induction h generalizing offset' with
  | @finish offset gap hgap =>
    have hno : (⟨.finish, ⟨offset + byteSize gap, 0⟩, ""⟩ : Token) ∉ us := fun hmem =>
      absurd (hus.size _ hmem) (Nat.lt_irrefl 0)
    have happart : respellFrom (us.map Token.span) word.toList offset gap = gap := by
      refine respellFrom_apart hsize (List.forall_mem_map.mpr fun t ht => ?_)
      rcases hus.mem t ht with hmem | hstop
      · rw [List.mem_singleton.mp hmem] at ht
        exact absurd ht hno
      · exact .inl hstop
    rw [happart]
    refine ⟨_, .finish hgap, ?_, .refl gap⟩
    rw [List.map_singleton, List.map_singleton, Token.respelled_of_not_mem hno]
    rfl
  | @token offset gap kind lexeme closing rest ts hgap htoken h ih =>
    have hother := hus.apart fun u hu => Nat.le_trans (Nat.le_add_right _ _) (h.index_ge u hu)
    have hbehind : Replaces us ts (offset + byteSize (gap ++ kind.cover lexeme closing)) := by
      refine hus.tail ?_ (Nat.le_add_right _ _)
      simp only [Terminal.token, Span.stop, Terminal.cover, byteSize_append]
      omega
    -- The token is exchanged for the word, or its characters are apart from all that are exchanged.
    by_cases hmem : kind.token (offset + byteSize gap) lexeme ∈ us
    · obtain rfl : kind = .ident := hus.ident _ hmem
      obtain rfl : closing = [] := htoken.closes
      have hcover : Terminal.ident.cover lexeme [] = lexeme := List.append_nil lexeme
      rw [hcover] at hgap hother hbehind ih ⊢
      have hne : lexeme ≠ [] := by
        obtain ⟨c, cs, rfl, -⟩ := htoken.spells.1
        exact List.cons_ne_nil c cs
      obtain ⟨ts', hts', hcontent, hlike⟩ := ih hbehind (offset' + byteSize (gap ++ word.toList))
      have hspan : ⟨offset + byteSize gap, byteSize lexeme⟩ ∈ us.map Token.span :=
        List.mem_map_of_mem hmem
      rw [respellFrom_next hsize hne hspan (List.forall_mem_map.mpr fun t ht hne =>
        hother t ht fun heq => hne (by rw [heq]; rfl))]
      -- Another word ends in front of the same rest, and the gap before it does not see the
      -- difference.
      have hwords := Likewise.words htoken.spells.1 hword.1 rest
        (respellFrom (us.map Token.span) word.toList (offset + byteSize (gap ++ lexeme)) rest)
      have hgap' := hgap.of_likewise (List.append_ne_nil_of_left_ne_nil hne _) hwords
      have hstands := htoken.of_likewise hlike
      refine ⟨_, cons_ident hgap' ⟨hstands.ne_finish, hword, hstands.closes, hstands.ends⟩ hts',
        ?_, hwords.append gap⟩
      rw [List.map_cons, List.map_cons, Token.respelled_of_mem hmem, hcontent]
      simp [Terminal.token, Token.content]
    · have hfront : respellFrom (us.map Token.span) word.toList offset
          (gap ++ kind.cover lexeme closing) = gap ++ kind.cover lexeme closing := by
        refine respellFrom_apart hsize (List.forall_mem_map.mpr fun t ht => ?_)
        exact hother t ht fun heq => hmem (heq ▸ ht)
      obtain ⟨ts', hts', hcontent, hlike⟩ := ih hbehind
        (offset' + byteSize (gap ++ kind.cover lexeme closing))
      rw [← List.append_assoc, respellFrom_append, hfront, List.append_assoc]
      refine ⟨_, cons_of_likewise hgap htoken hlike hts', ?_, ?_⟩
      · rw [List.map_cons, List.map_cons, Token.respelled_of_not_mem hmem, hcontent]
        rfl
      · rw [List.append_assoc]
        exact (hlike.append _).append _

end Layout

/-! ## Sources -/

theorem content_respell {source word : String} {us : List Token} (hus : us ⊆ tokenize source)
    (hident : ∀ t ∈ us, t.kind = .ident) (hword : Terminal.ident.Spells word.toList) :
    (tokenize (respell (us.map Token.span) word source)).map Token.content =
      (tokenize source).map fun t => (t.respelled us word).content := by
  have hlayout : Layout 0 source.toList (tokenize source) := Cursor.tokens_eq_iff.mp rfl
  have hsize : ∀ t ∈ us, 0 < t.span.size := by
    intro t ht
    obtain ⟨before, behind, -, hspan, hspells, -⟩ := hlayout.exists_place (hus ht)
    rw [hident t ht] at hspells
    obtain ⟨c, cs, hlexeme, -⟩ := hspells.1
    rw [hspan, hlexeme]
    exact Nat.pos_of_ne_zero fun hzero => List.cons_ne_nil c cs (byteSize_eq_zero_iff.mp hzero)
  obtain ⟨ts, hts, hcontent, -⟩ :=
    hlayout.exists_respelled ⟨hident, hsize, fun t ht => .inl (hus ht)⟩ hword 0
  have htokens : tokenize (respell (us.map Token.span) word source) = ts := by
    refine Cursor.tokens_of_layout ?_
    rwa [respell, String.toList_ofList]
  rw [htokens, hcontent]

end JackCompiler
