import JackCompiler.Proofs.Token.Layout

/-!
# Rendered tokens

Tokens that are written one after the other, with a space between any two of them, are read
as they were. So what a source has besides its tokens does not matter to them
(`rendering_preserves_tokens`).
-/

namespace JackCompiler

/-! ## Lexemes -/

/-- A token, but for its place; the last one of a source is none. -/
structure Lexeme where
  kind : Terminal
  text : String
  ne_finish : kind ≠ .finish
  spells : kind.Spells text.toList

def Token.content (t : Token) : Terminal × String :=
  (t.kind, t.lexeme)

namespace Lexeme

def content (l : Lexeme) : Terminal × String :=
  (l.kind, l.text)

def written (l : Lexeme) : String :=
  match l.kind with
  | .text => "\"" ++ l.text ++ "\""
  | _ => l.text

theorem toList_written (l : Lexeme) :
    l.written.toList = l.kind.cover l.text.toList l.kind.opening := by
  unfold written
  by_cases hkind : l.kind = .text
  · simp [hkind, Terminal.cover, Terminal.opening]
  · have hopening : l.kind.opening = [] := by
      unfold Terminal.opening
      split
      · next htext => exact absurd htext hkind
      · rfl
    rw [Terminal.cover, hopening, List.nil_append, List.append_nil]
    split
    · next htext => exact absurd htext hkind
    · rfl

/-- A space, like the end of a text, ends any token. -/
theorem stands (l : Lexeme) {rest : List Char} (hrest : ∀ c ∈ rest.head?, c = ' ') :
    l.kind.Stands l.text.toList l.kind.opening rest := by
  have hspace : ∀ P : Char → Prop, P ' ' → ∀ c ∈ rest.head?, P c := by
    intro P hP c hc
    rw [hrest c hc]
    exact hP
  obtain ⟨kind, text, hfinish, hspells⟩ := l
  cases kind with
  | mark m =>
    refine ⟨hfinish, hspells, rfl, ?_⟩
    by_cases hm : m = .slash
    · subst hm
      exact hspace _ (by decide)
    · cases m <;> first | exact trivial | exact absurd rfl hm
  | ident => exact ⟨hfinish, hspells, rfl, hspace _ (by decide)⟩
  | keyword k => exact ⟨hfinish, hspells, rfl, hspace _ (by decide)⟩
  | number => exact ⟨hfinish, hspells, rfl, hspace _ (by decide)⟩
  | text => exact ⟨hfinish, hspells, .inl rfl, by simp [Terminal.Ends, Terminal.opening, isTextChar]⟩
  | finish => exact absurd rfl hfinish

end Lexeme

def render (ls : List Lexeme) : String :=
  " ".intercalate (ls.map Lexeme.written)

/-! ## Layouts of renderings -/

def spaced (ls : List Lexeme) : List Char :=
  ls.flatMap fun l => ' ' :: l.written.toList

theorem toList_render_cons (l : Lexeme) (ls : List Lexeme) :
    (render (l :: ls)).toList = l.written.toList ++ spaced ls := by
  unfold render spaced
  rw [String.toList_intercalate]
  induction ls generalizing l with
  | nil => simp
  | cons k ls ih =>
    have hrest := ih k
    simp only [List.map_cons] at hrest ⊢
    rw [List.intercalate_cons_cons, hrest]
    simp

theorem head?_spaced (ls : List Lexeme) : ∀ c ∈ (spaced ls).head?, c = ' ' := by
  cases ls with
  | nil => simp [spaced]
  | cons l ls => exact fun _ hc => (Option.some.inj hc).symm

theorem exists_layout_cons {offset : Nat} {l : Lexeme} {ls : List Lexeme} (gap : List Char)
    (hgap : ∀ rest, Trivia rest gap)
    (h : ∀ offset, ∃ ts, Layout offset (spaced ls) ts ∧
      ts.map Token.content = ls.map Lexeme.content ++ [(.finish, "")]) :
    ∃ ts, Layout offset (gap ++ (l.written.toList ++ spaced ls)) ts ∧
      ts.map Token.content = (l :: ls).map Lexeme.content ++ [(.finish, "")] := by
  rw [l.toList_written]
  obtain ⟨ts, hts, hcontent⟩ :=
    h (offset + byteSize (gap ++ l.kind.cover l.text.toList l.kind.opening))
  refine ⟨_, .token (hgap _) (l.stands (head?_spaced ls)) hts, ?_⟩
  rw [List.map_cons, hcontent, List.map_cons, List.cons_append]
  simp [Terminal.token, Token.content, Lexeme.content]

theorem exists_layout_spaced (offset : Nat) (ls : List Lexeme) :
    ∃ ts, Layout offset (spaced ls) ts ∧
      ts.map Token.content = ls.map Lexeme.content ++ [(.finish, "")] := by
  induction ls generalizing offset with
  | nil => exact ⟨_, .finish .nil, rfl⟩
  | cons l ls ih =>
    exact exists_layout_cons [' '] (fun _ => .blank (by decide) .nil) ih

theorem tokenize_render (ls : List Lexeme) :
    (tokenize (render ls)).map Token.content = ls.map Lexeme.content ++ [(.finish, "")] := by
  have hlayout : ∃ ts, Layout 0 (render ls).toList ts ∧
      ts.map Token.content = ls.map Lexeme.content ++ [(.finish, "")] := by
    cases ls with
    | nil => exact ⟨_, .finish .nil, rfl⟩
    | cons l ls =>
      rw [toList_render_cons]
      exact exists_layout_cons [] (fun _ => .nil) fun offset => exists_layout_spaced offset ls
  obtain ⟨ts, hts, hcontent⟩ := hlayout
  rw [← hcontent, ← Cursor.tokens_eq_iff.mpr hts]
  rfl

/-! ## Tokens of a source -/

theorem exists_lexemes (ts : List Token)
    (h : ∀ t ∈ ts, t.kind ≠ .finish ∧ t.kind.Spells t.lexeme.toList) :
    ∃ ls : List Lexeme, ts.map Token.content = ls.map Lexeme.content := by
  induction ts with
  | nil => exact ⟨[], rfl⟩
  | cons t ts ih =>
    obtain ⟨⟨hfinish, hspells⟩, hts⟩ := List.forall_mem_cons.mp h
    obtain ⟨ls, hls⟩ := ih hts
    refine ⟨⟨t.kind, t.lexeme, hfinish, hspells⟩ :: ls, ?_⟩
    rw [List.map_cons, hls]
    rfl

theorem exists_lexemes_tokenize (source : String) : ∃ ls : List Lexeme,
    (tokenize source).map Token.content = ls.map Lexeme.content ++ [(.finish, "")] := by
  have hlayout : Layout 0 source.toList (tokenize source) := Cursor.tokens_eq_iff.mp rfl
  obtain ⟨front, hfront, hkinds⟩ := hlayout.exists_front
  obtain ⟨ls, hls⟩ := exists_lexemes front fun t ht => by
    have hmem : t ∈ tokenize source := by
      rw [hfront]
      exact List.mem_append_left _ ht
    obtain ⟨_, _, _, _, hspells, _⟩ := hlayout.exists_place hmem
    exact ⟨hkinds t ht, hspells⟩
  refine ⟨ls, ?_⟩
  rw [hfront, List.map_append, hls]
  rfl

theorem rendering_preserves_tokens :
    (∀ ls : List Lexeme,
      (tokenize (render ls)).map Token.content = ls.map Lexeme.content ++ [(.finish, "")]) ∧
    ∀ source, ∃ ls : List Lexeme,
      (tokenize source).map Token.content = ls.map Lexeme.content ++ [(.finish, "")] ∧
      (tokenize (render ls)).map Token.content = (tokenize source).map Token.content := by
  refine ⟨tokenize_render, fun source => ?_⟩
  obtain ⟨ls, hls⟩ := exists_lexemes_tokenize source
  exact ⟨ls, hls, (tokenize_render ls).trans hls.symm⟩

end JackCompiler
