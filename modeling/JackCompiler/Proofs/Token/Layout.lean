import Mathlib.Data.List.Chain
import Mathlib.Data.List.TakeWhile
import Mathlib.Logic.Function.Iterate
import JackCompiler.Proofs.Token.Lines
import JackCompiler.Proofs.Token.Trivia

/-!
# Layouts

A text is laid out as tokens if it is trivia, a token, trivia, a token and so on, where each
token is as long as it can be. Every text is laid out in one way, and the tokens are those
that scanning it gives (`Cursor.tokens_eq_iff`).
-/

namespace JackCompiler

/-! ## The text of a token -/

/-- A letter, or an underscore, and more of these and digits. -/
def IsWord (word : List Char) : Prop :=
  ∃ c cs, word = c :: cs ∧ isLetter c = true ∧ ∀ d ∈ cs, isWordChar d = true

namespace Terminal

/-- The texts that a token of the kind can have. -/
def Spells : Terminal → List Char → Prop
  | .mark m, lexeme => lexeme = [m.char]
  | .ident, lexeme => IsWord lexeme ∧ ∀ k : Keyword, lexeme ≠ k.spelling.toList
  | .keyword k, lexeme => lexeme = k.spelling.toList
  | .number, lexeme => lexeme ≠ [] ∧ ∀ c ∈ lexeme, c.isDigit = true
  | .text, lexeme => ∀ c ∈ lexeme, isTextChar c = true
  | .finish, lexeme => lexeme = []

/-- The text behind a token of the kind does not begin with what would be part of it. -/
def Ends : Terminal → List Char → Prop
  | .mark .slash, behind => ∀ c ∈ behind.head?, c ≠ '/' ∧ c ≠ '*'
  | .mark _, _ => True
  | .ident, behind => ∀ c ∈ behind.head?, ¬ isWordChar c = true
  | .keyword _, behind => ∀ c ∈ behind.head?, ¬ isWordChar c = true
  | .number, behind => ∀ c ∈ behind.head?, ¬ c.isDigit = true
  | .text, behind => ∀ c ∈ behind.head?, ¬ isTextChar c = true
  | .finish, behind => behind = []

def opening : Terminal → List Char
  | .text => ['"']
  | _ => []

/-- What stands directly behind the text of a token, `rest` being what follows. -/
def Closes : Terminal → List Char → List Char → Prop
  | .text, closing, rest => closing = ['"'] ∨ closing = [] ∧ ∀ c ∈ rest.head?, c ≠ '"'
  | _, closing, _ => closing = []

def cover (kind : Terminal) (lexeme closing : List Char) : List Char :=
  kind.opening ++ lexeme ++ closing

def token (kind : Terminal) (offset : Nat) (lexeme : List Char) : Token :=
  ⟨kind, ⟨offset + byteSize kind.opening, byteSize lexeme⟩, String.ofList lexeme⟩

/-- A token of the kind, other than the last, in front of `rest`. -/
structure Stands (kind : Terminal) (lexeme closing rest : List Char) : Prop where
  ne_finish : kind ≠ .finish
  spells : kind.Spells lexeme
  closes : kind.Closes closing rest
  ends : kind.Ends (closing ++ rest)

end Terminal

/-- The text at the offset is that of the tokens, with trivia before each of them. -/
inductive Layout : Nat → List Char → List Token → Prop
  | finish {offset gap} (hgap : Trivia [] gap) :
      Layout offset gap [⟨.finish, ⟨offset + byteSize gap, 0⟩, ""⟩]
  | token {offset gap kind lexeme closing rest tokens}
      (hgap : Trivia (kind.cover lexeme closing ++ rest) gap)
      (htoken : Terminal.Stands kind lexeme closing rest)
      (h : Layout (offset + byteSize (gap ++ kind.cover lexeme closing)) rest tokens) :
      Layout offset (gap ++ (kind.cover lexeme closing ++ rest))
        (kind.token (offset + byteSize gap) lexeme :: tokens)

/-! ## Tokens are read -/

section

variable {p : Char → Bool} {cs rest : List Char}

theorem takeWhile_append_of_ends (hcs : ∀ c ∈ cs, p c = true)
    (hrest : ∀ c ∈ rest.head?, ¬ p c = true) : (cs ++ rest).takeWhile p = cs := by
  rw [List.takeWhile_append_of_pos hcs]
  cases rest with
  | nil => exact List.append_nil cs
  | cons c rest => rw [List.takeWhile_cons_of_neg (hrest c rfl), List.append_nil]

theorem dropWhile_append_of_ends (hcs : ∀ c ∈ cs, p c = true)
    (hrest : ∀ c ∈ rest.head?, ¬ p c = true) : (cs ++ rest).dropWhile p = rest := by
  rw [List.dropWhile_append_of_pos hcs]
  cases rest with
  | nil => rfl
  | cons c rest => rw [List.dropWhile_cons_of_neg (hrest c rfl)]

end

theorem Keyword.isWord_spelling (k : Keyword) : IsWord k.spelling.toList := by
  have hword : ∃ c cs, k.spelling.toList = c :: cs ∧ isLetter c = true ∧
      cs.all isWordChar = true := by
    cases k <;> exact ⟨_, _, rfl, rfl, rfl⟩
  obtain ⟨c, cs, hcs, hc, hall⟩ := hword
  exact ⟨c, cs, hcs, hc, List.all_eq_true.mp hall⟩

namespace Cursor

theorem wordKind_of_spells {kind : Terminal} {word : List Char} (h : kind.Spells word)
    (hkind : kind = .ident ∨ ∃ k, kind = .keyword k) : IsWord word ∧ wordKind word = kind := by
  unfold wordKind
  obtain rfl | ⟨k, rfl⟩ := hkind
  · refine ⟨h.1, ?_⟩
    have hnone : Keyword.ofSpelling? (String.ofList word) = none := by
      rw [Option.eq_none_iff_forall_ne_some]
      intro k hk
      rw [Keyword.ofSpelling?_eq_some_iff] at hk
      exact h.2 k (by rw [hk, String.toList_ofList])
    rw [hnone]
  · have hword : word = k.spelling.toList := h
    have hsome : Keyword.ofSpelling? (String.ofList word) = some k := by
      rw [Keyword.ofSpelling?_eq_some_iff, hword, String.ofList_toList]
    rw [hsome]
    exact ⟨hword ▸ k.isWord_spelling, rfl⟩

structure ReadsAs (kind : Terminal) (lexeme closing rest : List Char) (lead : Lead) (c : Char)
    (cs : List Char) : Prop where
  text_eq : kind.cover lexeme closing ++ rest = c :: cs
  lead_eq : Lead.ofChar? c = some lead
  slash : c = '/' → ∀ d ∈ cs.head?, d ≠ '/' ∧ d ≠ '*'
  read_eq : ∀ offset, read offset c cs lead =
    (kind.token offset lexeme, ⟨offset + byteSize (kind.cover lexeme closing), rest⟩)

theorem ReadsAs.length_lt {kind : Terminal} {lexeme closing rest : List Char} {lead : Lead}
    {c : Char} {cs : List Char} (h : ReadsAs kind lexeme closing rest lead c cs) :
    rest.length < (c :: cs).length := by
  have hle := length_read_le 0 c cs lead
  rw [h.read_eq] at hle
  exact Nat.lt_succ_of_le hle

theorem exists_readsAs_mark {m : Mark} {lexeme closing rest : List Char}
    (h : (Terminal.mark m).Stands lexeme closing rest) :
    ∃ lead c cs, ReadsAs (.mark m) lexeme closing rest lead c cs := by
  obtain rfl : lexeme = [m.char] := h.spells
  obtain rfl : closing = [] := h.closes
  refine ⟨.mark m, m.char, rest, rfl, Lead.ofChar?_of_suits rfl, fun hslash => ?_, fun _ => rfl⟩
  obtain rfl : m = .slash := Mark.char_injective hslash
  exact h.ends

theorem exists_readsAs_word {kind : Terminal} {lexeme closing rest : List Char}
    (h : kind.Stands lexeme closing rest) (hkind : kind = .ident ∨ ∃ k, kind = .keyword k) :
    ∃ lead c cs, ReadsAs kind lexeme closing rest lead c cs := by
  obtain ⟨⟨c, cs, rfl, hletter, hword⟩, hwordKind⟩ := wordKind_of_spells h.spells hkind
  have hclosing : closing = [] := by
    obtain rfl | ⟨k, rfl⟩ := hkind <;> exact h.closes
  have hopening : kind.opening = [] := by
    obtain rfl | ⟨k, rfl⟩ := hkind <;> rfl
  have hends : ∀ d ∈ rest.head?, ¬ isWordChar d = true := by
    have hall := h.ends
    rw [hclosing] at hall
    obtain rfl | ⟨k, rfl⟩ := hkind <;> exact hall
  have hcover : kind.cover (c :: cs) closing = c :: cs := by
    rw [Terminal.cover, hopening, hclosing, List.nil_append, List.append_nil]
  have hslash : c ≠ '/' := (isWordChar_ne (by simp [isWordChar, hletter])).2
  refine ⟨.letter, c, cs ++ rest, ?_, Lead.ofChar?_of_suits hletter, fun hc => absurd hc hslash,
    fun offset => ?_⟩
  · rw [hcover, List.cons_append]
  · rw [read, takeWhile_append_of_ends hword hends, dropWhile_append_of_ends hword hends, hcover,
      hwordKind, Terminal.token, hopening]
    rfl

theorem exists_readsAs_number {lexeme closing rest : List Char}
    (h : Terminal.number.Stands lexeme closing rest) :
    ∃ lead c cs, ReadsAs .number lexeme closing rest lead c cs := by
  obtain ⟨hne, hdigits⟩ := h.spells
  obtain rfl : closing = [] := h.closes
  obtain ⟨c, cs, rfl⟩ := List.exists_cons_of_ne_nil hne
  obtain ⟨hc, hcs⟩ := List.forall_mem_cons.mp hdigits
  have hends : ∀ d ∈ rest.head?, ¬ d.isDigit = true := h.ends
  refine ⟨.digit, c, cs ++ rest, ?_, Lead.ofChar?_of_suits hc,
    fun hslash => absurd hslash (isDigit_ne hc).2, fun offset => ?_⟩
  · simp [Terminal.cover, Terminal.opening]
  · rw [read, takeWhile_append_of_ends hcs hends, dropWhile_append_of_ends hcs hends,
      Terminal.cover, List.append_nil]
    rfl

theorem exists_readsAs_text {lexeme closing rest : List Char}
    (h : Terminal.text.Stands lexeme closing rest) :
    ∃ lead c cs, ReadsAs .text lexeme closing rest lead c cs := by
  have hquote : '"'.utf8Size = 1 := by decide
  have htext : ∀ c ∈ lexeme, isTextChar c = true := h.spells
  have hclose : ∀ offset, closeQuote ⟨offset, closing ++ rest⟩ =
      ⟨offset + byteSize closing, rest⟩ := by
    intro offset
    rcases (h.closes : _ ∨ _) with rfl | ⟨rfl, hrest⟩
    · rfl
    · cases rest with
      | nil => rfl
      | cons c rest => simp [closeQuote, hrest c rfl, byteSize_nil]
  refine ⟨.quote, '"', lexeme ++ (closing ++ rest), ?_, rfl, fun hslash => absurd hslash (by decide),
    fun offset => ?_⟩
  · simp [Terminal.cover, Terminal.opening]
  · simp only [read, makeText, takeWhile_append_of_ends htext h.ends,
      dropWhile_append_of_ends htext h.ends, make, hclose, Terminal.token, Terminal.cover,
      Terminal.opening, byteSize_append, byteSize_cons, byteSize_nil, hquote, Nat.add_assoc,
      Nat.add_zero]

theorem exists_readsAs {kind : Terminal} {lexeme closing rest : List Char}
    (h : kind.Stands lexeme closing rest) :
    ∃ lead c cs, ReadsAs kind lexeme closing rest lead c cs := by
  cases kind with
  | mark m => exact exists_readsAs_mark h
  | ident => exact exists_readsAs_word h (.inl rfl)
  | keyword k => exact exists_readsAs_word h (.inr ⟨k, rfl⟩)
  | number => exact exists_readsAs_number h
  | text => exact exists_readsAs_text h
  | finish => exact absurd rfl h.ne_finish

/-! ## Texts are laid out -/

theorem dropWhile_ends (p : Char → Bool) (cs : List Char) :
    ∀ d ∈ (cs.dropWhile p).head?, ¬ p d = true := by
  intro d hd
  have hhead := List.head?_dropWhile_not p cs
  rw [Option.mem_def.mp hd] at hhead
  rw [hhead]
  exact Bool.false_ne_true

theorem exists_stands_text (cs : List Char) :
    ∃ closing rest, Terminal.text.Stands (cs.takeWhile isTextChar) closing rest ∧
      cs.dropWhile isTextChar = closing ++ rest := by
  have htext : ∀ d ∈ cs.takeWhile isTextChar, isTextChar d = true :=
    fun _ => List.mem_takeWhile_imp
  have hends := dropWhile_ends isTextChar cs
  by_cases hquote : '"' ∈ (cs.dropWhile isTextChar).head?
  · obtain ⟨rest, hrest⟩ := List.head?_eq_some_iff.mp hquote
    rw [hrest] at hends
    exact ⟨['"'], rest, ⟨Terminal.noConfusion, htext, .inl rfl, hends⟩, hrest⟩
  · refine ⟨[], cs.dropWhile isTextChar, ⟨Terminal.noConfusion, htext, .inr ⟨rfl, ?_⟩, hends⟩, rfl⟩
    rintro d hd rfl
    exact hquote hd

theorem stands_word {word rest : List Char} (hword : IsWord word)
    (hends : ∀ d ∈ rest.head?, ¬ isWordChar d = true) :
    (wordKind word).Stands word [] rest ∧ (wordKind word).opening = [] := by
  unfold wordKind
  cases hkeyword : Keyword.ofSpelling? (String.ofList word) with
  | none =>
    refine ⟨⟨Terminal.noConfusion, ⟨hword, fun k hk => ?_⟩, rfl, hends⟩, rfl⟩
    rw [Option.eq_none_iff_forall_ne_some] at hkeyword
    apply hkeyword k
    rw [Keyword.ofSpelling?_eq_some_iff, hk, String.ofList_toList]
  | some k =>
    rw [Keyword.ofSpelling?_eq_some_iff] at hkeyword
    have hspells : word = k.spelling.toList := by rw [hkeyword, String.toList_ofList]
    exact ⟨⟨Terminal.noConfusion, hspells, rfl, hends⟩, rfl⟩

theorem exists_stands {c : Char} {cs : List Char} {lead : Lead} (hlead : lead.Suits c)
    (hslash : c = '/' → ∀ d ∈ cs.head?, d ≠ '/' ∧ d ≠ '*') :
    ∃ kind lexeme closing rest, Terminal.Stands kind lexeme closing rest ∧
      c :: cs = kind.cover lexeme closing ++ rest := by
  cases lead with
  | quote =>
    obtain rfl : c = '"' := hlead
    obtain ⟨closing, rest, hstands, hrest⟩ := exists_stands_text cs
    refine ⟨_, _, closing, rest, hstands, ?_⟩
    rw [Terminal.cover, List.append_assoc, ← hrest, List.append_assoc,
      List.takeWhile_append_dropWhile]
    rfl
  | letter =>
    obtain ⟨hstands, hopening⟩ := stands_word
      ⟨c, cs.takeWhile isWordChar, rfl, hlead, fun _ => List.mem_takeWhile_imp⟩
      (dropWhile_ends isWordChar cs)
    refine ⟨_, _, [], _, hstands, ?_⟩
    rw [Terminal.cover, hopening, List.nil_append, List.append_nil, List.cons_append,
      List.takeWhile_append_dropWhile]
  | digit =>
    have hdigits : ∀ d ∈ c :: cs.takeWhile Char.isDigit, d.isDigit = true :=
      List.forall_mem_cons.mpr ⟨hlead, fun _ => List.mem_takeWhile_imp⟩
    refine ⟨.number, c :: cs.takeWhile Char.isDigit, [], cs.dropWhile Char.isDigit,
      ⟨Terminal.noConfusion, ⟨List.cons_ne_nil _ _, hdigits⟩, rfl, dropWhile_ends _ cs⟩, ?_⟩
    rw [Terminal.cover, List.append_nil, List.append_assoc, List.cons_append,
      List.takeWhile_append_dropWhile]
    rfl
  | mark m =>
    obtain rfl : m.char = c := hlead
    refine ⟨.mark m, [m.char], [], cs, ⟨Terminal.noConfusion, rfl, rfl, ?_⟩, rfl⟩
    by_cases hm : m = .slash
    · subst hm
      exact hslash rfl
    -- Only behind a slash does it matter what follows.
    · cases m <;> first | exact trivial | exact absurd rfl hm

theorem exists_layout (offset : Nat) (text : List Char) : ∃ tokens, Layout offset text tokens := by
  obtain ⟨gap, htext, hgap⟩ := leaves_skipGap .between [] offset text
  cases hfound : (skipGap .between [] offset text).found with
  | none =>
    have hrest : (skipGap .between [] offset text).rest = [] := by
      rw [Landing.rest, hfound]
    rw [hrest] at htext hgap
    rw [htext, List.append_nil]
    exact ⟨_, .finish hgap⟩
  | some found =>
    obtain ⟨lead, c, cs⟩ := found
    obtain ⟨hlead, hslash, -⟩ := landing_of_found _ _ _ _ hfound
    obtain ⟨kind, lexeme, closing, rest, hstands, hcover⟩ :=
      exists_stands (Lead.suits_of_ofChar? hlead) hslash
    have hrest : (skipGap .between [] offset text).rest = kind.cover lexeme closing ++ rest := by
      rw [Landing.rest, hfound]
      exact hcover
    rw [hrest] at htext hgap
    -- A token covers something, so that the text left is shorter.
    have hlength : rest.length < text.length := by
      obtain ⟨lead', c', cs', hread⟩ := exists_readsAs hstands
      rw [htext, hread.text_eq, List.length_append]
      exact Nat.lt_of_lt_of_le hread.length_lt (Nat.le_add_left _ _)
    obtain ⟨tokens, htokens⟩ :=
      exists_layout (offset + byteSize (gap ++ kind.cover lexeme closing)) rest
    rw [htext]
    exact ⟨_, .token hgap hstands htokens⟩
termination_by text.length

/-! ## Layouts are scanned -/

theorem skipGap_found (skipped : List Skipped) (offset : Nat) {c : Char} {cs : List Char}
    {lead : Lead} (hlead : Lead.ofChar? c = some lead)
    (hslash : c = '/' → ∀ d ∈ cs.head?, d ≠ '/' ∧ d ≠ '*') :
    skipGap .between skipped offset (c :: cs) = ⟨skipped.reverse, offset, some (lead, c, cs)⟩ := by
  have hblank := (Lead.suits_of_ofChar? hlead).not_isBlank
  by_cases hc : c = '/'
  · subst hc
    obtain rfl : Lead.mark .slash = lead := Option.some.inj hlead
    exact skipGap_slash skipped offset (hslash rfl)
  · exact skipGap_lead skipped offset cs hblank hc hlead

theorem tokens_of_layout {offset : Nat} {text : List Char} {ts : List Token}
    (h : Layout offset text ts) : tokens ⟨offset, text⟩ = ts := by
  induction h with
  | @finish offset gap hgap =>
    obtain ⟨skipped, hland⟩ := hgap.exists_skipGap [] offset
    rw [List.append_nil] at hland
    have hnext := next_of_none (c := ⟨offset, gap⟩) (by rw [hland]; rfl)
    simp only [hland] at hnext
    rw [tokens_of_finish (by rw [hnext]), hnext]
    rfl
  | @token offset gap kind lexeme closing rest ts hgap htoken h ih =>
    obtain ⟨lead, c, cs, hread⟩ := exists_readsAs htoken
    obtain ⟨skipped, hland⟩ := hgap.exists_skipGap [] offset
    rw [hread.text_eq, skipGap_found _ _ hread.lead_eq hread.slash] at hland
    have hnext := next_of_found (c := ⟨offset, gap ++ c :: cs⟩) (by rw [hland])
    simp only [hland, hread.read_eq] at hnext
    rw [hread.text_eq, tokens_of_ne_finish (by rw [hnext]; exact htoken.ne_finish), hnext,
      Nat.add_assoc, ← byteSize_append, ih]

theorem tokens_eq_iff {offset : Nat} {text : List Char} {ts : List Token} :
    tokens ⟨offset, text⟩ = ts ↔ Layout offset text ts := by
  refine ⟨fun h => ?_, tokens_of_layout⟩
  obtain ⟨us, hus⟩ := exists_layout offset text
  rwa [← h, tokens_of_layout hus]

end Cursor

/-! ## Places of tokens -/

theorem byteSize_eq_zero_iff {cs : List Char} : byteSize cs = 0 ↔ cs = [] := by
  cases cs with
  | nil => exact iff_of_true rfl rfl
  | cons c cs =>
    have hc := c.utf8Size_pos
    rw [byteSize_cons]
    exact iff_of_false (by omega) (List.cons_ne_nil c cs)

namespace Span

theorem splitBytes_append (a b : List Char) : splitBytes (byteSize a) (a ++ b) = some (a, b) := by
  induction a with
  | nil => exact splitBytes.eq_1 b
  | cons c cs ih =>
    have hc := c.utf8Size_pos
    obtain ⟨n, hn⟩ := Nat.exists_eq_succ_of_ne_zero (n := byteSize (c :: cs))
      (by rw [byteSize_cons]; omega)
    have hle : c.utf8Size ≤ n + 1 := by
      rw [byteSize_cons] at hn
      omega
    have hrest : n + 1 - c.utf8Size = byteSize cs := by
      rw [byteSize_cons] at hn
      omega
    rw [hn, List.cons_append, splitBytes, if_pos hle, hrest, ih]
    rfl

theorem fragment?_append (a b c : List Char) :
    fragment? ⟨byteSize a, byteSize b⟩ (a ++ b ++ c) = some b := by
  rw [fragment?, List.append_assoc, splitBytes_append]
  simp only [Option.bind_eq_bind, Option.bind_some, splitBytes_append]
  rfl

end Span

theorem Terminal.Spells.eq_nil_iff {kind : Terminal} {lexeme : List Char}
    (h : kind.Spells lexeme) :
    lexeme = [] ↔ kind = .finish ∨ kind = .text ∧ lexeme = [] := by
  cases kind with
  | mark m =>
    obtain rfl : lexeme = [m.char] := h
    simp
  | ident =>
    obtain ⟨c, cs, rfl, -⟩ := h.1
    simp
  | keyword k =>
    obtain rfl : lexeme = k.spelling.toList := h
    obtain ⟨c, cs, hword, -⟩ := k.isWord_spelling
    simp [hword]
  | number => simp [h.1]
  | text => simp
  | finish => exact iff_of_true h (.inl rfl)

/-- What a token covers is not nothing, though its lexeme can be. -/
theorem Terminal.Stands.cover_ne_nil {kind : Terminal} {lexeme closing rest : List Char}
    (h : Terminal.Stands kind lexeme closing rest) : kind.cover lexeme closing ≠ [] := by
  intro hcover
  obtain ⟨hfront, -⟩ := List.append_eq_nil_iff.mp hcover
  obtain ⟨hopening, hlexeme⟩ := List.append_eq_nil_iff.mp hfront
  rcases h.spells.eq_nil_iff.mp hlexeme with hkind | ⟨hkind, -⟩
  · exact h.ne_finish hkind
  · rw [hkind] at hopening
    cases hopening

def Leading (offset : Nat) (text : List Char) (u : Token) : Prop :=
  ∃ gap behind, text = gap ++ (u.kind.opening ++ behind) ∧
    u.span.index = offset + byteSize (gap ++ u.kind.opening) ∧
    Trivia (u.kind.opening ++ behind) gap

/-- Between the tokens stand the closing of the one, trivia and the opening of the other. -/
def Separated (offset : Nat) (text : List Char) (t u : Token) : Prop :=
  ∃ before closing gap behind, text = before ++ (closing ++ (gap ++ (u.kind.opening ++ behind))) ∧
    t.span.stop = offset + byteSize before ∧
    u.span.index = offset + byteSize (before ++ (closing ++ (gap ++ u.kind.opening))) ∧
    t.kind.Closes closing (gap ++ (u.kind.opening ++ behind)) ∧
    Trivia (u.kind.opening ++ behind) gap

theorem Separated.stop_le {offset : Nat} {text : List Char} {t u : Token}
    (h : Separated offset text t u) : t.span.stop ≤ u.span.index := by
  obtain ⟨before, closing, gap, behind, -, hstop, hindex, -⟩ := h
  rw [hstop, hindex]
  simp only [byteSize_append]
  omega

namespace Layout

variable {offset : Nat} {text : List Char} {ts : List Token}

theorem exists_front (h : Layout offset text ts) :
    ∃ front, ts = front ++ [⟨.finish, ⟨offset + byteSize text, 0⟩, ""⟩] ∧
      ∀ t ∈ front, t.kind ≠ .finish := by
  induction h with
  | finish hgap => exact ⟨[], rfl, List.forall_mem_nil _⟩
  | @token offset gap kind lexeme closing rest ts hgap htoken h ih =>
    obtain ⟨front, rfl, hfront⟩ := ih
    refine ⟨kind.token (offset + byteSize gap) lexeme :: front, ?_,
      List.forall_mem_cons.mpr ⟨htoken.ne_finish, hfront⟩⟩
    rw [Nat.add_assoc, ← byteSize_append, List.append_assoc, List.cons_append]

theorem leading (h : Layout offset text ts) : ∀ u ∈ ts.head?, Leading offset text u := by
  intro u hu
  cases h with
  | @finish _ gap hgap =>
    obtain rfl := Option.some.inj hu
    exact ⟨text, [], (List.append_nil _).symm, by simp [Terminal.opening], hgap⟩
  | @token _ gap kind lexeme closing rest ts hgap htoken h =>
    obtain rfl := Option.some.inj hu
    simp only [Terminal.cover, List.append_assoc] at hgap
    refine ⟨gap, lexeme ++ (closing ++ rest), ?_, ?_, hgap⟩
    · simp [Terminal.token, Terminal.cover]
    · simp [Terminal.token, byteSize_append, Nat.add_assoc]

theorem separated (h : Layout offset text ts) : ts.IsChain (Separated offset text) := by
  induction h with
  | finish hgap => exact .singleton _
  | @token offset gap kind lexeme closing rest ts hgap htoken h ih =>
    refine List.isChain_cons.mpr ⟨fun u hu => ?_, ih.imp fun t u htu => ?_⟩
    · obtain ⟨gap', behind, rfl, hindex, hgap'⟩ := h.leading u hu
      refine ⟨gap ++ kind.opening ++ lexeme, closing, gap', behind, ?_, ?_, ?_, htoken.closes, hgap'⟩
      · simp only [Terminal.cover, List.append_assoc]
      · simp [Terminal.token, Span.stop, byteSize_append, Nat.add_assoc]
      · simp only [hindex, Terminal.cover, byteSize_append, Nat.add_assoc]
    · obtain ⟨before, closing', gap', behind, rfl, hstop, hindex, hcloses, hgap'⟩ := htu
      refine ⟨gap ++ kind.cover lexeme closing ++ before, closing', gap', behind, ?_, ?_, ?_,
        hcloses, hgap'⟩
      · simp only [List.append_assoc]
      · simp only [hstop, byteSize_append, Nat.add_assoc]
      · simp only [hindex, byteSize_append, Nat.add_assoc]

theorem exists_place (h : Layout offset text ts) {t : Token} (ht : t ∈ ts) :
    ∃ before behind, text = before ++ t.lexeme.toList ++ behind ∧
      t.span = ⟨offset + byteSize before, byteSize t.lexeme.toList⟩ ∧
      t.kind.Spells t.lexeme.toList ∧ t.kind.Ends behind := by
  induction h with
  | @finish offset gap hgap =>
    obtain rfl := List.mem_singleton.mp ht
    exact ⟨gap, [], by simp, rfl, rfl, rfl⟩
  | @token offset gap kind lexeme closing rest ts hgap htoken h ih =>
    rcases List.mem_cons.mp ht with rfl | ht
    · refine ⟨gap ++ kind.opening, closing ++ rest, ?_, ?_, ?_, htoken.ends⟩
      · simp [Terminal.token, Terminal.cover]
      · simp [Terminal.token, byteSize_append, Nat.add_assoc]
      · simpa [Terminal.token] using htoken.spells
    · obtain ⟨before, behind, rfl, hspan, hspells, hends⟩ := ih ht
      refine ⟨gap ++ kind.cover lexeme closing ++ before, behind, ?_, ?_, hspells, hends⟩
      · simp only [List.append_assoc]
      · rw [hspan, byteSize_append _ before, Nat.add_assoc]

theorem index_ge (h : Layout offset text ts) :
    ∀ t ∈ ts, offset + byteSize t.kind.opening ≤ t.span.index := by
  induction h with
  | @finish offset gap hgap =>
    intro t ht
    obtain rfl := List.mem_singleton.mp ht
    exact Nat.add_le_add_left (Nat.zero_le _) _
  | @token offset gap kind lexeme closing rest ts hgap htoken h ih =>
    refine List.forall_mem_cons.mpr ⟨?_, fun t ht => ?_⟩
    · show offset + byteSize kind.opening ≤ offset + byteSize gap + byteSize kind.opening
      omega
    · have := ih t ht
      omega

/-- No token occurs twice: each one begins behind those before it. -/
theorem nodup (h : Layout offset text ts) : ts.Nodup := by
  induction h with
  | finish hgap => exact List.pairwise_singleton _ _
  | @token offset gap kind lexeme closing rest ts hgap htoken h ih =>
    refine List.nodup_cons.mpr ⟨fun hmem => ?_, ih⟩
    have hindex : offset + byteSize (gap ++ kind.cover lexeme closing) + byteSize kind.opening ≤
        offset + byteSize gap + byteSize kind.opening := h.index_ge _ hmem
    have hsize : byteSize (kind.cover lexeme closing) = 0 := by
      rw [byteSize_append] at hindex
      omega
    exact htoken.cover_ne_nil (byteSize_eq_zero_iff.mp hsize)

end Layout

namespace Cursor

theorem rest_of_finish {c : Cursor} (h : c.next.1.token.kind = .finish) :
    c.next.1.token = ⟨.finish, ⟨c.offset + byteSize c.rest, 0⟩, ""⟩ ∧
      c.next.2 = ⟨c.offset + byteSize c.rest, []⟩ := by
  have hnone := next_of_finish h
  have hoffset := offset_skipGap .between [] c.offset c.rest
  rw [Landing.rest, hnone, byteSize_nil, Nat.add_zero] at hoffset
  rw [next_of_none hnone, hoffset]
  exact ⟨rfl, rfl⟩

theorem tokens_nil (offset : Nat) : tokens ⟨offset, []⟩ = [⟨.finish, ⟨offset, 0⟩, ""⟩] :=
  tokens_of_finish rfl

theorem next_iterate (c : Cursor) (n : Nat) :
    ((fun c : Cursor => c.next.2)^[n] c).next.1.token =
      c.tokens.getD n ⟨.finish, ⟨c.offset + byteSize c.rest, 0⟩, ""⟩ := by
  induction n generalizing c with
  | zero =>
    by_cases h : c.next.1.token.kind = .finish
    · rw [tokens_of_finish h]
      rfl
    · rw [tokens_of_ne_finish h]
      rfl
  | succ n ih =>
    rw [Function.iterate_succ_apply, ih, offset_next]
    by_cases h : c.next.1.token.kind = .finish
    · rw [tokens_of_finish h, (rest_of_finish h).2, tokens_nil]
      cases n <;> rfl
    · rw [tokens_of_ne_finish h]
      rfl

end Cursor

/-! ## Whole sources -/

theorem nodup_tokenize (source : String) : (tokenize source).Nodup :=
  Layout.nodup (Cursor.tokens_eq_iff.mp rfl : Layout 0 source.toList (tokenize source))

theorem spells_of_mem_tokenize {source : String} {t : Token} (ht : t ∈ tokenize source) :
    t.kind.Spells t.lexeme.toList := by
  have hlayout : Layout 0 source.toList (tokenize source) := Cursor.tokens_eq_iff.mp rfl
  obtain ⟨-, -, -, -, hspells, -⟩ := hlayout.exists_place ht
  exact hspells

/-- The tokens take up the text, and leave out what belongs to no token. -/
structure Lossless (text : List Char) (ts : List Token) : Prop where
  layout_iff : ∀ us, Layout 0 text us ↔ us = ts
  finish : ∃ front, ts = front ++ [⟨.finish, ⟨byteSize text, 0⟩, ""⟩] ∧
    ∀ t ∈ front, t.kind ≠ .finish
  ordered : ts.IsChain fun t u => t.span.stop ≤ u.span.index
  leading : ∀ u ∈ ts.head?, Leading 0 text u
  separated : ts.IsChain (Separated 0 text)
  size_eq_zero_iff : ∀ t ∈ ts,
    t.span.size = 0 ↔ t.kind = .finish ∨ t.kind = .text ∧ t.lexeme = ""
  fragment : ∀ t ∈ ts, t.span.fragment? text = some t.lexeme.toList
  place : ∀ t ∈ ts, ∃ before behind, text = before ++ t.lexeme.toList ++ behind ∧
    t.span = ⟨byteSize before, byteSize t.lexeme.toList⟩ ∧
    t.kind.Spells t.lexeme.toList ∧ t.kind.Ends behind
  /-- The last token is given again however often there is a next one asked for. -/
  next_eq : ∀ n, ((fun c : Cursor => c.next.2)^[n] (Cursor.ofList text)).next.1.token =
    ts.getD n ⟨.finish, ⟨byteSize text, 0⟩, ""⟩

theorem tokenize_lossless (source : String) : Lossless source.toList (tokenize source) := by
  have hlayout : Layout 0 source.toList (tokenize source) := Cursor.tokens_eq_iff.mp rfl
  have hplace := fun t (ht : t ∈ tokenize source) => hlayout.exists_place ht
  simp only [Nat.zero_add] at hplace
  refine ⟨fun us => ?_, ?_, hlayout.separated.imp fun _ _ h => h.stop_le,
    hlayout.leading, hlayout.separated, fun t ht => ?_, fun t ht => ?_, hplace, fun n => ?_⟩
  · rw [← Cursor.tokens_eq_iff, eq_comm]
    exact Iff.rfl
  · have hfront := hlayout.exists_front
    rwa [Nat.zero_add] at hfront
  · obtain ⟨before, behind, htext, hspan, hspells, -⟩ := hplace t ht
    have hlexeme : t.lexeme.toList = [] ↔ t.lexeme = "" := by simp
    rw [hspan, byteSize_eq_zero_iff, hspells.eq_nil_iff, hlexeme]
  · obtain ⟨before, behind, htext, hspan, -⟩ := hplace t ht
    rw [htext, hspan, Span.fragment?_append]
  · have hnext := (Cursor.ofList source.toList).next_iterate n
    rwa [Cursor.ofList, Nat.zero_add] at hnext

example : (tokenize "/*a*/b \"c").map Token.span = [⟨5, 1⟩, ⟨8, 1⟩, ⟨9, 0⟩] := by
  decide +kernel

end JackCompiler
