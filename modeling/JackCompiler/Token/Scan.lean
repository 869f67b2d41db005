import JackCompiler.Text.Blank
import JackCompiler.Token.Basic

/-!
# Scanning

A cursor stands in a source text. Its next token is found in two parts: the gap
before the token, which is blanks, comments and characters that can start no
token, and then the token itself, as long as it can be. At the end of the text
the next token is `finish`, however often it is asked for.
-/

namespace JackCompiler

/-! ## Character classes -/

inductive Lead
  | quote
  | letter
  | digit
  | mark (m : Mark)
deriving DecidableEq, Repr

def isLetter (c : Char) : Bool :=
  c.isAlpha || c == '_'

def isWordChar (c : Char) : Bool :=
  isLetter c || c.isDigit

def isLineEnd (c : Char) : Bool :=
  c == '\n' || c == '\r'

/-- The characters of a string constant: all but the quote and the line ends. -/
def isTextChar (c : Char) : Bool :=
  c != '"' && !isLineEnd c

def Lead.ofChar? (c : Char) : Option Lead :=
  if c = '"' then some .quote
  else if isLetter c then some .letter
  else if c.isDigit then some .digit
  else (Mark.ofChar? c).map .mark

/-! ## Gaps -/

structure Skipped where
  char : Char
  offset : Nat
deriving DecidableEq, Repr

/-- Where in a gap: between comments, in one that runs to the end of the line, or
in one that runs to its closing mark. -/
inductive Gap
  | between
  | line
  | block
deriving DecidableEq, Repr

/-- The end of a gap: the characters skipped in it, its offset and, unless the
text ends there, what stands behind it. -/
structure Landing where
  skipped : List Skipped
  offset : Nat
  found : Option (Lead × Char × List Char)

/-- Walks through a gap, `skipped` being the characters skipped so far, last one
first, and `offset` that of the text. -/
def skipGap (gap : Gap) (skipped : List Skipped) (offset : Nat) : List Char → Landing
  | [] => ⟨skipped.reverse, offset, none⟩
  | c :: cs =>
    match gap with
    | .between =>
      if isBlank c then skipGap .between skipped (offset + c.utf8Size) cs
      else if c = '/' then
        match cs with
        | '/' :: cs => skipGap .line skipped (offset + 2) cs
        | '*' :: cs => skipGap .block skipped (offset + 2) cs
        | cs => ⟨skipped.reverse, offset, some (.mark .slash, c, cs)⟩
      else
        match Lead.ofChar? c with
        | some lead => ⟨skipped.reverse, offset, some (lead, c, cs)⟩
        | none => skipGap .between (⟨c, offset⟩ :: skipped) (offset + c.utf8Size) cs
    | .line =>
      if isLineEnd c then skipGap .between skipped (offset + 1) cs
      else skipGap .line skipped (offset + c.utf8Size) cs
    | .block =>
      if c = '*' then
        match cs with
        | '/' :: cs => skipGap .between skipped (offset + 2) cs
        | cs => skipGap .block skipped (offset + 1) cs
      else skipGap .block skipped (offset + c.utf8Size) cs

/-! ## Tokens -/

structure Cursor where
  offset : Nat
  rest : List Char

namespace Cursor

def ofList (text : List Char) : Cursor :=
  ⟨0, text⟩

def atEnd (c : Cursor) : Bool :=
  c.rest.isEmpty

def make (kind : Terminal) (offset : Nat) (lexeme rest : List Char) : Token × Cursor :=
  (⟨kind, ⟨offset, byteSize lexeme⟩, String.ofList lexeme⟩, ⟨offset + byteSize lexeme, rest⟩)

def closeQuote : Cursor → Cursor
  | ⟨offset, '"' :: rest⟩ => ⟨offset + 1, rest⟩
  | c => c

/-- A string constant, whose opening quote stands at `offset`, ends at the next
quote, or before the line or the text does. -/
def makeText (offset : Nat) (cs : List Char) : Token × Cursor :=
  let (token, behind) :=
    make .text (offset + 1) (cs.takeWhile isTextChar) (cs.dropWhile isTextChar)
  (token, behind.closeQuote)

def wordKind (word : List Char) : Terminal :=
  match Keyword.ofSpelling? (String.ofList word) with
  | some k => .keyword k
  | none => .ident

def read (offset : Nat) (c : Char) (cs : List Char) : Lead → Token × Cursor
  | .quote => makeText offset cs
  | .letter =>
    let word := c :: cs.takeWhile isWordChar
    make (wordKind word) offset word (cs.dropWhile isWordChar)
  | .digit => make .number offset (c :: cs.takeWhile Char.isDigit) (cs.dropWhile Char.isDigit)
  | .mark m => make (.mark m) offset [c] cs

end Cursor

structure Scanned where
  skipped : List Skipped
  token : Token
deriving DecidableEq, Repr

namespace Cursor

def next (c : Cursor) : Scanned × Cursor :=
  let landing := skipGap .between [] c.offset c.rest
  match landing.found with
  | none =>
    (⟨landing.skipped, ⟨.finish, ⟨landing.offset, 0⟩, ""⟩⟩, ⟨landing.offset, []⟩)
  | some (lead, first, cs) =>
    let (token, behind) := read landing.offset first cs lead
    (⟨landing.skipped, token⟩, behind)

/-! ## Progress -/

theorem length_dropWhile_le (p : Char → Bool) (cs : List Char) :
    (cs.dropWhile p).length ≤ cs.length :=
  (List.dropWhile_sublist p).length_le

theorem length_found_lt {gap : Gap} {skipped : List Skipped} {offset : Nat} {cs : List Char}
    {lead : Lead} {c : Char} {rest : List Char}
    (h : (skipGap gap skipped offset cs).found = some (lead, c, rest)) :
    rest.length < cs.length := by
  fun_induction skipGap gap skipped offset cs <;> grind

theorem length_closeQuote_le (c : Cursor) : c.closeQuote.rest.length ≤ c.rest.length := by
  unfold closeQuote
  split
  · exact Nat.le_succ _
  · exact Nat.le_refl _

theorem length_makeText_le (offset : Nat) (cs : List Char) :
    (makeText offset cs).2.rest.length ≤ cs.length :=
  Nat.le_trans (length_closeQuote_le _) (length_dropWhile_le isTextChar cs)

theorem length_read_le (offset : Nat) (c : Char) (cs : List Char) (lead : Lead) :
    (read offset c cs lead).2.rest.length ≤ cs.length := by
  cases lead with
  | quote => exact length_makeText_le offset cs
  | letter => exact length_dropWhile_le _ cs
  | digit => exact length_dropWhile_le _ cs
  | mark m => exact Nat.le_refl _

theorem length_next_lt {c : Cursor} (h : c.next.1.token.kind ≠ .finish) :
    c.next.2.rest.length < c.rest.length := by
  simp only [next] at h ⊢
  split at h
  · exact absurd rfl h
  · rename_i lead first cs e
    have h₁ := length_found_lt e
    have h₂ := length_read_le (skipGap .between [] c.offset c.rest).offset first cs lead
    exact Nat.lt_of_le_of_lt h₂ h₁

/-! ## Whole texts -/

def scanFrom (done : Array Scanned) (c : Cursor) : Array Scanned :=
  match h : c.next with
  | (scanned, behind) =>
    if e : scanned.token.kind = .finish then done.push scanned
    else
      have : behind.rest.length < c.rest.length := by
        have l := length_next_lt (c := c) (by rw [h]; exact e)
        rw [h] at l
        exact l
      scanFrom (done.push scanned) behind
termination_by c.rest.length

theorem scanFrom_eq (done : Array Scanned) (c : Cursor) :
    scanFrom done c =
      if c.next.1.token.kind = .finish then done.push c.next.1
      else scanFrom (done.push c.next.1) c.next.2 := by
  rw [scanFrom]
  rfl

theorem scanFrom_append (done : Array Scanned) (c : Cursor) :
    scanFrom done c = done ++ scanFrom #[] c := by
  rw [scanFrom_eq, scanFrom_eq #[]]
  by_cases h : c.next.1.token.kind = .finish
  · simp [h]
  · have := length_next_lt h
    rw [if_neg h, if_neg h, scanFrom_append (done.push _), scanFrom_append (#[].push _)]
    simp
termination_by c.rest.length

end Cursor

def scan (text : List Char) : Array Scanned :=
  Cursor.scanFrom #[] (Cursor.ofList text)

end JackCompiler
