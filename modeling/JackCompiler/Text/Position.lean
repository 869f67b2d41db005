/-!
# Places in a text

An offset counts the bytes of a text's UTF-8 encoding. A position is the line
and column a reader sees there, both counted from one; a column is a character,
and only a line feed starts a line.
-/

namespace JackCompiler

def byteSize (text : List Char) : Nat :=
  text.foldl (fun n c => n + c.utf8Size) 0

theorem foldl_utf8Size (n : Nat) (text : List Char) :
    text.foldl (fun n c => n + c.utf8Size) n = n + byteSize text := by
  induction text generalizing n with
  | nil => rfl
  | cons c cs ih => rw [byteSize, List.foldl_cons, List.foldl_cons, ih, ih (0 + c.utf8Size)]; omega

theorem byteSize_nil : byteSize [] = 0 := rfl

theorem byteSize_cons (c : Char) (cs : List Char) :
    byteSize (c :: cs) = c.utf8Size + byteSize cs := by
  rw [byteSize, List.foldl_cons, foldl_utf8Size]; omega

theorem byteSize_append (xs ys : List Char) :
    byteSize (xs ++ ys) = byteSize xs + byteSize ys := by
  rw [byteSize, List.foldl_append, foldl_utf8Size]; rfl

structure Position where
  line : Nat
  column : Nat
deriving DecidableEq, Repr

namespace Position

def next (p : Position) (c : Char) : Position :=
  if c = '\n' then ⟨p.line + 1, 1⟩ else ⟨p.line, p.column + 1⟩

/-- Walks over the characters that start before the byte `index`, `start` being
the offset of the first. -/
def walk (p : Position) (start index : Nat) : List Char → Position
  | [] => p
  | c :: cs => if index ≤ start then p else walk (p.next c) (start + c.utf8Size) index cs

/-- The position of the first character boundary at or after the byte `index`,
the end of the text being the last one. -/
def ofOffset (text : List Char) (index : Nat) : Position :=
  walk ⟨1, 1⟩ 0 index text

def text (p : Position) : String :=
  toString p.line ++ ":" ++ toString p.column

end Position

/-! ## Byte ranges -/

/-- A range of `size` bytes that starts at the byte `index`. -/
structure Span where
  index : Nat
  size : Nat
deriving DecidableEq, Repr

namespace Span

def stop (s : Span) : Nat :=
  s.index + s.size

def position (s : Span) (text : List Char) : Position :=
  Position.ofOffset text s.index

def splitBytes : Nat → List Char → Option (List Char × List Char)
  | 0, cs => some ([], cs)
  | _ + 1, [] => none
  | n + 1, c :: cs =>
    if c.utf8Size ≤ n + 1 then
      (splitBytes (n + 1 - c.utf8Size) cs).map fun (taken, rest) => (c :: taken, rest)
    else
      none

def fragment? (s : Span) (text : List Char) : Option (List Char) := do
  let (_, rest) ← splitBytes s.index text
  let (taken, _) ← splitBytes s.size rest
  return taken

end Span

end JackCompiler
