import JackCompiler.Fault
import JackCompiler.Token.Scan

/-!
# Reading tokens one by one

A reader scans its source only as far as it is asked to: it holds at most one
token that has been looked at but not consumed. The last token, `finish`, can be
consumed once; after that there is none.
-/

namespace JackCompiler

structure Reader where
  source : List Char
  cursor : Cursor
  ahead : Option Token
  finished : Bool
  /-- What was consumed last, or nothing after an attempt past the end. -/
  previous : Option Token
  skipped : List Skipped

namespace Reader

def ofList (source : List Char) : Reader :=
  ⟨source, .ofList source, none, false, none, []⟩

/-- Scans the next token unless it has been scanned already. -/
def look (r : Reader) : Reader :=
  if r.ahead.isSome || r.finished then r
  else
    let (scanned, cursor) := r.cursor.next
    { r with
      cursor
      ahead := some scanned.token
      finished := scanned.token.kind == .finish
      skipped := scanned.skipped.reverse ++ r.skipped }

def peek (r : Reader) : Option Token × Reader :=
  (r.look.ahead, r.look)

def peekKind (r : Reader) : Option Terminal × Reader :=
  (r.look.ahead.map Token.kind, r.look)

def next (r : Reader) : Option Token × Reader :=
  let r := r.look
  (r.ahead, { r with ahead := none, previous := r.ahead })

def check (r : Reader) (kinds : List Terminal) : Bool × Reader :=
  (r.look.ahead.any (kinds.contains ·.kind), r.look)

def accept (r : Reader) (kind : Terminal) : Bool × Reader :=
  let (found, r) := r.check [kind]
  (found, if found then r.next.2 else r)

def expect (r : Reader) (kinds : List Terminal) : Except (Fault Nat) Token × Reader :=
  let r := r.look
  match r.ahead with
  | none => (.error .endOfSource, r)
  | some t =>
    if kinds.contains t.kind then (.ok t, r.next.2)
    else (.error (.unexpected kinds t t.span.index), r)

end Reader

end JackCompiler
