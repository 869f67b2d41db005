import JackCompiler.Grammar.Goal

/-!
# Parsing

The parser keeps a stack of items. It makes the notes on top, looks at a token
only when a goal is on top, and hands the token down the stack until a goal takes
or refuses it. It ends when the stack is empty, when a token is refused, or when
the tokens are exhausted.
-/

namespace JackCompiler

def settle (out : Array Event) : List Item → Array Event × List Item
  | [] => (out, [])
  | .note n :: stack => settle (out.push (.note n)) stack
  | .goal g :: stack => (out, .goal g :: stack)

def pushNotes (out : Array Event) (notes : List Note) : Array Event :=
  notes.foldl (fun out n => out.push (.note n)) out

/-- Hands a token down the stack. What is left, unless parsing ends there. -/
def offer (t : Token) (out : Array Event) : List Item → Array Event × Option (List Item)
  | [] => (out, none)
  | .note n :: stack => offer t (out.push (.note n)) stack
  | .goal g :: stack =>
    match g.move t with
    | .take before after => ((pushNotes out before).push (.take t), some (after ++ stack))
    | .pass before => offer t (pushNotes out before) stack
    | .refuse before expected => ((pushNotes out before).push (.refuse expected t), none)

/-- Parses the tokens against the stack, adding to the events in `out`. -/
def parseFrom (out : Array Event) (stack : List Item) : List Scanned → Array Event
  | [] =>
    match settle out stack with
    | (out, []) => out
    | (out, _ :: _) => out.push .exhausted
  | s :: tokens =>
    match settle out stack with
    | (out, []) => out
    | (out, g :: stack) =>
      match offer s.token (out.push (.look s.skipped)) (g :: stack) with
      | (out, none) => out
      | (out, some stack) => parseFrom out stack tokens

/-! ## Events are only added -/

theorem settle_eq (out : Array Event) (stack : List Item) :
    settle out stack = (out ++ (settle #[] stack).1, (settle #[] stack).2) := by
  induction stack generalizing out with
  | nil => simp [settle]
  | cons item stack ih =>
    cases item with
    | goal g => simp [settle]
    | note n =>
      simp only [settle]
      rw [ih, ih (#[].push _)]
      simp

theorem pushNotes_eq (out : Array Event) (notes : List Note) :
    pushNotes out notes = out ++ (notes.map Event.note).toArray := by
  induction notes generalizing out with
  | nil => simp [pushNotes]
  | cons n notes ih =>
    have h : pushNotes out (n :: notes) = pushNotes (out.push (.note n)) notes := rfl
    rw [h, ih]
    simp

theorem offer_eq (t : Token) (out : Array Event) (stack : List Item) :
    offer t out stack = (out ++ (offer t #[] stack).1, (offer t #[] stack).2) := by
  induction stack generalizing out with
  | nil => simp [offer]
  | cons item stack ih =>
    cases item with
    | note n =>
      simp only [offer]
      rw [ih, ih (#[].push _)]
      simp
    | goal g =>
      simp only [offer]
      split
      · simp [pushNotes_eq]
      · rw [ih, ih (pushNotes #[] _)]
        simp [pushNotes_eq]
      · simp [pushNotes_eq]

theorem parseFrom_eq (out : Array Event) (stack : List Item) (tokens : List Scanned) :
    parseFrom out stack tokens = out ++ parseFrom #[] stack tokens := by
  induction tokens generalizing out stack with
  | nil =>
    simp only [parseFrom]
    rw [settle_eq out]
    obtain ⟨first, rest⟩ := settle #[] stack
    cases rest <;> simp
  | cons s tokens ih =>
    simp only [parseFrom]
    rw [settle_eq out]
    obtain ⟨first, rest⟩ := settle #[] stack
    cases rest with
    | nil => simp
    | cons g rest =>
      simp only
      rw [offer_eq s.token (Array.push _ _), offer_eq s.token (first.push _)]
      obtain ⟨added, after⟩ := offer s.token #[] (g :: rest)
      cases after with
      | none => simp
      | some after =>
        simp only
        rw [ih, ih (first.push _ ++ _)]
        simp

def parse (tokens : List Scanned) : Array Event :=
  parseFrom #[] classItems tokens

end JackCompiler
