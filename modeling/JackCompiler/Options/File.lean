import JackCompiler.Options.Settings
import JackCompiler.Text.Utf8

/-!
# Settings files

A settings file has one `name: value` per line. A value is a flag, a word or a
list, which is written in brackets or as lines of their own, each with a dash
before the item. What follows a `#` is a comment.
-/

namespace JackCompiler.SettingsFile

def isSpace (c : Char) : Bool :=
  c == ' ' || c == '\t' || c == '\r'

def trimStart (cs : List Char) : List Char :=
  cs.dropWhile isSpace

def trim (cs : List Char) : List Char :=
  (trimStart (trimStart cs).reverse).reverse

def splitAt (separator : Char) (cs : List Char) : List (List Char) :=
  cs.foldr (fun c parts =>
    if c = separator then [] :: parts
    else (c :: parts.headD []) :: parts.tail) [[]]

/-- The line without its comment, `spaced` telling whether a space or the start of
the line is before it. -/
def dropComment (spaced : Bool) : List Char → List Char
  | [] => []
  | c :: cs => if spaced && c == '#' then [] else c :: dropComment (isSpace c) cs

/-! ## Values -/

def unquote? : List Char → Option (List Char)
  | [] => none
  | q :: cs =>
    if (q = '"' || q = '\x27') && cs.getLast? = some q then some cs.dropLast else none

def textOf (word : List Char) : String :=
  String.ofList ((unquote? word).getD word)

def wordValue (word : List Char) : Value :=
  let text := String.ofList word
  if ["true", "True", "TRUE"].contains text then .flag true
  else if ["false", "False", "FALSE"].contains text then .flag false
  else .text (textOf word)

/-- The items between the brackets; the last one may be followed by a comma. -/
def itemsOf (inside : List Char) : List (Option String) :=
  let items := (splitAt ',' inside).map trim
  let items := if items.getLast? = some [] then items.dropLast else items
  items.map fun item => some (textOf item)

def valueOf (cs : List Char) : Value :=
  match cs with
  | [] => .blank
  | '[' :: inside =>
    if inside.getLast? = some ']' then .list (itemsOf inside.dropLast) else .other
  | word => wordValue word

/-! ## Lines -/

inductive Line
  | nothing
  | setting (name : String) (value : Value)
  | item (text : String)
deriving DecidableEq, Repr

def splitName? : List Char → Option (List Char × List Char)
  | [] => none
  | ':' :: [] => some ([], [])
  | c :: cs =>
    if c = ':' && cs.head?.any isSpace then some ([], cs)
    else (splitName? cs).map fun (name, value) => (c :: name, value)

def line? (cs : List Char) : Option Line :=
  match trim (dropComment true cs) with
  | [] => some .nothing
  | ['-', '-', '-'] => some .nothing
  | ['-'] => some (.item "")
  | '-' :: ' ' :: item => some (.item (textOf (trim item)))
  | line =>
    (splitName? line).map fun (name, value) => .setting (textOf (trim name)) (valueOf (trim value))

/-- Puts a line before the settings of the lines after it and the items that the
first of those begin with. -/
def gather? (line : Line) :
    List String × List (String × Value) → Option (List String × List (String × Value))
  | (items, settings) =>
    match line, items with
    | .nothing, items => some (items, settings)
    | .item text, items => some (text :: items, settings)
    | .setting name value, [] => some ([], (name, value) :: settings)
    | .setting name .blank, items => some ([], (name, .list (items.map some)) :: settings)
    | .setting _ _, _ => none

def parse? (text : List Char) : Option (List (String × Value)) := do
  let lines ← (splitAt '\n' text).mapM line?
  match ← lines.foldrM gather? ([], []) with
  | ([], settings) => return settings
  | _ => none

end SettingsFile

def Options.ofFile? (bytes : List UInt8) : Option Options := do
  let text ← (Utf8.decode bytes).toOption
  let settings ← SettingsFile.parse? text
  Options.ofSettings? settings

end JackCompiler
