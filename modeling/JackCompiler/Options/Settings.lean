import JackCompiler.Options.Basic

/-!
# Options from settings

Options can be written down as settings, which are named values. A name that is
no option's is passed over; a value of the wrong type, or an option set twice,
makes the settings invalid.
-/

namespace JackCompiler

inductive Value
  | flag (b : Bool)
  | text (s : String)
  /-- A list, with `none` for an item that is no text. -/
  | list (items : List (Option String))
  | blank
  | other
deriving DecidableEq, Repr

namespace Value

def flag? : Value → Option Bool
  | .flag b => some b
  | _ => none

def texts? : Value → Option (List String)
  | .list items => items.mapM id
  -- A name without a value stands for an empty list.
  | .blank => some []
  | _ => none

end Value

def Options.set? (o : Options) (name : String) (value : Value) : Option Options :=
  match name with
  | "strict" => value.flag?.map fun b => { o with strict := b }
  | "trace" => value.flag?.map fun b => { o with trace := b }
  | "qualify_labels" => value.flag?.map fun b => { o with qualifyLabels := b }
  | "object_setup" => value.flag?.map fun b => { o with objectSetup := b }
  | "known_classes" => value.texts?.map fun names => { o with knownClasses := names }
  | _ => some o

def optionNames : List String :=
  ["strict", "trace", "qualify_labels", "object_setup", "known_classes"]

def Options.ofSettings? (settings : List (String × Value)) : Option Options :=
  if ((settings.map Prod.fst).filter optionNames.contains).Nodup then
    settings.foldlM (fun o (name, value) => o.set? name value) {}
  else
    none

end JackCompiler
