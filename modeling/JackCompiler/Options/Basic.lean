import JackCompiler.Scope.Table

/-!
# Options

What a compilation can be asked for besides the plain program.
-/

namespace JackCompiler

def standardClasses : List String :=
  ["Array", "Keyboard", "Math", "Memory", "Output", "Screen", "String", "Sys"]

structure Options where
  /-- Refuse names declared twice and calls to unknown classes. -/
  strict : Bool := false
  trace : Bool := false
  qualifyLabels : Bool := false
  objectSetup : Bool := false
  knownClasses : List String := standardClasses
deriving DecidableEq, Repr

def Options.duplicates (o : Options) : DuplicatePolicy :=
  if o.strict then .reject else .replace

end JackCompiler
