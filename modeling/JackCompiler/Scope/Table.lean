import JackCompiler.Fault
import Std.Data.TreeMap

/-!
# Scopes

Two scopes are open at a time, the class's and the current subroutine's, and a
name is looked up in the inner one first. Each declaration takes the next index
of its kind, also one that replaces an earlier declaration of the name, whose
index is then never used again.
-/

namespace JackCompiler

inductive DuplicatePolicy
  | replace
  | reject
deriving DecidableEq, Repr

/-! ## Counts -/

structure Counts where
  statics : UInt16 := 0
  fields : UInt16 := 0
  arguments : UInt16 := 0
  locals : UInt16 := 0
deriving DecidableEq, Repr

namespace Counts

def get (c : Counts) : VariableKind → UInt16
  | .static => c.statics
  | .field => c.fields
  | .argument => c.arguments
  | .local => c.locals

def set (c : Counts) (kind : VariableKind) (n : UInt16) : Counts :=
  match kind with
  | .static => { c with statics := n }
  | .field => { c with fields := n }
  | .argument => { c with arguments := n }
  | .local => { c with locals := n }

theorem get_set (c : Counts) (j k : VariableKind) (n : UInt16) :
    (c.set j n).get k = if j = k then n else c.get k := by
  cases j <;> cases k <;> rfl

end Counts

/-! ## One scope -/

/-- The variables of a scope and, by kind, how many indices are taken. -/
structure Scope where
  entries : Std.TreeMap String Variable
  counts : Counts

namespace Scope

def empty : Scope :=
  ⟨∅, {}⟩

def find? (s : Scope) (name : String) : Option Variable :=
  s.entries[name]?

/-- Adds a variable under the next index of its kind. The last index is not
given out, so that the count stays a word. -/
def declare? (s : Scope) (name type : String) (kind : VariableKind) : Option (Variable × Scope) :=
  let index := s.counts.get kind
  if index = 65535 then none
  else
    let v : Variable := ⟨name, type, kind, index⟩
    some (v, ⟨s.entries.insert name v, s.counts.set kind (index + 1)⟩)

theorem find?_empty (name : String) : empty.find? name = none := by
  simp [find?, empty]

theorem find?_of_declare? {s t : Scope} {v : Variable} {name type : String} {kind : VariableKind}
    (h : s.declare? name type kind = some (v, t)) (other : String) :
    t.find? other = if name = other then some v else s.find? other := by
  simp only [declare?] at h
  split at h
  · contradiction
  · obtain ⟨rfl, rfl⟩ := by simpa using h
    simp [find?, Std.TreeMap.getElem?_insert]

end Scope

/-! ## Both scopes -/

structure Scopes where
  policy : DuplicatePolicy
  outer : Scope
  inner : Scope

namespace Scopes

def empty (policy : DuplicatePolicy) : Scopes :=
  ⟨policy, .empty, .empty⟩

def owner (s : Scopes) (kind : VariableKind) : Scope :=
  if kind.inClass then s.outer else s.inner

def setOwner (s : Scopes) (kind : VariableKind) (scope : Scope) : Scopes :=
  if kind.inClass then { s with outer := scope } else { s with inner := scope }

def count (s : Scopes) (kind : VariableKind) : UInt16 :=
  (s.owner kind).counts.get kind

def find? (s : Scopes) (name : String) : Option Variable :=
  s.inner.find? name <|> s.outer.find? name

def declare {Place : Type} (s : Scopes) (name type : String) (kind : VariableKind) :
    Except (Fault Place) (Variable × Scopes) :=
  let scope := s.owner kind
  if s.policy = .reject ∧ (scope.find? name).isSome then
    .error (.duplicate name kind)
  else
    match scope.declare? name type kind with
    | none => .error (.tooMany name kind)
    | some (v, scope) => .ok (v, s.setOwner kind scope)

def startSubroutine (s : Scopes) : Scopes :=
  { s with inner := .empty }

def clear (s : Scopes) : Scopes :=
  empty s.policy

end Scopes

end JackCompiler
