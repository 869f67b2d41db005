import Mathlib.Logic.Function.Basic
import JackCompiler.Scope.Variable

/-!
# Storage

Where a subroutine keeps its values, as its source sees them, and the calls it makes. What a
call does is left open: it depends on what the subroutines of a program share, which besides
the static variables and the heap is the rest of the world.
-/

namespace JackCompiler

/-- What all subroutines of a program share. -/
structure Memory (World : Type) where
  statics : UInt16 → UInt16
  heap : UInt16 → UInt16
  world : World

/-- The storage of a running subroutine. Its fields are on the heap, where `object` is. -/
structure Store (World : Type) where
  arguments : UInt16 → UInt16
  locals : UInt16 → UInt16
  object : UInt16
  memory : Memory World

namespace Store

variable {World : Type}

def readHeap (s : Store World) (address : UInt16) : UInt16 :=
  s.memory.heap address

def writeHeap (s : Store World) (address value : UInt16) : Store World :=
  { s with memory.heap := Function.update s.memory.heap address value }

def writeStatic (s : Store World) (index value : UInt16) : Store World :=
  { s with memory.statics := Function.update s.memory.statics index value }

def writeArgument (s : Store World) (index value : UInt16) : Store World :=
  { s with arguments := Function.update s.arguments index value }

def writeLocal (s : Store World) (index value : UInt16) : Store World :=
  { s with locals := Function.update s.locals index value }

def read (s : Store World) (v : Variable) : UInt16 :=
  match v.kind with
  | .static => s.memory.statics v.index
  | .field => s.readHeap (s.object + v.index)
  | .argument => s.arguments v.index
  | .local => s.locals v.index

def write (s : Store World) (v : Variable) (value : UInt16) : Store World :=
  match v.kind with
  | .static => s.writeStatic v.index value
  | .field => s.writeHeap (s.object + v.index) value
  | .argument => s.writeArgument v.index value
  | .local => s.writeLocal v.index value

end Store

structure Call (World : Type) where
  name : String
  arguments : List UInt16
  memory : Memory World

/-- What the machine has besides the stack and the storage of the source: the base of the
segment `that`, and the segment `temp`. -/
structure Scratch where
  that : UInt16
  temp : UInt16 → UInt16

/-- What calls do. Nothing is said of what they leave in the scratch storage. -/
structure Callees (World : Type) where
  result : Call World → Option (UInt16 × Memory World)
  scratch : Call World → Scratch → Scratch

inductive Ending (World : Type)
  | next (store : Store World)
  | returned (value : UInt16) (store : Store World)
  /-- In a call that does not come back. -/
  | lost (call : Call World)

def truth (p : Prop) [Decidable p] : UInt16 :=
  if p then 65535 else 0

end JackCompiler
