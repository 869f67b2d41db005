import JackCompiler.Machine.Instruction

/-!
# Blocks

A program is cut at its `function` instructions into blocks, one for each subroutine.
What the cut leaves over is what stands before the first of them.
-/

namespace JackCompiler

structure CodeBlock where
  name : String
  locals : UInt16
  body : List Instruction

namespace Instruction

def isFunction : Instruction → Bool
  | .function _ _ => true
  | _ => false

def label? : Instruction → Option String
  | .label name => some name
  | _ => none

def target? : Instruction → Option String
  | .goto name => some name
  | .ifGoto name => some name
  | _ => none

end Instruction

namespace CodeBlock

def code (b : CodeBlock) : List Instruction :=
  .function b.name b.locals :: b.body

def labels (b : CodeBlock) : List String :=
  b.body.filterMap Instruction.label?

def targets (b : CodeBlock) : List String :=
  b.body.filterMap Instruction.target?

/-- No label is declared twice, and each jump has just one place to go to. -/
def Closed (b : CodeBlock) : Prop :=
  b.labels.Nodup ∧ ∀ target ∈ b.targets, b.labels.count target = 1

end CodeBlock

/-- What stands before the first function, and the blocks. -/
def splitBlocks : List Instruction → List Instruction × List CodeBlock
  | [] => ([], [])
  | .function name locals :: rest =>
    ([], ⟨name, locals, (splitBlocks rest).1⟩ :: (splitBlocks rest).2)
  | i :: rest => (i :: (splitBlocks rest).1, (splitBlocks rest).2)

theorem splitBlocks_cons {i : Instruction} (h : i.isFunction = false) (p : List Instruction) :
    splitBlocks (i :: p) = (i :: (splitBlocks p).1, (splitBlocks p).2) := by
  cases i with
  | function => cases h
  | _ => rfl

theorem splitBlocks_append {p : List Instruction} (h : ∀ i ∈ p, i.isFunction = false)
    (q : List Instruction) :
    splitBlocks (p ++ q) = (p ++ (splitBlocks q).1, (splitBlocks q).2) := by
  induction p with
  | nil => rfl
  | cons i p ih =>
    rw [List.forall_mem_cons] at h
    rw [List.cons_append, splitBlocks_cons h.1, ih h.2, List.cons_append]

theorem splitBlocks_flatMap {bs : List CodeBlock}
    (h : ∀ b ∈ bs, ∀ i ∈ b.body, i.isFunction = false) :
    splitBlocks (bs.flatMap CodeBlock.code) = ([], bs) := by
  induction bs with
  | nil => rfl
  | cons b bs ih =>
    rw [List.forall_mem_cons] at h
    rw [List.flatMap_cons, CodeBlock.code, List.cons_append, splitBlocks,
      splitBlocks_append h.1, ih h.2, List.append_nil]

end JackCompiler
