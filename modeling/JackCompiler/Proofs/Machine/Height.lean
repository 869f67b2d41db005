import JackCompiler.Proofs.Machine.Blocks

/-!
# Stack heights

A height for each program point of a block: the number of values that are on the operand
stack whenever control is there. Point `k` is the one before instruction `k`.
-/

namespace JackCompiler

namespace Instruction

def pops : Instruction → Nat
  | .push _ _ => 0
  | .pop _ _ => 1
  | .operate .neg => 1
  | .operate .not => 1
  | .operate _ => 2
  | .label _ => 0
  | .goto _ => 0
  | .ifGoto _ => 1
  | .call _ arguments => arguments.toNat
  | .function _ _ => 0
  | .return => 1

def pushes : Instruction → Nat
  | .push _ _ => 1
  | .operate _ => 1
  | .call _ _ => 1
  | _ => 0

def passes : Instruction → Bool
  | .goto _ => false
  | .return => false
  | _ => true

end Instruction

namespace CodeBlock

/-- Control can go from one point to the other. -/
inductive Edge (b : CodeBlock) : Nat → Nat → Prop
  | next {k i} (hk : b.body[k]? = some i) (hi : i.passes = true) : Edge b k (k + 1)
  | jump {k m i name} (hk : b.body[k]? = some i) (hi : i.target? = some name)
      (hm : b.body[m]? = some (.label name)) : Edge b k m

/-- The heights agree with what the instructions do to the stack. -/
structure Heights (b : CodeBlock) (height : Nat → Nat) : Prop where
  entry : height 0 = 0
  enough : ∀ {k i}, b.body[k]? = some i → i.pops ≤ height k
  edge : ∀ {k m i}, b.body[k]? = some i → b.Edge k m → height m = height k - i.pops + i.pushes
  label : ∀ {k name}, b.body[k]? = some (.label name) → height k = 0
  leave : ∀ {k}, b.body[k]? = some .return → height k = 1
  stop : height b.body.length = 0

end CodeBlock

/-! ## Walks -/

/-- The height behind an instruction. Where control does not pass on, it is 0. -/
def Instruction.heightAfter (h : Nat) (i : Instruction) : Nat :=
  if i.passes then h - i.pops + i.pushes else 0

def Instruction.Stands (h : Nat) : Instruction → Prop
  | .label _ => h = 0
  | .goto _ => h = 0
  | .ifGoto _ => h = 1
  | .return => h = 1
  | i => i.pops ≤ h

/-- Reading the code from height `h` on, each instruction can stand where it does, and
the height in the end is `h'`. -/
def Walk (h : Nat) : List Instruction → Nat → Prop
  | [], h' => h = h'
  | i :: p, h' => i.Stands h ∧ Walk (i.heightAfter h) p h'

theorem Walk.append {p q : List Instruction} {h h' h'' : Nat} (hp : Walk h p h')
    (hq : Walk h' q h'') : Walk h (p ++ q) h'' := by
  induction p generalizing h with
  | nil =>
    obtain rfl : h = h' := hp
    exact hq
  | cons i p ih => exact ⟨hp.1, ih hp.2⟩

/-! Single instructions. -/

theorem walk_push (segment : Segment) (index : UInt16) (h : Nat) :
    Walk h [.push segment index] (h + 1) :=
  ⟨Nat.zero_le h, rfl⟩

theorem walk_pop (segment : Segment) (index : UInt16) (h : Nat) :
    Walk (h + 1) [.pop segment index] h :=
  ⟨Nat.le_add_left 1 h, rfl⟩

theorem walk_call (name : String) (arguments : UInt16) (h : Nat) :
    Walk (h + arguments.toNat) [.call name arguments] (h + 1) := by
  refine ⟨Nat.le_add_left _ h, ?_⟩
  show h + arguments.toNat - arguments.toNat + 1 = h + 1
  rw [Nat.add_sub_cancel]

def heightAt (h : Nat) (p : List Instruction) (k : Nat) : Nat :=
  (p.take k).foldl Instruction.heightAfter h

theorem heightAt_succ {h k : Nat} {p : List Instruction} {i : Instruction} (hk : p[k]? = some i) :
    heightAt h p (k + 1) = i.heightAfter (heightAt h p k) := by
  rw [heightAt, List.take_add_one, hk, List.foldl_append]
  rfl

theorem Walk.stands {p : List Instruction} {h h' k : Nat} {i : Instruction} (hp : Walk h p h')
    (hk : p[k]? = some i) : i.Stands (heightAt h p k) := by
  induction p generalizing h k with
  | nil => simp at hk
  | cons j p ih =>
    cases k with
    | zero =>
      obtain rfl : j = i := by simpa using hk
      exact hp.1
    | succ k => exact ih hp.2 (by simpa using hk)

theorem Walk.heightAt_length {p : List Instruction} {h h' : Nat} (hp : Walk h p h') :
    heightAt h p p.length = h' := by
  induction p generalizing h with
  | nil => exact hp
  | cons i p ih => exact ih hp.2

theorem Instruction.Stands.enough {h : Nat} {i : Instruction} (hi : i.Stands h) : i.pops ≤ h := by
  cases i with
  | label | goto => exact Nat.zero_le h
  | ifGoto | «return» => exact Nat.le_of_eq (Eq.symm hi)
  | _ => exact hi

/-- At a jump that can stand there, the stack is empty but for the condition. -/
theorem Instruction.Stands.jump {h : Nat} {i : Instruction} {name : String} (hi : i.Stands h)
    (ht : i.target? = some name) : h - i.pops + i.pushes = 0 := by
  cases i with
  | goto => exact hi
  | ifGoto =>
    obtain rfl : h = 1 := hi
    rfl
  | _ => cases ht

theorem Walk.heights {b : CodeBlock} (hb : Walk 0 b.body 0) : b.Heights (heightAt 0 b.body) := by
  refine ⟨rfl, fun hk => (hb.stands hk).enough, fun hk he => ?_, fun hk => hb.stands hk,
    fun hk => hb.stands hk, hb.heightAt_length⟩
  cases he with
  | next hk' hi =>
    obtain rfl := Option.some.inj (hk.symm.trans hk')
    rw [heightAt_succ hk, Instruction.heightAfter, if_pos hi]
  | jump hk' hi hm =>
    obtain rfl := Option.some.inj (hk.symm.trans hk')
    have hlabel : heightAt 0 b.body _ = 0 := hb.stands hm
    rw [hlabel, (hb.stands hk).jump hi]

end JackCompiler
