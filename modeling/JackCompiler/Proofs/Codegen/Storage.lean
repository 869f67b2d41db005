import Mathlib.Algebra.GroupWithZero.Nat
import JackCompiler.Proofs.Codegen.Contents
import JackCompiler.Proofs.Codegen.Labels

/-!
# Storage

The code of a subroutine stays within its frame: it uses no more locals than its header
announces, no more arguments than it is declared with and no more fields and statics than
the class has (`storage_in_range`). A name that is declared again takes a new place, and
the places of all its declarations are counted.
-/

namespace JackCompiler

/-! ## Frames -/

/-- How many variables of each kind there are in a subroutine. -/
structure Frame where
  statics : Nat
  fields : Nat
  arguments : Nat
  locals : Nat

namespace Frame

def Has (f : Frame) : Segment → Nat → Prop
  | .constant, _ => True
  | .static, i => i < f.statics
  | .this, i => i < f.fields
  | .argument, i => i < f.arguments
  | .local, i => i < f.locals
  | .pointer, i => i = 0 ∨ i = 1
  | .that, i => i = 0
  | .temp, i => i = 0

def count (f : Frame) : VariableKind → Nat
  | .static => f.statics
  | .field => f.fields
  | .argument => f.arguments
  | .local => f.locals

theorem has_segment_iff {f : Frame} {kind : VariableKind} {i : Nat} :
    f.Has kind.segment i ↔ i < f.count kind := by
  cases kind <;> exact Iff.rfl

end Frame

/-- The instruction touches only places of the frame, and stores into no constant. -/
def Instruction.Within (f : Frame) : Instruction → Prop
  | .push segment index => f.Has segment index.toNat
  | .pop segment index => segment ≠ .constant ∧ f.Has segment index.toNat
  | _ => True

theorem VariableKind.segment_ne_constant (kind : VariableKind) : kind.segment ≠ .constant := by
  cases kind <;> decide

theorem Instruction.Usual.within {names : Names} {f : Frame} {i : Instruction}
    (hi : i.Usual names)
    (hf : ∀ name v, names.find? name = some v → v.index.toNat < f.count v.kind) :
    i.Within f := by
  cases hi with
  | load h => exact Frame.has_segment_iff.mpr (hf _ _ h)
  | store h => exact ⟨VariableKind.segment_ne_constant _, Frame.has_segment_iff.mpr (hf _ _ h)⟩
  | object => exact .inl rfl
  | address => exact ⟨by decide, .inr rfl⟩
  | fetch | restore => exact rfl
  | put | save => exact ⟨by decide, rfl⟩
  | _ => exact trivial

/-! ## Counting declarations -/

def Declared.size (d : Declared) : Nat :=
  d.more.length + 1

namespace ClassDec

def nameCount (c : ClassDec) (kind : VariableKind) : Nat :=
  ((c.variableDecs.filter fun d => d.kind = kind).map fun d => d.declared.size).sum

/-- The frame that the source declares. A method has its object as a further argument. -/
def frame (c : ClassDec) (s : SubroutineDec) : Frame where
  statics := c.nameCount .static
  fields := c.nameCount .field
  arguments := s.parameters.length + if s.kind = .method then 1 else 0
  locals := (s.locals.map Declared.size).sum

end ClassDec

theorem countOf_append (kind : VariableKind) (ds es : List Declaration) :
    countOf kind (ds ++ es) = countOf kind ds + countOf kind es :=
  List.countP_append

theorem Declared.countOf_declarations (kind kind' : VariableKind) (d : Declared) :
    countOf kind (d.declarations kind') = if kind' = kind then d.size else 0 := by
  unfold countOf declarations
  rw [List.countP_map]
  by_cases h : kind' = kind
  · simp [Function.comp_def, h, size]
  · simp [Function.comp_def, h]

theorem countOf_flatMap {α : Type} (kind : VariableKind) (f : α → List Declaration)
    (xs : List α) : countOf kind (xs.flatMap f) = (xs.map fun x => countOf kind (f x)).sum :=
  List.countP_flatMap

theorem countOf_parameters (kind : VariableKind) (ps : List Parameter) :
    countOf kind (ps.map Parameter.declaration) = if kind = .argument then ps.length else 0 := by
  unfold countOf
  rw [List.countP_map]
  by_cases h : kind = .argument
  · simp [Function.comp_def, Parameter.declaration, h]
  · simp [Function.comp_def, Parameter.declaration, Ne.symm h, h]

namespace ClassDec

variable (tree : ClassDec) (s : SubroutineDec)

theorem countOf_declarations (kind : VariableKind) :
    countOf kind tree.declarations = tree.nameCount kind := by
  unfold declarations nameCount
  simp only [countOf_flatMap, Declared.countOf_declarations]
  induction tree.variableDecs with
  | nil => rfl
  | cons d ds ih =>
    rw [List.map_cons, List.sum_cons, ih]
    by_cases h : d.kind = kind <;> simp [h]

theorem countOf_receiverDeclarations (kind : VariableKind) :
    countOf kind (tree.receiverDeclarations s) =
      if kind = .argument ∧ s.kind = .method then 1 else 0 := by
  unfold receiverDeclarations
  by_cases hmethod : s.kind = .method
  · cases kind <;> simp [hmethod, countOf]
  · simp [hmethod, countOf]

theorem countOf_localDeclarations {kind : VariableKind} (h : kind.inClass = false) :
    countOf kind (tree.localDeclarations s) = (tree.frame s).count kind := by
  unfold localDeclarations
  simp only [countOf_append, countOf_flatMap, countOf_receiverDeclarations, countOf_parameters,
    Declared.countOf_declarations]
  cases kind with
  | static | field => cases h
  | argument => simp [frame, Frame.count, Nat.add_comm]
  | «local» => simp [frame, Frame.count]

variable {tree s} {o : Options}

theorem index_lt_of_find? (hstatic : tree.Static o) (hs : s ∈ tree.subroutines) {name : String}
    {v : Variable} (h : (tree.names s).find? name = some v) :
    v.index.toNat < (tree.frame s).count v.kind := by
  rw [tree.find?_names s] at h
  rcases Option.or_eq_some_iff.mp h with hinner | ⟨-, houter⟩
  · obtain ⟨⟨d, hd, hkind⟩, hindex⟩ := variableOf?_eq_some hinner
    have hlocal := localDeclarations_kind s d (List.mem_reverse.mp hd)
    rw [countOf_reverse, tree.countOf_localDeclarations s (hkind ▸ hlocal)] at hindex
    apply hindex
    rw [← tree.countOf_localDeclarations s (hkind ▸ hlocal)]
    exact (hstatic.inner hs).1 v.kind
  · obtain ⟨⟨d, hd, hkind⟩, hindex⟩ := variableOf?_eq_some houter
    have hclass := declarations_kind d (List.mem_reverse.mp hd)
    rw [countOf_reverse, countOf_declarations] at hindex
    have hlt := hindex (by rw [← countOf_declarations]; exact hstatic.outer.1 v.kind)
    rw [hkind] at hclass
    cases hv : v.kind with
    | static | field => rwa [hv] at hlt
    | argument | «local» => rw [hv] at hclass; cases hclass

theorem locals_block (hstatic : tree.Static o) (hs : s ∈ tree.subroutines) :
    (tree.block o s).locals.toNat = (tree.frame s).locals := by
  have hcount : countOf .local (tree.localDeclarations s) = _ :=
    tree.countOf_localDeclarations s rfl
  have hle := (hstatic.inner hs).1 .local
  simp only [block]
  rw [UInt16.toNat_ofNat_of_lt' (Nat.lt_succ_of_le hle), hcount]
  rfl

theorem within_setup (s : SubroutineDec) : ∀ i ∈ tree.setup o s, i.Within (tree.frame s) := by
  unfold setup
  split
  · cases hkind : s.kind with
    | constructor =>
      simp only [setupCode, List.forall_mem_cons]
      exact ⟨trivial, trivial, ⟨by decide, .inl rfl⟩, List.forall_mem_nil _⟩
    | method =>
      simp only [setupCode, List.forall_mem_cons]
      refine ⟨?_, ⟨by decide, .inl rfl⟩, List.forall_mem_nil _⟩
      simp [Instruction.Within, Frame.Has, frame, hkind]
    | function => simp [setupCode]
  · simp

theorem within_block (hstatic : tree.Static o) (hs : s ∈ tree.subroutines) :
    ∀ i ∈ (tree.block o s).body, i.Within (tree.frame s) := by
  simp only [block, List.forall_mem_append]
  refine ⟨within_setup s, fun i hi => ?_⟩
  have husual := Block.usual_code (hstatic.body hs) (tree.labelScope o s) 0 0 i hi
  exact husual.within fun name v hv => index_lt_of_find? hstatic hs hv

/-- The block is the subroutine's and keeps to the storage that the source declares. -/
structure InRange (tree : ClassDec) (o : Options) (s : SubroutineDec) (b : CodeBlock) : Prop where
  name : b.name = tree.name.token.lexeme ++ "." ++ s.name.token.lexeme
  header : b.locals.toNat = (tree.frame s).locals
  within : ∀ i ∈ b.body, i.Within (tree.frame s)
  allocates : o.objectSetup = true → s.kind = .constructor →
    ∃ size : UInt16, size.toNat = (tree.frame s).fields ∧
      [.push .constant size, .call "Memory.alloc" 1] <+: b.body

theorem inRange_block (hstatic : tree.Static o) (hs : s ∈ tree.subroutines) :
    tree.InRange o s (tree.block o s) := by
  refine ⟨rfl, locals_block hstatic hs, within_block hstatic hs, fun ho hkind => ?_⟩
  refine ⟨UInt16.ofNat (countOf .field tree.declarations), ?_, ?_⟩
  · rw [UInt16.toNat_ofNat_of_lt' (Nat.lt_succ_of_le (hstatic.outer.1 .field)),
      countOf_declarations]
    rfl
  · simp only [block, setup, if_pos ho, hkind, setupCode]
    exact ⟨_, rfl⟩

end ClassDec

/-! ## Programs -/

theorem storage_in_range {o : Options} {source : String} {out : Compiled} {tree : ClassDec}
    (h : compile o source = .ok out) (htree : tree.Heads source) :
    (splitBlocks out.program).1 = [] ∧
      List.Forall₂ (tree.InRange o) tree.subroutines (splitBlocks out.program).2 := by
  have hstatic := static_of_compile h htree
  rw [program_of_compile h htree, tree.splitBlocks_code o]
  refine ⟨rfl, ?_⟩
  rw [List.forall₂_map_right_iff, List.forall₂_same]
  exact fun s hs => ClassDec.inRange_block hstatic hs

def shadowSource : String :=
  "class A \x7b field int a, a; method int f(int b, int b) \x7b " ++
    "var int a, a; let a = b; return a; \x7d \x7d"

theorem storage_in_range_shadowSource : ∃ (out : Compiled) (tree : ClassDec),
    compile {} shadowSource = .ok out ∧ tree.Heads shadowSource ∧
      (splitBlocks out.program).1 = [] ∧
        List.Forall₂ (tree.InRange {}) tree.subroutines (splitBlocks out.program).2 := by
  have hcompiles : ∃ out, compile {} shadowSource = .ok out := by
    rw [exists_compile_iff]
    decide +kernel
  obtain ⟨out, hout⟩ := hcompiles
  obtain ⟨tree, htree⟩ := exists_heads hout
  exact ⟨out, tree, hout, htree, storage_in_range hout htree⟩

end JackCompiler
