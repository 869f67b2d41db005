import JackCompiler.Proofs.Codegen.Static

/-!
# What code consists of

The instructions of a body are of few sorts, whatever the body is. Of the storage they
touch the places of the variables in sight, the object, and the places that an array
access goes through (`Block.usual_code`).
-/

namespace JackCompiler

namespace Instruction

inductive Usual (names : Names) : Instruction → Prop
  | operate (op : Operation) : Usual names (.operate op)
  | call (name : String) (arguments : UInt16) : Usual names (.call name arguments)
  | label (name : String) : Usual names (.label name)
  | goto (name : String) : Usual names (.goto name)
  | ifGoto (name : String) : Usual names (.ifGoto name)
  | return : Usual names .return
  | constant {n : Nat} (h : n ≤ maxConstant) : Usual names (pushConstant (UInt16.ofNat n))
  | object : Usual names (.push .pointer 0)
  | address : Usual names (.pop .pointer 1)
  | fetch : Usual names (.push .that 0)
  | put : Usual names (.pop .that 0)
  | save : Usual names (.pop .temp 0)
  | restore : Usual names (.push .temp 0)
  | load {name : String} {v : Variable} (h : names.find? name = some v) : Usual names (loadCode v)
  | store {name : String} {v : Variable} (h : names.find? name = some v) :
    Usual names (storeCode v)

end Instruction

section

variable {o : Options} {names : Names}

/-! ## Single constructs -/

theorem Names.usual_access {name : Token} {code : Variable → List Instruction}
    (h : ∀ v, names.find? name.lexeme = some v → ∀ i ∈ code v, i.Usual names) :
    ∀ i ∈ names.access name code, i.Usual names := by
  unfold Names.access
  cases hfind : names.find? name.lexeme with
  | some v => exact h v hfind
  | none => simp

theorem Names.usual_receiver (target : CallName) :
    ∀ i ∈ names.receiver target, i.Usual names := by
  cases target with
  | own name =>
    simp only [Names.receiver, List.forall_mem_singleton]
    exact .object
  | member qualifier name =>
    apply Names.usual_access
    intro v hv
    simp only [List.forall_mem_singleton]
    exact .load hv

theorem usual_textCode {text : List Char} (hlength : text.length ≤ maxConstant)
    (hchars : ∀ c ∈ text, c.toNat ≤ maxConstant) :
    ∀ i ∈ textCode text, i.Usual names := by
  simp only [textCode, List.forall_mem_cons]
  refine ⟨.constant hlength, .call _ _, fun i hi => ?_⟩
  obtain ⟨c, hc, hi⟩ := List.mem_flatMap.mp hi
  simp only [appendCode, List.mem_cons, List.not_mem_nil, or_false] at hi
  rcases hi with rfl | rfl
  · exact .constant (hchars c hc)
  · exact .call _ _

theorem usual_pushZero : (pushConstant 0).Usual names :=
  .constant (n := 0) (Nat.zero_le _)

theorem usual_wordCode (word : Word) : ∀ i ∈ wordCode word, i.Usual names := by
  cases word <;> simp only [wordCode, List.forall_mem_cons]
  · exact ⟨usual_pushZero, .operate _, List.forall_mem_nil _⟩
  · exact ⟨usual_pushZero, List.forall_mem_nil _⟩
  · exact ⟨usual_pushZero, List.forall_mem_nil _⟩
  · exact ⟨.object, List.forall_mem_nil _⟩

theorem usual_unaryCode (op : UnaryOp) : ∀ i ∈ unaryCode op, i.Usual names := by
  cases op <;> simp only [unaryCode, List.forall_mem_singleton] <;> exact .operate _

theorem usual_binaryCode (op : BinaryOp) : ∀ i ∈ binaryCode op, i.Usual names := by
  cases op <;> simp only [binaryCode, List.forall_mem_singleton] <;>
    first | exact .operate _ | exact .call _ _

theorem usual_addressCode {name : String} {v : Variable} (h : names.find? name = some v) :
    ∀ i ∈ addressCode v, i.Usual names := by
  simp only [addressCode, List.forall_mem_cons]
  exact ⟨.load h, .operate _, List.forall_mem_nil _⟩

theorem usual_loadElementCode {name : String} {v : Variable} (h : names.find? name = some v) :
    ∀ i ∈ loadElementCode v, i.Usual names := by
  simp only [loadElementCode, List.forall_mem_append, List.forall_mem_cons]
  exact ⟨usual_addressCode h, .address, .fetch, List.forall_mem_nil _⟩

theorem usual_storeElementCode : ∀ i ∈ storeElementCode, i.Usual names := by
  simp only [storeElementCode, List.forall_mem_cons]
  exact ⟨.save, .address, .restore, .put, List.forall_mem_nil _⟩

theorem Names.usual_call (target : CallName) (count : Nat) :
    ∀ i ∈ names.call target count, i.Usual names :=
  Names.forall_mem_call (fun _ => .call _ _) count

/-! ## Expressions -/

mutual

theorem Term.usual_code : ∀ e : Term, (∀ use ∈ e.uses, use.Allowed o names) →
    ∀ i ∈ e.code names, i.Usual names
  | .integer literal, hu => by
    have hvalue : digitsValue literal.token.lexeme.toList ≤ maxConstant :=
      hu _ (List.mem_singleton_self _)
    simp only [Term.code, List.forall_mem_singleton]
    exact .constant hvalue
  | .text literal, hu => by
    obtain ⟨hlength, hchars⟩ : Use.Allowed o names (.text literal.token) :=
      hu _ (List.mem_singleton_self _)
    exact usual_textCode hlength hchars
  | .word word, _ => usual_wordCode word
  | .unary op operand, hu => by
    simp only [Term.code, List.forall_mem_append]
    exact ⟨operand.usual_code hu, usual_unaryCode op⟩
  | .group inner, hu => inner.usual_code hu
  | .var name, _ => by
    apply Names.usual_access
    intro v hv
    simp only [List.forall_mem_singleton]
    exact .load hv
  | .element array index, hu => by
    simp only [Term.code, List.forall_mem_append]
    have hindex := index.usual_code fun use h => hu use (List.mem_cons_of_mem _ h)
    exact ⟨hindex, Names.usual_access fun v hv => usual_loadElementCode hv⟩
  | .call target arguments, hu => by
    simp only [Term.code, List.forall_mem_append]
    have harguments := arguments.usual_code fun use h => hu use (List.mem_append_right _ h)
    exact ⟨⟨Names.usual_receiver target, harguments⟩, Names.usual_call target _⟩

theorem Expression.usual_code : ∀ e : Expression, (∀ use ∈ e.uses, use.Allowed o names) →
    ∀ i ∈ e.code names, i.Usual names
  | .mk first rest, hu => by
    simp only [Expression.uses, Expression.code, List.forall_mem_append] at hu ⊢
    exact ⟨first.usual_code hu.1, rest.usual_code hu.2⟩

theorem Operations.usual_code : ∀ e : Operations, (∀ use ∈ e.uses, use.Allowed o names) →
    ∀ i ∈ e.code names, i.Usual names
  | .nil, _ => by simp [Operations.code]
  | .cons op operand rest, hu => by
    simp only [Operations.uses, Operations.code, List.forall_mem_append] at hu ⊢
    exact ⟨⟨operand.usual_code hu.1, usual_binaryCode op⟩, rest.usual_code hu.2⟩

theorem Arguments.usual_code : ∀ e : Arguments, (∀ use ∈ e.uses, use.Allowed o names) →
    ∀ i ∈ e.code names, i.Usual names
  | .nil, _ => by simp [Arguments.code]
  | .cons first rest, hu => by
    simp only [Arguments.uses, Arguments.code, List.forall_mem_append] at hu ⊢
    exact ⟨first.usual_code hu.1, rest.usual_code hu.2⟩

end

/-! ## Statements -/

theorem Target.usual_code {target : Target} (hu : ∀ use ∈ target.uses, use.Allowed o names) :
    ∀ i ∈ target.code names, i.Usual names := by
  cases target with
  | var name => simp [Target.code]
  | element array index =>
    simp only [Target.code, List.forall_mem_append]
    have hindex := index.usual_code fun use h => hu use (List.mem_cons_of_mem _ h)
    exact ⟨hindex, Names.usual_access fun v hv => usual_addressCode hv⟩

theorem Target.usual_storeCode (target : Target) :
    ∀ i ∈ target.storeCode names, i.Usual names := by
  cases target with
  | var name =>
    apply Names.usual_access
    intro v hv
    simp only [List.forall_mem_singleton]
    exact .store hv
  | element array index => exact usual_storeElementCode

theorem usual_resultCode {value : Option Expression}
    (hu : ∀ use ∈ resultUses value, use.Allowed o names) :
    ∀ i ∈ resultCode names value, i.Usual names := by
  cases value with
  | some value => exact value.usual_code hu
  | none =>
    simp only [resultCode, List.forall_mem_singleton]
    exact usual_pushZero

theorem usual_label (name : String) : ∀ i ∈ [Instruction.label name], i.Usual names := by
  simp only [List.forall_mem_singleton]
  exact .label name

theorem usual_branch (yes no : String) :
    ∀ i ∈ [Instruction.ifGoto yes, .goto no, .label yes], i.Usual names := by
  simp only [List.forall_mem_cons]
  exact ⟨.ifGoto yes, .goto no, .label yes, List.forall_mem_nil _⟩

theorem usual_leap (name next : String) :
    ∀ i ∈ [Instruction.goto name, .label next], i.Usual names := by
  simp only [List.forall_mem_cons]
  exact ⟨.goto name, .label next, List.forall_mem_nil _⟩

theorem usual_test (name : String) :
    ∀ i ∈ [Instruction.operate .not, .ifGoto name], i.Usual names := by
  simp only [List.forall_mem_cons]
  exact ⟨.operate .not, .ifGoto name, List.forall_mem_nil _⟩

theorem Block.usual_code {b : Block} (hu : b.Allowed o names) (scope : String) (i w : Nat) :
    ∀ x ∈ b.code names scope i w, x.Usual names := by
  unfold Allowed at hu
  induction b generalizing i w with
  | empty => simp [code]
  | let_ target value next ih =>
    simp only [uses, code, List.forall_mem_append] at hu ⊢
    have hvalue := value.usual_code hu.1.2
    exact ⟨⟨⟨Target.usual_code hu.1.1, hvalue⟩, target.usual_storeCode⟩, ih hu.2 i w⟩
  | if_ condition yes next ihyes ih =>
    simp only [uses, code, List.forall_mem_append] at hu ⊢
    have hcondition := condition.usual_code hu.1.1
    exact ⟨⟨⟨⟨hcondition, usual_branch _ _⟩, ihyes hu.1.2 _ _⟩, usual_label _⟩, ih hu.2 _ _⟩
  | ifElse condition yes no next ihyes ihno ih =>
    simp only [uses, code, List.forall_mem_append] at hu ⊢
    have hcondition := condition.usual_code hu.1.1.1
    have hyes := ihyes hu.1.1.2 (i + 1) w
    have hno := ihno hu.1.2 (i + 1 + yes.ifs) (w + yes.whiles)
    exact ⟨⟨⟨⟨⟨⟨hcondition, usual_branch _ _⟩, hyes⟩, usual_leap _ _⟩, hno⟩, usual_label _⟩,
      ih hu.2 _ _⟩
  | while_ condition body next ihbody ih =>
    simp only [uses, code, List.forall_mem_append] at hu ⊢
    have hcondition := condition.usual_code hu.1.1
    have hbody := ihbody hu.1.2 i (w + 1)
    exact ⟨⟨⟨⟨⟨usual_label _, hcondition⟩, usual_test _⟩, hbody⟩, usual_leap _ _⟩, ih hu.2 _ _⟩
  | do_ target arguments next ih =>
    simp only [uses, code, List.forall_mem_append, List.forall_mem_singleton] at hu ⊢
    have harguments := arguments.usual_code hu.1.2
    exact ⟨⟨⟨⟨Names.usual_receiver target, harguments⟩, Names.usual_call target _⟩, .save⟩,
      ih hu.2 i w⟩
  | return_ value next ih =>
    simp only [uses, code, List.forall_mem_append, List.forall_mem_singleton] at hu ⊢
    exact ⟨⟨usual_resultCode hu.1, .return⟩, ih hu.2 i w⟩

end

end JackCompiler
