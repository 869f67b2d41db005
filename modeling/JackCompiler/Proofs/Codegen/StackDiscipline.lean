import JackCompiler.Proofs.Codegen.Labels
import JackCompiler.Proofs.Machine.Height

/-!
# Stack discipline

An expression leaves one value on the stack, whatever is below it, and a statement none;
so the code of a subroutine has a height at each point. What is compiled has no call whose
values a word cannot count.
-/

namespace JackCompiler

section

variable {o : Options} {names : Names}

theorem Names.exists_of_allowed {name : Token} (h : (Use.storage name).Allowed o names) :
    ∃ v, ∀ code, names.access name code = code v := by
  obtain ⟨v, hv⟩ := Option.isSome_iff_exists.mp h
  refine ⟨v, fun code => ?_⟩
  rw [Names.access, hv]

theorem Names.walk_receiver (target : CallName) (h : Nat) :
    Walk h (names.receiver target) (h + names.receivers target) := by
  cases target with
  | own name => exact ⟨Nat.zero_le h, rfl⟩
  | member qualifier name =>
    rw [Names.receiver, Names.access, Names.receivers]
    cases names.find? qualifier.token.lexeme with
    | some v => exact ⟨Nat.zero_le h, rfl⟩
    | none => exact rfl

theorem CallSite.Countable.walk {call : CallSite} (hc : call.Countable names) (h : Nat) :
    Walk (h + names.receivers call.target + call.count) (names.call call.target call.count)
      (h + 1) := by
  have hcall := walk_call (names.calleeName call.target)
    (UInt16.ofNat (call.count + names.receivers call.target)) h
  have hheight : h + (call.count + names.receivers call.target) =
      h + names.receivers call.target + call.count := by
    omega
  rw [hc.toNat_eq, hheight] at hcall
  rw [hc.call_eq]
  exact hcall

theorem walk_textCode (text : List Char) (h : Nat) : Walk h (textCode text) (h + 1) := by
  have happend : ∀ c, Walk (h + 1) (appendCode c) (h + 1) := fun c =>
    (walk_push .constant _ (h + 1)).append (walk_call "String.appendChar" 2 h)
  have hchars : Walk (h + 1) (text.flatMap appendCode) (h + 1) := by
    induction text with
    | nil => exact rfl
    | cons c cs ih => exact (happend c).append ih
  have hnew : Walk (h + 1) [.call "String.new" 1] (h + 1) := walk_call "String.new" 1 h
  exact ((walk_push .constant _ h).append hnew).append hchars

theorem walk_wordCode (word : Word) (h : Nat) : Walk h (wordCode word) (h + 1) := by
  cases word with
  | true => exact (walk_push .constant 0 h).append ⟨Nat.le_add_left 1 h, rfl⟩
  | false | null => exact walk_push .constant 0 h
  | this => exact walk_push .pointer 0 h

theorem walk_unaryCode (op : UnaryOp) (h : Nat) : Walk (h + 1) (unaryCode op) (h + 1) := by
  cases op <;> exact ⟨Nat.le_add_left 1 h, rfl⟩

theorem walk_binaryCode (op : BinaryOp) (h : Nat) : Walk (h + 2) (binaryCode op) (h + 1) := by
  cases op with
  | mul => exact walk_call "Math.multiply" 2 h
  | div => exact walk_call "Math.divide" 2 h
  | _ => exact ⟨Nat.le_add_left 2 h, rfl⟩

theorem walk_addressCode (v : Variable) (h : Nat) : Walk (h + 1) (addressCode v) (h + 1) :=
  (walk_push v.segment v.index (h + 1)).append ⟨Nat.le_add_left 2 h, rfl⟩

theorem walk_loadElementCode (v : Variable) (h : Nat) :
    Walk (h + 1) (loadElementCode v) (h + 1) :=
  (walk_addressCode v h).append ((walk_pop .pointer 1 h).append (walk_push .that 0 h))

theorem walk_storeElementCode (h : Nat) : Walk (h + 2) storeElementCode h :=
  ((walk_pop .temp 0 (h + 1)).append (walk_pop .pointer 1 h)).append
    ((walk_push .temp 0 h).append (walk_pop .that 0 h))

theorem walk_setupCode (fields : UInt16) (kind : SubroutineKind) (h : Nat) :
    Walk h (setupCode fields kind) h := by
  cases kind with
  | constructor =>
    have halloc : Walk (h + 1) [.call "Memory.alloc" 1] (h + 1) := walk_call "Memory.alloc" 1 h
    exact ((walk_push .constant fields h).append halloc).append (walk_pop .pointer 0 h)
  | method => exact (walk_push .argument 0 h).append (walk_pop .pointer 0 h)
  | function => exact rfl

/-! ## Expressions -/

mutual

theorem Term.walk : ∀ (e : Term) (h : Nat), (∀ use ∈ e.uses, use.Allowed o names) →
    (∀ call ∈ e.calls, call.Countable names) → Walk h (e.code names) (h + 1)
  | .integer _, h, _, _ => walk_push .constant _ h
  | .text literal, h, _, _ => walk_textCode literal.token.lexeme.toList h
  | .word word, h, _, _ => walk_wordCode word h
  | .unary op operand, h, hu, hc => (operand.walk h hu hc).append (walk_unaryCode op h)
  | .group inner, h, hu, hc => inner.walk h hu hc
  | .var name, h, hu, _ => by
    obtain ⟨v, hv⟩ := Names.exists_of_allowed (hu _ (List.mem_singleton_self _))
    rw [Term.code, hv]
    exact walk_push v.segment v.index h
  | .element array index, h, hu, hc => by
    obtain ⟨harray, hindex⟩ := List.forall_mem_cons.mp hu
    obtain ⟨v, hv⟩ := Names.exists_of_allowed harray
    rw [Term.code, hv]
    exact (index.walk h hindex hc).append (walk_loadElementCode v h)
  | .call target arguments, h, hu, hc => by
    obtain ⟨-, harguments⟩ := List.forall_mem_append.mp hu
    obtain ⟨hcall, hcalls⟩ := List.forall_mem_cons.mp hc
    have hvalues := (names.walk_receiver target h).append (arguments.walk _ harguments hcalls)
    exact hvalues.append (CallSite.Countable.walk hcall h)

theorem Expression.walk : ∀ (e : Expression) (h : Nat), (∀ use ∈ e.uses, use.Allowed o names) →
    (∀ call ∈ e.calls, call.Countable names) → Walk h (e.code names) (h + 1)
  | .mk first rest, h, hu, hc => by
    obtain ⟨hu, hu'⟩ := List.forall_mem_append.mp hu
    obtain ⟨hc, hc'⟩ := List.forall_mem_append.mp hc
    exact (first.walk h hu hc).append (rest.walk h hu' hc')

theorem Operations.walk : ∀ (e : Operations) (h : Nat), (∀ use ∈ e.uses, use.Allowed o names) →
    (∀ call ∈ e.calls, call.Countable names) → Walk (h + 1) (e.code names) (h + 1)
  | .nil, h, _, _ => rfl
  | .cons op operand rest, h, hu, hc => by
    obtain ⟨hu, hu'⟩ := List.forall_mem_append.mp hu
    obtain ⟨hc, hc'⟩ := List.forall_mem_append.mp hc
    exact ((operand.walk (h + 1) hu hc).append (walk_binaryCode op h)).append (rest.walk h hu' hc')

theorem Arguments.walk : ∀ (e : Arguments) (h : Nat), (∀ use ∈ e.uses, use.Allowed o names) →
    (∀ call ∈ e.calls, call.Countable names) → Walk h (e.code names) (h + e.length)
  | .nil, h, _, _ => rfl
  | .cons first rest, h, hu, hc => by
    obtain ⟨hu, hu'⟩ := List.forall_mem_append.mp hu
    obtain ⟨hc, hc'⟩ := List.forall_mem_append.mp hc
    have hrest := rest.walk (h + 1) hu' hc'
    rw [Nat.add_assoc, Nat.add_comm 1] at hrest
    exact (first.walk h hu hc).append hrest

end

/-! ## Statements -/

def Target.height : Target → Nat
  | .var _ => 0
  | .element _ _ => 1

theorem Target.walk (target : Target) (hu : ∀ use ∈ target.uses, use.Allowed o names)
    (hc : ∀ call ∈ target.calls, call.Countable names) :
    Walk 0 (target.code names) target.height := by
  cases target with
  | var name => exact rfl
  | element array index =>
    obtain ⟨harray, hindex⟩ := List.forall_mem_cons.mp hu
    obtain ⟨v, hv⟩ := Names.exists_of_allowed harray
    rw [Target.code, hv]
    exact (index.walk 0 hindex hc).append (walk_addressCode v 0)

theorem Target.walk_store (target : Target) (hu : ∀ use ∈ target.uses, use.Allowed o names) :
    Walk (target.height + 1) (target.storeCode names) 0 := by
  cases target with
  | var name =>
    obtain ⟨v, hv⟩ := Names.exists_of_allowed (hu _ (List.mem_singleton_self _))
    rw [Target.storeCode, hv]
    exact walk_pop v.segment v.index 0
  | element array index => exact walk_storeElementCode 0

theorem walk_resultCode (value : Option Expression)
    (hu : ∀ use ∈ resultUses value, use.Allowed o names)
    (hc : ∀ call ∈ resultCalls value, call.Countable names) : Walk 0 (resultCode names value) 1 := by
  cases value with
  | some value => exact value.walk 0 hu hc
  | none => exact walk_push .constant 0 0

theorem walk_label (name : String) : Walk 0 [.label name] 0 :=
  ⟨rfl, rfl⟩

theorem walk_branch (yes no : String) : Walk 1 [.ifGoto yes, .goto no, .label yes] 0 :=
  ⟨rfl, rfl, rfl, rfl⟩

theorem walk_leap (name next : String) : Walk 0 [.goto name, .label next] 0 :=
  ⟨rfl, rfl, rfl⟩

theorem walk_test (name : String) : Walk 1 [.operate .not, .ifGoto name] 0 :=
  ⟨Nat.le_refl 1, rfl, rfl⟩

theorem Block.walk (scope : String) (b : Block) (i w : Nat)
    (hu : ∀ use ∈ b.uses, use.Allowed o names) (hc : ∀ call ∈ b.calls, call.Countable names) :
    Walk 0 (b.code names scope i w) 0 := by
  -- Between statements the stack is as high as at the beginning, so that jumps meet at height 0.
  induction b generalizing i w with
  | empty => exact rfl
  | let_ target value next ih =>
    simp only [uses, calls, List.forall_mem_append] at hu hc
    have hvalue := value.walk target.height hu.1.2 hc.1.2
    exact (((target.walk hu.1.1 hc.1.1).append hvalue).append (target.walk_store hu.1.1)).append
      (ih i w hu.2 hc.2)
  | if_ condition yes next ihyes ih =>
    simp only [uses, calls, List.forall_mem_append] at hu hc
    have hcondition := (condition.walk 0 hu.1.1 hc.1.1).append
      (walk_branch (labelText scope .ifTrue i) (labelText scope .ifFalse i))
    exact ((hcondition.append (ihyes _ _ hu.1.2 hc.1.2)).append (walk_label _)).append
      (ih _ _ hu.2 hc.2)
  | ifElse condition yes no next ihyes ihno ih =>
    simp only [uses, calls, List.forall_mem_append] at hu hc
    have hcondition := (condition.walk 0 hu.1.1.1 hc.1.1.1).append
      (walk_branch (labelText scope .ifTrue i) (labelText scope .ifFalse i))
    have hyes := (hcondition.append (ihyes (i + 1) w hu.1.1.2 hc.1.1.2)).append
      (walk_leap (labelText scope .ifEnd i) (labelText scope .ifFalse i))
    exact ((hyes.append (ihno _ _ hu.1.2 hc.1.2)).append (walk_label _)).append
      (ih _ _ hu.2 hc.2)
  | while_ condition body next ihbody ih =>
    simp only [uses, calls, List.forall_mem_append] at hu hc
    have hcondition := ((walk_label (labelText scope .whileExp w)).append
      (condition.walk 0 hu.1.1 hc.1.1)).append (walk_test (labelText scope .whileEnd w))
    exact ((hcondition.append (ihbody _ _ hu.1.2 hc.1.2)).append
      (walk_leap (labelText scope .whileExp w) (labelText scope .whileEnd w))).append
      (ih _ _ hu.2 hc.2)
  | do_ target arguments next ih =>
    simp only [uses, calls, List.forall_mem_append, List.forall_mem_cons] at hu hc
    have hvalues := (names.walk_receiver target 0).append (arguments.walk _ hu.1.2 hc.1.2)
    have hcall := hvalues.append (CallSite.Countable.walk hc.1.1 0)
    exact (hcall.append (walk_pop .temp 0 0)).append (ih i w hu.2 hc.2)
  | return_ value next ih =>
    simp only [uses, calls, List.forall_mem_append] at hu hc
    have hresult := (walk_resultCode value hu.1 hc.1).append (q := [.return]) ⟨rfl, rfl⟩
    exact hresult.append (ih i w hu.2 hc.2)

end

/-! ## Classes -/

theorem ClassDec.walk_block {tree : ClassDec} {o : Options} (hstatic : tree.Static o)
    (hcount : tree.Countable) {s : SubroutineDec} (hs : s ∈ tree.subroutines) :
    Walk 0 (tree.block o s).body 0 := by
  have hsetup : Walk 0 (tree.setup o s) 0 := by
    rw [setup]
    split
    · exact walk_setupCode _ s.kind 0
    · exact rfl
  exact hsetup.append (s.body.walk _ 0 0 (hstatic.body hs) (hcount s hs))

theorem stack_discipline {o : Options} {source : String} {out : Compiled} {tree : ClassDec}
    (h : compile o source = .ok out) (htree : tree.Heads source) :
    ∀ b ∈ (splitBlocks out.program).2, ∃ height, b.Heights height := by
  intro b hb
  rw [program_of_compile h htree, tree.splitBlocks_code o] at hb
  obtain ⟨s, hs, rfl⟩ := List.mem_map.mp hb
  have hcount := countable_of_compile h htree
  exact ⟨_, (ClassDec.walk_block (static_of_compile h htree) hcount hs).heights⟩

theorem stack_discipline_loopClass : ∃ out, compile {} loopSource = .ok out ∧
    loopClass.Heads loopSource ∧
      ∀ b ∈ (splitBlocks out.program).2, ∃ height, b.Heights height := by
  obtain ⟨out, hout⟩ := exists_compile_loopSource
  exact ⟨out, hout, heads_loopClass, stack_discipline hout heads_loopClass⟩

end JackCompiler
