import JackCompiler.Proofs.Codegen.Labels
import JackCompiler.Proofs.Codegen.Outcomes
import JackCompiler.Proofs.Codegen.Runs

/-!
# Calls

The code of a subroutine has one `call` for each call of the source and one for each use
of the library that an operator, a text or an object stands for, in the order in which
they are made, and each passes as many arguments as the source gives it. The machine
counts them in a word. A class that asks for a greater number is not compiled, and the
compiler panics (`call_counts_exact`).
-/

namespace JackCompiler

/-! ## Invocations -/

inductive Invocation
  | written (site : CallSite)
  | library (name : String) (arguments : UInt16)

namespace Invocation

def site? : Invocation → Option CallSite
  | .written site => some site
  | .library _ _ => none

/-- The subroutine that is called, and the number of the arguments. -/
def count (names : Names) : Invocation → String × Nat
  | .written site => (names.calleeName site.target, site.count + names.receivers site.target)
  | .library name arguments => (name, arguments.toNat)

def passed? (names : Names) (i : Invocation) : Option (String × Nat) :=
  match i with
  | .written site => if site.Countable names then some (i.count names) else none
  | .library _ _ => some (i.count names)

theorem count_of_passed? {names : Names} {i : Invocation} {passed : String × Nat}
    (h : i.passed? names = some passed) : i.count names = passed := by
  cases i with
  | written site =>
    by_cases hsite : site.Countable names
    · exact Option.some.inj ((if_pos hsite).symm.trans h)
    · cases (if_neg hsite).symm.trans h
  | library => exact Option.some.inj h

end Invocation

def textInvocations (text : List Char) : List Invocation :=
  .library "String.new" 1 :: text.map fun _ => .library "String.appendChar" 2

def BinaryOp.invocations : BinaryOp → List Invocation
  | .mul => [.library "Math.multiply" 2]
  | .div => [.library "Math.divide" 2]
  | _ => []

mutual

def Term.invocations : Term → List Invocation
  | .integer _ => []
  | .text literal => textInvocations literal.token.lexeme.toList
  | .word _ => []
  | .unary _ operand => operand.invocations
  | .group inner => inner.invocations
  | .var _ => []
  | .element _ index => index.invocations
  | .call target arguments => arguments.invocations ++ [.written ⟨target, arguments.length⟩]

def Expression.invocations : Expression → List Invocation
  | .mk first rest => first.invocations ++ rest.invocations

def Operations.invocations : Operations → List Invocation
  | .nil => []
  | .cons op operand rest => operand.invocations ++ op.invocations ++ rest.invocations

def Arguments.invocations : Arguments → List Invocation
  | .nil => []
  | .cons first rest => first.invocations ++ rest.invocations

end

def Target.invocations : Target → List Invocation
  | .var _ => []
  | .element _ index => index.invocations

def resultInvocations : Option Expression → List Invocation
  | some value => value.invocations
  | none => []

def Block.invocations : Block → List Invocation
  | .empty => []
  | .let_ target value next => target.invocations ++ value.invocations ++ next.invocations
  | .if_ condition yes next => condition.invocations ++ yes.invocations ++ next.invocations
  | .ifElse condition yes no next =>
    condition.invocations ++ yes.invocations ++ no.invocations ++ next.invocations
  | .while_ condition body next => condition.invocations ++ body.invocations ++ next.invocations
  | .do_ target arguments next =>
    arguments.invocations ++ [.written ⟨target, arguments.length⟩] ++ next.invocations
  | .return_ value next => resultInvocations value ++ next.invocations

def SubroutineKind.invocations : SubroutineKind → List Invocation
  | .constructor => [.library "Memory.alloc" 1]
  | _ => []

namespace ClassDec

def invocations (o : Options) (s : SubroutineDec) : List Invocation :=
  (if o.objectSetup then s.kind.invocations else []) ++ s.body.invocations

end ClassDec

/-! ## The calls of the source among them -/

theorem filterMap_site?_append (is js : List Invocation) :
    (is ++ js).filterMap Invocation.site? =
      is.filterMap Invocation.site? ++ js.filterMap Invocation.site? :=
  List.filterMap_append

theorem site?_textInvocations (text : List Char) :
    (textInvocations text).filterMap Invocation.site? = [] := by
  simp [textInvocations, Invocation.site?]

theorem BinaryOp.site?_invocations (op : BinaryOp) :
    op.invocations.filterMap Invocation.site? = [] := by
  cases op <;> rfl

mutual

theorem Term.perm_calls : ∀ e : Term, (e.invocations.filterMap Invocation.site?).Perm e.calls
  | .integer _ => .nil
  | .text literal => by
    rw [Term.invocations, site?_textInvocations]
    exact .nil
  | .word _ => .nil
  | .unary _ operand => operand.perm_calls
  | .group inner => inner.perm_calls
  | .var _ => .nil
  | .element _ index => index.perm_calls
  | .call target arguments => by
    rw [Term.invocations, filterMap_site?_append]
    exact (arguments.perm_calls.append_right _).trans List.perm_append_comm

theorem Expression.perm_calls :
    ∀ e : Expression, (e.invocations.filterMap Invocation.site?).Perm e.calls
  | .mk first rest => by
    rw [Expression.invocations, filterMap_site?_append]
    exact first.perm_calls.append rest.perm_calls

theorem Operations.perm_calls :
    ∀ e : Operations, (e.invocations.filterMap Invocation.site?).Perm e.calls
  | .nil => .nil
  | .cons op operand rest => by
    rw [Operations.invocations, filterMap_site?_append, filterMap_site?_append,
      op.site?_invocations, List.append_nil]
    exact operand.perm_calls.append rest.perm_calls

theorem Arguments.perm_calls :
    ∀ e : Arguments, (e.invocations.filterMap Invocation.site?).Perm e.calls
  | .nil => .nil
  | .cons first rest => by
    rw [Arguments.invocations, filterMap_site?_append]
    exact first.perm_calls.append rest.perm_calls

end

theorem Target.perm_calls (target : Target) :
    (target.invocations.filterMap Invocation.site?).Perm target.calls := by
  cases target with
  | var name => exact .nil
  | element array index => exact index.perm_calls

theorem perm_resultCalls (value : Option Expression) :
    ((resultInvocations value).filterMap Invocation.site?).Perm (resultCalls value) := by
  cases value with
  | some value => exact value.perm_calls
  | none => exact .nil

theorem Block.perm_calls (b : Block) :
    (b.invocations.filterMap Invocation.site?).Perm b.calls := by
  induction b with
  | empty => exact .nil
  | let_ target value next ih =>
    simp only [invocations, filterMap_site?_append]
    exact (target.perm_calls.append value.perm_calls).append ih
  | if_ condition yes next ihyes ih =>
    simp only [invocations, filterMap_site?_append]
    exact (condition.perm_calls.append ihyes).append ih
  | ifElse condition yes no next ihyes ihno ih =>
    simp only [invocations, filterMap_site?_append]
    exact ((condition.perm_calls.append ihyes).append ihno).append ih
  | while_ condition body next ihbody ih =>
    simp only [invocations, filterMap_site?_append]
    exact (condition.perm_calls.append ihbody).append ih
  | do_ target arguments next ih =>
    simp only [invocations, filterMap_site?_append]
    have hcall := (arguments.perm_calls.append_right [⟨target, arguments.length⟩]).trans
      List.perm_append_comm
    exact hcall.append ih
  | return_ value next ih =>
    simp only [invocations, filterMap_site?_append]
    exact (perm_resultCalls value).append ih

theorem ClassDec.perm_calls (o : Options) (s : SubroutineDec) :
    ((invocations o s).filterMap Invocation.site?).Perm s.body.calls := by
  have hsetup : (if o.objectSetup then s.kind.invocations else []).filterMap Invocation.site? =
      [] := by
    split
    · cases s.kind <;> rfl
    · rfl
  rw [invocations, filterMap_site?_append, hsetup]
  exact s.body.perm_calls

/-! ## The call instructions of code -/

def Instruction.call? : Instruction → Option (String × Nat)
  | .call name arguments => some (name, arguments.toNat)
  | _ => none

def CodeBlock.calls (b : CodeBlock) : List (String × Nat) :=
  b.body.filterMap Instruction.call?

/-- The call instructions of the code are the invocations that a word can count. -/
def Invokes (names : Names) (code : List Instruction) (is : List Invocation) : Prop :=
  code.filterMap Instruction.call? = is.filterMap (Invocation.passed? names)

section

variable {names : Names}

namespace Invokes

theorem append {p q : List Instruction} {is js : List Invocation} (hp : Invokes names p is)
    (hq : Invokes names q js) : Invokes names (p ++ q) (is ++ js) := by
  unfold Invokes at hp hq ⊢
  rw [List.filterMap_append, List.filterMap_append, hp, hq]

theorem append_nil {p q : List Instruction} {is : List Invocation} (hp : Invokes names p is)
    (hq : Invokes names q []) : Invokes names (p ++ q) is := by
  have h := hp.append hq
  rwa [List.append_nil] at h

theorem nil_append {p q : List Instruction} {is : List Invocation} (hp : Invokes names p [])
    (hq : Invokes names q is) : Invokes names (p ++ q) is :=
  hp.append hq

end Invokes

theorem invokes_access {name : Token} {code : Variable → List Instruction}
    (h : ∀ v, Invokes names (code v) []) : Invokes names (names.access name code) [] := by
  unfold Names.access
  split
  · exact h _
  · exact rfl

theorem invokes_receiver (target : CallName) : Invokes names (names.receiver target) [] := by
  cases target with
  | own name => exact rfl
  | member qualifier name => exact invokes_access fun _ => rfl

theorem invokes_call (target : CallName) (count : Nat) :
    Invokes names (names.call target count) [.written ⟨target, count⟩] := by
  by_cases h : CallSite.Countable names ⟨target, count⟩
  · have hpassed : Invocation.passed? names (.written ⟨target, count⟩) =
        some (names.calleeName target, count + names.receivers target) := if_pos h
    have hcall : (Instruction.call (names.calleeName target)
        (UInt16.ofNat (count + names.receivers target))).call? =
          some (names.calleeName target, count + names.receivers target) := by
      rw [Instruction.call?, h.toNat_eq]
    rw [Invokes, h.call_eq, List.filterMap_cons_some hcall, List.filterMap_cons_some hpassed]
    rfl
  · have hpassed : Invocation.passed? names (.written ⟨target, count⟩) = none := if_neg h
    rw [Invokes, CallSite.call_of_not_countable h, List.filterMap_cons_none hpassed]
    rfl

theorem invokes_textCode (text : List Char) :
    Invokes names (textCode text) (textInvocations text) := by
  have hchars : Invokes names (text.flatMap appendCode)
      (text.map fun _ => .library "String.appendChar" 2) := by
    induction text with
    | nil => exact rfl
    | cons c cs ih =>
      have hchar : Invokes names (appendCode c) [.library "String.appendChar" 2] := rfl
      exact hchar.append ih
  have hnew : Invokes names [pushConstant (UInt16.ofNat text.length), .call "String.new" 1]
      [.library "String.new" 1] := rfl
  exact hnew.append hchars

theorem invokes_wordCode (word : Word) : Invokes names (wordCode word) [] := by
  cases word <;> exact rfl

theorem invokes_unaryCode (op : UnaryOp) : Invokes names (unaryCode op) [] := by
  cases op <;> exact rfl

theorem invokes_binaryCode (op : BinaryOp) : Invokes names (binaryCode op) op.invocations := by
  cases op <;> exact rfl

theorem invokes_branch (yes no : String) :
    Invokes names [.ifGoto yes, .goto no, .label yes] [] :=
  rfl

theorem invokes_test (name : String) : Invokes names [.operate .not, .ifGoto name] [] :=
  rfl

theorem invokes_leap (name next : String) : Invokes names [.goto name, .label next] [] :=
  rfl

theorem invokes_label (name : String) : Invokes names [.label name] [] :=
  rfl

end

section

variable (names : Names)

mutual

theorem Term.invokes : ∀ e : Term, Invokes names (e.code names) e.invocations
  | .integer _ => rfl
  | .text literal => invokes_textCode literal.token.lexeme.toList
  | .word word => invokes_wordCode word
  | .unary op operand => (operand.invokes).append_nil (invokes_unaryCode op)
  | .group inner => inner.invokes
  | .var _ => invokes_access fun _ => rfl
  | .element _ index => (index.invokes).append_nil (invokes_access fun _ => rfl)
  | .call target arguments => by
    have hvalues := (invokes_receiver target).nil_append arguments.invokes
    exact hvalues.append (invokes_call target _)

theorem Expression.invokes : ∀ e : Expression, Invokes names (e.code names) e.invocations
  | .mk first rest => (first.invokes).append rest.invokes

theorem Operations.invokes : ∀ e : Operations, Invokes names (e.code names) e.invocations
  | .nil => rfl
  | .cons op operand rest =>
    ((operand.invokes).append (invokes_binaryCode op)).append rest.invokes

theorem Arguments.invokes : ∀ e : Arguments, Invokes names (e.code names) e.invocations
  | .nil => rfl
  | .cons first rest => (first.invokes).append rest.invokes

end

theorem Target.invokes (target : Target) :
    Invokes names (target.code names) target.invocations := by
  cases target with
  | var name => exact rfl
  | element array index => exact (index.invokes names).append_nil (invokes_access fun _ => rfl)

theorem Target.invokes_store (target : Target) : Invokes names (target.storeCode names) [] := by
  cases target with
  | var name => exact invokes_access fun _ => rfl
  | element array index => exact rfl

theorem invokes_resultCode (value : Option Expression) :
    Invokes names (resultCode names value) (resultInvocations value) := by
  cases value with
  | some value => exact value.invokes names
  | none => exact rfl

theorem Block.invokes (scope : String) (b : Block) (i w : Nat) :
    Invokes names (b.code names scope i w) b.invocations := by
  -- Labels and jumps call nothing, nor does a store.
  induction b generalizing i w with
  | empty => exact rfl
  | let_ target value next ih =>
    have hvalue := (target.invokes names).append (value.invokes names)
    exact (hvalue.append_nil (target.invokes_store names)).append (ih i w)
  | if_ condition yes next ihyes ih =>
    have hcondition := (condition.invokes names).append_nil
      (invokes_branch (labelText scope .ifTrue i) (labelText scope .ifFalse i))
    have hyes := (hcondition.append (ihyes (i + 1) w)).append_nil
      (invokes_label (labelText scope .ifFalse i))
    exact hyes.append (ih _ _)
  | ifElse condition yes no next ihyes ihno ih =>
    have hcondition := (condition.invokes names).append_nil
      (invokes_branch (labelText scope .ifTrue i) (labelText scope .ifFalse i))
    have hyes := (hcondition.append (ihyes (i + 1) w)).append_nil
      (invokes_leap (labelText scope .ifEnd i) (labelText scope .ifFalse i))
    have hno := (hyes.append (ihno (i + 1 + yes.ifs) (w + yes.whiles))).append_nil
      (invokes_label (labelText scope .ifEnd i))
    exact hno.append (ih _ _)
  | while_ condition body next ihbody ih =>
    have hcondition := ((invokes_label (labelText scope .whileExp w)).nil_append
      (condition.invokes names)).append_nil (invokes_test (labelText scope .whileEnd w))
    have hbody := (hcondition.append (ihbody i (w + 1))).append_nil
      (invokes_leap (labelText scope .whileExp w) (labelText scope .whileEnd w))
    exact hbody.append (ih _ _)
  | do_ target arguments next ih =>
    have hvalues := (invokes_receiver target).nil_append (arguments.invokes names)
    have hdiscard : Invokes names [.pop .temp 0] [] := rfl
    exact ((hvalues.append (invokes_call target _)).append_nil hdiscard).append (ih i w)
  | return_ value next ih =>
    have hreturn : Invokes names [.return] [] := rfl
    exact ((invokes_resultCode names value).append_nil hreturn).append (ih i w)

end

/-! ## Counts -/

namespace ClassDec

variable (tree : ClassDec) (o : Options) (s : SubroutineDec)

theorem invokes_setup : Invokes (tree.names s) (tree.setup o s)
    (if o.objectSetup then s.kind.invocations else []) := by
  unfold setup
  split
  · cases s.kind <;> exact rfl
  · exact rfl

/-- The block has one call instruction for each call of the subroutine, which passes as many
arguments as the call has. -/
structure CallsOnce (b : CodeBlock) : Prop where
  calls : b.calls = (invocations o s).map (Invocation.count (tree.names s))
  written : ((invocations o s).filterMap Invocation.site?).Perm s.body.calls

variable {tree s}

theorem calls_block : (tree.block o s).calls =
    (invocations o s).filterMap (Invocation.passed? (tree.names s)) :=
  (tree.invokes_setup o s).append (s.body.invokes (tree.names s) _ 0 0)

theorem callsOnce_block (hcount : AllCountable (tree.names s) s.body.calls) :
    tree.CallsOnce o s (tree.block o s) := by
  refine ⟨?_, perm_calls o s⟩
  rw [calls_block, ← List.filterMap_eq_map]
  refine List.filterMap_congr fun i hi => ?_
  cases i with
  | written site =>
    have hsite : site ∈ (invocations o s).filterMap Invocation.site? :=
      List.mem_filterMap.mpr ⟨_, hi, rfl⟩
    exact if_pos (hcount site ((perm_calls o s).mem_iff.mp hsite))
  | library => rfl

end ClassDec

/-! ## A call of many arguments -/

/-- Text in which `n` more arguments of a call come before `close`. -/
def argumentLines (close : String) : Nat → String
  | 0 => close
  | n + 1 => ",0" ++ "\n" ++ argumentLines close n

def argumentsHead : String :=
  "class A \x7b function void f() \x7b do g(0"

def argumentsSource (n : Nat) : String :=
  argumentsHead ++ "\n" ++ argumentLines "); return; \x7d \x7d" n

def argumentTokens : Nat → Nat → List Token
  | 0, _ => []
  | n + 1, d =>
    ⟨.mark .comma, ⟨0 + d, 1⟩, ","⟩ :: ⟨.number, ⟨1 + d, 1⟩, "0"⟩ :: argumentTokens n (3 + d)

def zeroAt (index : Nat) : Expression :=
  .mk (.integer ⟨⟨.number, ⟨index, 1⟩, "0"⟩, List.mem_singleton_self _⟩) .nil

def zeros : Nat → Nat → Arguments
  | 0, _ => .nil
  | n + 1, d => .cons (zeroAt (1 + d)) (zeros n (3 + d))

def argumentsCaller (n : Nat) : SubroutineDec :=
  let callee : CallName := .own ⟨⟨.ident, ⟨33, 1⟩, "g"⟩, List.mem_singleton_self _⟩
  { kind := .function
    result := ⟨⟨.keyword .void, ⟨19, 4⟩, "void"⟩, by decide⟩
    name := ⟨⟨.ident, ⟨24, 1⟩, "f"⟩, List.mem_singleton_self _⟩
    parameters := []
    locals := []
    body := .do_ callee (.cons (zeroAt 35) (zeros n 37)) (.return_ none .empty) }

def argumentsClass (n : Nat) : ClassDec :=
  ⟨⟨⟨.ident, ⟨6, 1⟩, "A"⟩, List.mem_singleton_self _⟩, [], [argumentsCaller n]⟩

def argumentsEnd (callee : Callee) (count : Nat) : Script :=
  callEndScript callee count ++ [.mark .semicolon, .act .discard, .leave .doStatement] ++
  (Block.return_ none .empty).script ++
  [.leave .statements, .mark .rightBrace, .leave .subroutineBody, .act (.endBody .function),
    .leave .subroutineDec, .mark .rightBrace, .leave .classDec]

theorem length_zeros (n d : Nat) : (zeros n d).length = n := by
  induction n generalizing d with
  | zero => rfl
  | succ n ih => simp only [zeros, Arguments.length, ih]

theorem calls_zeros (n d : Nat) : (zeros n d).calls = [] := by
  induction n generalizing d with
  | zero => rfl
  | succ n ih => exact ih (3 + d)

theorem allowed_zeros {o : Options} {names : Names} (n d : Nat) :
    ∀ use ∈ (zeros n d).uses, use.Allowed o names := by
  have hzero : ∀ index, ∀ use ∈ (zeroAt index).uses, use.Allowed o names := by
    intro index use huse
    obtain rfl := List.mem_singleton.mp huse
    have hvalue : decimalValue "0".toList ≤ 32767 := by decide
    exact hvalue
  induction n generalizing d with
  | zero => exact List.forall_mem_nil _
  | succ n ih =>
    simp only [zeros, Arguments.uses, List.forall_mem_append]
    exact ⟨hzero (1 + d), ih (3 + d)⟩

theorem exists_tokenize_argumentLines (close : String) (n d : Nat) :
    ∃ e, (tokenize (argumentLines close n)).map (Token.move d) =
      argumentTokens n d ++ (tokenize close).map (Token.move e) := by
  induction n generalizing d with
  | zero => exact ⟨d, rfl⟩
  | succ n ih =>
    have hclosed : Closed ",0".toList := by decide +kernel
    have hsize : byteSize ",0".toList + 1 = 3 := by decide +kernel
    have htokens : (tokenize ",0").dropLast =
        [⟨.mark .comma, ⟨0, 1⟩, ","⟩, ⟨.number, ⟨1, 1⟩, "0"⟩] := by
      decide +kernel
    obtain ⟨e, he⟩ := ih (3 + d)
    refine ⟨e, ?_⟩
    rw [argumentLines, tokenize_append_line hclosed, htokens, hsize, List.map_append,
      Token.map_move_move, he]
    rfl

theorem spelled_zeros (before n d : Nat) :
    Script.Spelled ((zeros n d).moreScript before) (argumentTokens n d) := by
  induction n generalizing before d with
  | zero => exact Script.spelled_nil.mpr rfl
  | succ n ih => exact ⟨_, _, rfl, rfl, _, rfl, ih (before + 1) (3 + d)⟩

theorem tokenize_argumentsHead : (tokenize argumentsHead).dropLast =
    [⟨.keyword .class_, ⟨0, 5⟩, "class"⟩, ⟨.ident, ⟨6, 1⟩, "A"⟩,
      ⟨.mark .leftBrace, ⟨8, 1⟩, "\x7b"⟩, ⟨.keyword .function, ⟨10, 8⟩, "function"⟩,
      ⟨.keyword .void, ⟨19, 4⟩, "void"⟩, ⟨.ident, ⟨24, 1⟩, "f"⟩,
      ⟨.mark .leftParen, ⟨25, 1⟩, "("⟩, ⟨.mark .rightParen, ⟨26, 1⟩, ")"⟩,
      ⟨.mark .leftBrace, ⟨28, 1⟩, "\x7b"⟩, ⟨.keyword .do_, ⟨30, 2⟩, "do"⟩,
      ⟨.ident, ⟨33, 1⟩, "g"⟩, ⟨.mark .leftParen, ⟨34, 1⟩, "("⟩, ⟨.number, ⟨35, 1⟩, "0"⟩] := by
  decide +kernel

theorem exists_tokenize_argumentsHead (close : String) (n : Nat) :
    ∃ e, tokenize (argumentsHead ++ "\n" ++ argumentLines close n) =
      (tokenize argumentsHead).dropLast ++
        (argumentTokens n 37 ++ (tokenize close).map (Token.move e)) := by
  have hclosed : Closed argumentsHead.toList := by decide +kernel
  have hsize : byteSize argumentsHead.toList + 1 = 37 := by decide +kernel
  obtain ⟨e, he⟩ := exists_tokenize_argumentLines close n 37
  exact ⟨e, by rw [tokenize_append_line hclosed, hsize, he]⟩

theorem heads_argumentsSource (n : Nat) : (argumentsClass n).Heads (argumentsSource n) := by
  have hclose : tokenize "); return; \x7d \x7d" =
      [⟨.mark .rightParen, ⟨0, 1⟩, ")"⟩, ⟨.mark .semicolon, ⟨1, 1⟩, ";"⟩,
        ⟨.keyword .return_, ⟨3, 6⟩, "return"⟩, ⟨.mark .semicolon, ⟨9, 1⟩, ";"⟩,
        ⟨.mark .rightBrace, ⟨11, 1⟩, "\x7d"⟩, ⟨.mark .rightBrace, ⟨13, 1⟩, "\x7d"⟩,
        ⟨.finish, ⟨14, 0⟩, ""⟩] := by
    decide +kernel
  obtain ⟨e, htokens⟩ := exists_tokenize_argumentsHead "); return; \x7d \x7d" n
  -- Six tokens close the class; the last token of the source is not part of it.
  let close := (tokenize "); return; \x7d \x7d").map (Token.move e)
  have hend : Script.Spelled (argumentsEnd (.own ⟨.ident, ⟨33, 1⟩, "g"⟩) (n + 1))
      (close.take 6) := by
    simp [close, hclose, argumentsEnd, callEndScript, Block.script, resultScript, Token.move]
  have hspelled := (spelled_zeros 1 n 37).append hend
  refine ⟨(tokenize argumentsHead).dropLast ++ (argumentTokens n 37 ++ close.take 6),
    close.drop 6, ?_, ?_⟩
  · rw [argumentsSource, htokens, List.append_assoc, List.append_assoc, List.take_append_drop]
  · have hscript : (argumentsClass n).script = [Part.enter .classDec, .keyword .class_,
        .token ⟨.ident, ⟨6, 1⟩, "A"⟩, .act (.nameClass ⟨.ident, ⟨6, 1⟩, "A"⟩),
        .mark .leftBrace, .enter .subroutineDec, .act .startSubroutine, .keyword .function,
        .token ⟨.keyword .void, ⟨19, 4⟩, "void"⟩, .token ⟨.ident, ⟨24, 1⟩, "f"⟩,
        .act (.nameSubroutine ⟨.ident, ⟨24, 1⟩, "f"⟩), .mark .leftParen,
        .enter .parameterList, .leave .parameterList, .mark .rightParen,
        .enter .subroutineBody, .mark .leftBrace, .act (.startBody .function),
        .enter .statements, .enter .doStatement, .keyword .do_,
        .token ⟨.ident, ⟨33, 1⟩, "g"⟩, .act (.pushReceiver (.own ⟨.ident, ⟨33, 1⟩, "g"⟩)),
        .mark .leftParen, .enter .expressionList] ++ (zeroAt 35).script ++
        ([.act (.countArguments 1)] ++ ((zeros n 37).moreScript 1 ++
          argumentsEnd (.own ⟨.ident, ⟨33, 1⟩, "g"⟩) (n + 1))) := by
      simp [ClassDec.script, argumentsClass, argumentsCaller, SubroutineDec.script,
        SubroutineKind.keyword, parametersScript, Block.script, CallName.script,
        CallName.nameScript, CallName.callee, Arguments.script, Arguments.length, length_zeros,
        argumentsEnd, callEndScript]
    rw [ClassDec.Spells, ← Script.spelled_iff_exists_reads, tokenize_argumentsHead, hscript]
    exact ⟨_, _, rfl, rfl, _, rfl, _, _, rfl, rfl, _, _, rfl, rfl, _, rfl, _, rfl, _, _, rfl, rfl,
      _, _, rfl, rfl, _, _, rfl, rfl, _, _, rfl, rfl, _, rfl, _, _, rfl, rfl, _, rfl, hspelled⟩

theorem static_argumentsClass (n : Nat) (o : Options) : (argumentsClass n).Static o := by
  refine ⟨fun _ => Nat.zero_le _, fun s hs kind => ?_, fun _ => .nil, fun _ s hs => ?_,
    fun s hs use huse => (ClassDec.allows_iff _ o s use).mpr ?_⟩
  all_goals obtain rfl := List.mem_singleton.mp hs
  · exact Nat.zero_le _
  · exact .nil
  · apply allowed_zeros (n + 1) 34
    simpa [argumentsCaller, Block.uses, CallName.uses, resultUses, zeros] using huse

theorem countable_argumentsClass_iff (n : Nat) : (argumentsClass n).Countable ↔ n + 2 ≤ 65535 := by
  have hcalls : (argumentsCaller n).body.calls =
      [⟨.own ⟨⟨.ident, ⟨33, 1⟩, "g"⟩, List.mem_singleton_self _⟩, n + 1⟩] := by
    simp [argumentsCaller, Block.calls, resultCalls, Arguments.calls, Arguments.length, zeroAt,
      Expression.calls, Term.calls, Operations.calls, calls_zeros, length_zeros]
  rw [ClassDec.Countable, argumentsClass, List.forall_mem_singleton, hcalls, AllCountable,
    List.forall_mem_singleton]
  exact Iff.rfl

/-! ## Programs -/

section

variable {o : Options} {source : String} {tree : ClassDec}

theorem not_countable_of_overflow (htree : tree.Heads source)
    (h : compile o source = .error .overflow) : ¬ tree.Countable := by
  obtain ⟨f, hf, hfault⟩ := compile_eq_error_iff.mp h
  cases f with
  | overflow => exact htree.denies hf
  | _ => cases hfault

theorem compile_eq_overflow (htree : tree.Heads source) (hstatic : tree.Static o)
    (hcount : ¬ tree.Countable) : compile o source = .error .overflow := by
  cases hf : (history o source).fault with
  | none => exact absurd (htree.program_iff.mp ⟨hf, rfl⟩).1.2 hcount
  | some fault =>
    refine compile_eq_error_iff.mpr ⟨fault, hf, ?_⟩
    have hdenies := htree.denies hf
    cases fault with
    | overflow => rfl
    | _ => exact absurd hstatic hdenies

/-- A class that is compiled has its calls in the program, and one that asks for more than a word
can count is refused by a panic alone. -/
theorem call_counts_exact (htree : tree.Heads source) :
    (∀ out, compile o source = .ok out →
      List.Forall₂ (tree.CallsOnce o) tree.subroutines (splitBlocks out.program).2) ∧
    (compile o source = .error .overflow → ¬ tree.Countable) ∧
    (tree.Static o → ¬ tree.Countable → compile o source = .error .overflow) := by
  refine ⟨fun out h => ?_, not_countable_of_overflow htree, compile_eq_overflow htree⟩
  rw [program_of_compile h htree, tree.splitBlocks_code o, List.forall₂_map_right_iff,
    List.forall₂_same]
  exact fun s hs => ClassDec.callsOnce_block o (countable_of_compile h htree s hs)

end

theorem call_counts_exact_arguments :
    (argumentsClass 65533).Heads (argumentsSource 65533) ∧
      (argumentsClass 65533).Countable ∧ ∃ out, compile {} (argumentsSource 65533) = .ok out ∧
        List.Forall₂ ((argumentsClass 65533).CallsOnce {}) (argumentsClass 65533).subroutines
          (splitBlocks out.program).2 := by
  have htree := heads_argumentsSource 65533
  have hcount := (countable_argumentsClass_iff 65533).mpr (by decide)
  obtain ⟨out, hout⟩ := compiles_iff.mpr ⟨_, htree, static_argumentsClass 65533 {}, hcount⟩
  exact ⟨htree, hcount, out, hout, (call_counts_exact htree).1 out hout⟩

theorem call_counts_overflow : ¬ ∀ o source (tree : ClassDec), tree.Heads source →
    (∃ fault, fault ≠ .overflow ∧ compile o source = .error fault) ∨
      ∃ out, compile o source = .ok out ∧
        List.Forall₂ (tree.CallsOnce o) tree.subroutines (splitBlocks out.program).2 := by
  intro h
  have htree := heads_argumentsSource 65534
  have hpanic : compile {} (argumentsSource 65534) = .error .overflow :=
    compile_eq_overflow htree (static_argumentsClass 65534 {}) fun hcount =>
      absurd ((countable_argumentsClass_iff 65534).mp hcount) (by decide)
  rcases h {} _ _ htree with ⟨fault, hne, hfault⟩ | ⟨out, hout, -⟩
  · rw [hpanic] at hfault
    exact hne (Except.error.inj hfault).symm
  · rw [hpanic] at hout
    cases hout

end JackCompiler
