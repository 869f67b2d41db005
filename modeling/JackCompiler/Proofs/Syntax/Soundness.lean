import JackCompiler.Proofs.Syntax.Descent
import JackCompiler.Proofs.Syntax.Script

/-!
# Descents read trees

Each goal has the scripts that it can turn into, which are those of the trees that it
stands for, and every move keeps to them. So what a descent does without a fault is to
read a tree.
-/

namespace JackCompiler

/-! ## The scripts of a goal -/

/-- The scripts that the goal can turn into. Of a goal whose first tokens have been
read, they complete those to the script of a tree. -/
def Goal.Scripts (g : Goal) (p : Script) : Prop :=
  match g with
  | .only kind => p = [.fixed kind]
  | .className => ∃ name : Name, p = [.token name.token, .act (.nameClass name.token)]
  | .classVars => ∃ ds : List ClassVarDec, p = ds.flatMap ClassVarDec.script
  | .declaredType kind => ∃ d : Declared, p = d.script kind
  | .declaredName kind type => ∃ name : Name, p = nameScript kind type name
  | .moreNames kind type => ∃ names : List Name, p = moreNamesScript kind type names
  | .subroutines => ∃ ss : List SubroutineDec, p = ss.flatMap SubroutineDec.script
  | .resultType => ∃ result : Leaf resultTypes, p = [.token result.token]
  | .subroutineName => ∃ name : Name, p = [.token name.token, .act (.nameSubroutine name.token)]
  | .parameters => ∃ ps : List Parameter, p = parametersScript ps
  | .parameterType => ∃ (q : Parameter) (qs : List Parameter),
      p = q.script ++ moreParametersScript qs
  | .moreParameters => ∃ ps : List Parameter, p = moreParametersScript ps
  | .locals => ∃ ds : List Declared, p = ds.flatMap localsScript
  | .statements => ∃ b : Block, p = b.script
  | .letTarget => ∃ (target : Target) (value : Expression), p = assignmentScript target value
  | .letRest t => ∀ name : Name, name.token = t → ∃ (target : Target) (value : Expression),
      [.token t, .act (.resolve t)] ++ p = assignmentScript target value
  | .elseBranch => p = [.act .endIf] ∨ ∃ no : Block,
      p = [.act .elseIf, .keyword .else_] ++ bracedScript no.script ++ [.act .endElse]
  | .callName => ∃ (target : CallName) (arguments : Arguments),
      p = target.script arguments.script arguments.length
  | .callRest t => ∀ name : Name, name.token = t → ∃ (target : CallName) (arguments : Arguments),
      [.token t] ++ p = target.script arguments.script arguments.length
  | .memberName t => ∀ name : Name, name.token = t → ∃ (target : CallName) (arguments : Arguments),
      [.token t, .mark .dot] ++ p = target.script arguments.script arguments.length
  | .arguments callee => ∃ arguments : Arguments,
      p = arguments.script ++ callEndScript callee arguments.length
  | .moreArguments callee count => ∃ arguments : Arguments,
      p = arguments.moreScript count ++ callEndScript callee (count + arguments.length)
  | .result => ∃ value : Option Expression, p = resultScript value
  | .expression => ∃ e : Expression, p = e.script
  | .operators => ∃ rest : Operations, p = rest.script
  | .term => ∃ term : Term, p = term.script
  | .termRest t => ∀ name : Name, name.token = t → ∃ term : Term,
      [.enter .term, .token t] ++ p ++ [.leave .term] = term.script

def Produces : List Item → Script → Prop
  | [], p => p = []
  | .note n :: stack, p => ∃ q, Produces stack q ∧ p = .note n :: q
  | .goal g :: stack, p => ∃ q r, g.Scripts q ∧ Produces stack r ∧ p = q ++ r

theorem produces_append {a b : List Item} {p : Script} (h : Produces (a ++ b) p) :
    ∃ q r, Produces a q ∧ Produces b r ∧ p = q ++ r := by
  induction a generalizing p with
  | nil => exact ⟨[], p, rfl, h, rfl⟩
  | cons item a ih =>
    cases item with
    | note n =>
      obtain ⟨p, hp, rfl⟩ := h
      obtain ⟨q, r, hq, hr, rfl⟩ := ih hp
      exact ⟨.note n :: q, r, ⟨q, hq, rfl⟩, hr, rfl⟩
    | goal g =>
      obtain ⟨p₁, p₂, h₁, h₂, rfl⟩ := h
      obtain ⟨q, r, hq, hr, rfl⟩ := ih h₂
      exact ⟨p₁ ++ q, r, ⟨p₁, q, h₁, hq, rfl⟩, hr, by rw [List.append_assoc]⟩

/-! ## Moves keep to the scripts -/

def Continues (g : Goal) (t : Token) (before : List Note) (after : List Item) : Prop :=
  ∀ p, Produces after p → ∃ x : Part, x.Fits t ∧ g.Scripts (before.map .note ++ x :: p)

theorem oneOf_eq_take {kinds : List Terminal} {t : Token} {after items : List Item}
    {before : List Note} (h : oneOf kinds t after = .take before items) :
    (∃ leaf : Leaf kinds, leaf.token = t) ∧ before = [] ∧ items = after := by
  unfold oneOf at h
  split at h
  · rename_i ht
    cases h
    exact ⟨⟨⟨t, ht⟩, rfl⟩, rfl, rfl⟩
  · cases h

theorem produces_word {t : Token} {p : Script} (word : Word)
    (ht : t.kind = .keyword word.keyword) (hp : Produces [.act (.pushWord word), .leave .term] p) :
    ∃ x : Part, x.Fits t ∧ ∃ term : Term, term.script = .enter .term :: x :: p := by
  obtain ⟨_, ⟨_, rfl, rfl⟩, rfl⟩ := hp
  exact ⟨.fixed t.kind, .inr rfl, .word word, by rw [ht]; rfl⟩

theorem produces_unary {t : Token} {p : Script} (op : UnaryOp) (ht : t.kind = .mark op.mark)
    (hp : Produces [.goal .term, .act (.unary op), .leave .term] p) :
    ∃ x : Part, x.Fits t ∧ ∃ term : Term, term.script = .enter .term :: x :: p := by
  obtain ⟨_, _, ⟨operand, rfl⟩, ⟨_, ⟨_, rfl, rfl⟩, rfl⟩, rfl⟩ := hp
  exact ⟨.fixed t.kind, .inr rfl, .unary op operand, by rw [ht]; rfl⟩

theorem termMove_eq_take {outer before : List Note} {t : Token} {after items : List Item}
    (h : termMove outer t after = .take before items) :
    ∃ inner, before = outer ++ [.enter .term] ∧ items = inner ++ after ∧
      ∀ p, Produces inner p → ∃ x : Part, x.Fits t ∧
        ∃ term : Term, term.script = .enter .term :: x :: p := by
  unfold termMove at h
  -- One case for each kind of token that a term begins with, and the refusal.
  split at h <;> rename_i ht
  · cases h
    refine ⟨[.act (.pushInteger t), .leave .term], rfl, rfl, ?_⟩
    intro p hp
    obtain ⟨_, ⟨_, rfl, rfl⟩, rfl⟩ := hp
    exact ⟨.token t, .inl rfl, .integer ⟨t, by simp [ht]⟩, rfl⟩
  · cases h
    refine ⟨[.act (.pushText t), .leave .term], rfl, rfl, ?_⟩
    intro p hp
    obtain ⟨_, ⟨_, rfl, rfl⟩, rfl⟩ := hp
    exact ⟨.token t, .inl rfl, .text ⟨t, by simp [ht]⟩, rfl⟩
  · cases h
    exact ⟨[.act (.pushWord .true), .leave .term], rfl, rfl, fun _ => produces_word .true ht⟩
  · cases h
    exact ⟨[.act (.pushWord .false), .leave .term], rfl, rfl, fun _ => produces_word .false ht⟩
  · cases h
    exact ⟨[.act (.pushWord .null), .leave .term], rfl, rfl, fun _ => produces_word .null ht⟩
  · cases h
    exact ⟨[.act (.pushWord .this), .leave .term], rfl, rfl, fun _ => produces_word .this ht⟩
  · cases h
    refine ⟨[.goal .term, .act (.unary .neg), .leave .term], rfl, rfl, ?_⟩
    exact fun _ => produces_unary .neg ht
  · cases h
    refine ⟨[.goal .term, .act (.unary .not), .leave .term], rfl, rfl, ?_⟩
    exact fun _ => produces_unary .not ht
  · cases h
    refine ⟨[.goal .expression, .mark .rightParen, .leave .term], rfl, rfl, ?_⟩
    intro p hp
    obtain ⟨_, _, ⟨inner, rfl⟩, ⟨_, _, rfl, ⟨_, rfl, rfl⟩, rfl⟩, rfl⟩ := hp
    exact ⟨.fixed t.kind, .inr rfl, .group inner, by rw [ht]; rfl⟩
  · cases h
    refine ⟨[.goal (.termRest t), .leave .term], rfl, rfl, ?_⟩
    intro p hp
    obtain ⟨q, _, hq, ⟨_, rfl, rfl⟩, rfl⟩ := hp
    obtain ⟨term, hterm⟩ := hq ⟨t, by simp [ht]⟩ rfl
    exact ⟨.token t, .inl rfl, term, hterm.symm⟩
  · cases h

theorem continues_term {t : Token} {before : List Note} {after : List Item}
    (h : Goal.term.move t = .take before after) : Continues .term t before after := by
  obtain ⟨inner, rfl, rfl, hinner⟩ := termMove_eq_take h
  intro p hp
  rw [List.append_nil] at hp
  obtain ⟨x, hx, term, hterm⟩ := hinner p hp
  exact ⟨x, hx, term, hterm.symm⟩

theorem expressionMove_eq_take {before : List Note} {t : Token} {after items : List Item}
    (h : expressionMove [] t after = .take before items) :
    ∃ inner, items = inner ++ after ∧ ∀ p, Produces inner p → ∃ x : Part, x.Fits t ∧
      ∃ e : Expression, before.map .note ++ x :: p = e.script := by
  obtain ⟨inner, rfl, rfl, hinner⟩ := termMove_eq_take h
  refine ⟨inner ++ [.goal .operators, .leave .expression], by simp, ?_⟩
  intro p hp
  obtain ⟨q, _, hq, ⟨_, _, ⟨rest, rfl⟩, ⟨_, rfl, rfl⟩, rfl⟩, rfl⟩ := produces_append hp
  obtain ⟨x, hx, first, hfirst⟩ := hinner q hq
  exact ⟨x, hx, .mk first rest, by simp [Expression.script, hfirst, Part.enter, Part.leave]⟩

theorem continues_expression {t : Token} {before : List Note} {after : List Item}
    (h : Goal.expression.move t = .take before after) : Continues .expression t before after := by
  obtain ⟨inner, rfl, hinner⟩ := expressionMove_eq_take h
  intro p hp
  rw [List.append_nil] at hp
  exact hinner p hp

/-! ### Statements -/

theorem produces_braced {stack : List Item} {p : Script}
    (h : Produces (.mark .leftBrace :: .enter .statements :: .goal .statements ::
      .leave .statements :: .mark .rightBrace :: stack) p) :
    ∃ (block : Block) (q : Script), Produces stack q ∧ p = bracedScript block.script ++ q := by
  obtain ⟨_, _, rfl, ⟨_, ⟨_, _, ⟨block, rfl⟩, ⟨_, ⟨_, q, rfl, hq, rfl⟩, rfl⟩, rfl⟩, rfl⟩, rfl⟩ := h
  exact ⟨block, q, hq, by simp [bracedScript, Part.enter, Part.leave, Part.mark]⟩

theorem produces_guarded {tested : Action} {stack : List Item} {p : Script}
    (h : Produces (guardedItems tested ++ stack) p) :
    ∃ (condition : Expression) (block : Block) (q : Script), Produces stack q ∧
      p = guardedScript condition tested block.script ++ q := by
  obtain ⟨_, _, rfl, ⟨_, _, ⟨condition, rfl⟩, ⟨_, _, rfl, ⟨_, h, rfl⟩, rfl⟩, rfl⟩, rfl⟩ := h
  obtain ⟨block, q, hq, rfl⟩ := produces_braced h
  exact ⟨condition, block, q, hq, by simp [guardedScript, Part.act, Part.mark]⟩

theorem continues_statements {t : Token} {before : List Note} {after : List Item}
    (h : Goal.statements.move t = .take before after) :
    Continues .statements t before after := by
  change statementsMove t = _ at h
  unfold statementsMove at h
  split at h <;> rename_i ht
  · cases h
    intro p hp
    obtain ⟨_, _, ⟨target, value, rfl⟩, ⟨_, _, rfl, ⟨_, ⟨_, _,
      ⟨next, rfl⟩, rfl, rfl⟩, rfl⟩, rfl⟩, rfl⟩ := hp
    refine ⟨.fixed t.kind, .inr rfl, .let_ target value next, ?_⟩
    simp [Block.script, Part.enter, Part.leave, Part.mark, Part.keyword, ht]
  · cases h
    intro p hp
    obtain ⟨condition, yes, q, hq, rfl⟩ := produces_guarded hp
    obtain ⟨_, _, helse, ⟨_, ⟨_, _, ⟨next, rfl⟩, rfl, rfl⟩, rfl⟩, rfl⟩ := hq
    -- Whether there is an `else` decides on the statement, not on the move.
    rcases helse with rfl | ⟨no, rfl⟩
    · refine ⟨.fixed t.kind, .inr rfl, .if_ condition yes next, ?_⟩
      simp [Block.script, Part.enter, Part.leave, Part.act, Part.keyword, ht]
    · refine ⟨.fixed t.kind, .inr rfl, .ifElse condition yes no next, ?_⟩
      simp [Block.script, Part.enter, Part.leave, Part.act, Part.keyword, ht]
  · cases h
    intro p hp
    obtain ⟨condition, body, q, hq, rfl⟩ := produces_guarded hp
    obtain ⟨_, ⟨_, ⟨_, _, ⟨next, rfl⟩, rfl, rfl⟩, rfl⟩, rfl⟩ := hq
    refine ⟨.fixed t.kind, .inr rfl, .while_ condition body next, ?_⟩
    simp [Block.script, Part.enter, Part.leave, Part.act, Part.keyword, ht]
  · cases h
    intro p hp
    obtain ⟨_, _, ⟨target, arguments, rfl⟩, ⟨_, _, rfl, ⟨_, ⟨_, ⟨_, _,
      ⟨next, rfl⟩, rfl, rfl⟩, rfl⟩, rfl⟩, rfl⟩, rfl⟩ := hp
    refine ⟨.fixed t.kind, .inr rfl, .do_ target arguments next, ?_⟩
    simp [Block.script, Part.enter, Part.leave, Part.act, Part.mark, Part.keyword, ht]
  · cases h
    intro p hp
    obtain ⟨_, _, ⟨value, rfl⟩, ⟨_, _, rfl, ⟨_, ⟨_, ⟨_, _,
      ⟨next, rfl⟩, rfl, rfl⟩, rfl⟩, rfl⟩, rfl⟩, rfl⟩ := hp
    refine ⟨.fixed t.kind, .inr rfl, .return_ value next, ?_⟩
    simp [Block.script, Part.enter, Part.leave, Part.act, Part.mark, Part.keyword, ht]
  · cases h

theorem continues_letTarget {t : Token} {before : List Note} {after : List Item}
    (h : Goal.letTarget.move t = .take before after) : Continues .letTarget t before after := by
  obtain ⟨⟨name, rfl⟩, rfl, rfl⟩ := oneOf_eq_take h
  intro p hp
  obtain ⟨_, ⟨_, _, hrest, rfl, rfl⟩, rfl⟩ := hp
  obtain ⟨target, value, he⟩ := hrest name rfl
  exact ⟨.token name.token, .inl rfl, target, value, by simpa [Part.act] using he⟩

theorem continues_letRest {t target : Token} {before : List Note} {after : List Item}
    (h : (Goal.letRest target).move t = .take before after) :
    Continues (.letRest target) t before after := by
  unfold Goal.move at h
  simp only at h
  split at h
  · rename_i ht
    cases h
    intro p hp
    obtain ⟨_, _, ⟨index, rfl⟩, ⟨_, ⟨_, _, rfl, ⟨_, _, rfl, ⟨_, _, ⟨value, rfl⟩,
      ⟨_, rfl, rfl⟩, rfl⟩, rfl⟩, rfl⟩, rfl⟩, rfl⟩ := hp
    refine ⟨.fixed t.kind, .inr rfl, ?_⟩
    intro name hname
    subst hname
    refine ⟨.element name index, value, ?_⟩
    simp [assignmentScript, Target.script, Target.stored, Part.act, Part.mark, ht]
  · obtain ⟨⟨leaf, rfl⟩, rfl, rfl⟩ := oneOf_eq_take h
    intro p hp
    obtain ⟨_, _, ⟨value, rfl⟩, ⟨_, rfl, rfl⟩, rfl⟩ := hp
    refine ⟨.fixed leaf.token.kind, .inr rfl, ?_⟩
    intro name hname
    subst hname
    refine ⟨.var name, value, ?_⟩
    have ht : leaf.token.kind = .mark .eq := by simpa using leaf.kind_mem
    simp [assignmentScript, Target.script, Target.stored, Part.act, Part.mark, ht]

theorem continues_elseBranch {t : Token} {before : List Note} {after : List Item}
    (h : Goal.elseBranch.move t = .take before after) :
    Continues .elseBranch t before after := by
  unfold Goal.move at h
  simp only at h
  split at h
  · rename_i ht
    cases h
    intro p hp
    obtain ⟨no, _, ⟨_, rfl, rfl⟩, rfl⟩ := produces_braced hp
    refine ⟨.fixed t.kind, .inr rfl, .inr ⟨no, ?_⟩⟩
    simp [Part.act, Part.keyword, ht]
  · cases h

theorem continues_result {t : Token} {before : List Note} {after : List Item}
    (h : Goal.result.move t = .take before after) : Continues .result t before after := by
  unfold Goal.move at h
  simp only at h
  split at h
  · cases h
  · obtain ⟨inner, rfl, hinner⟩ := expressionMove_eq_take h
    intro p hp
    rw [List.append_nil] at hp
    obtain ⟨x, hx, e, he⟩ := hinner p hp
    exact ⟨x, hx, some e, he⟩

/-! ### Calls -/

theorem produces_arguments {callee : Callee} {p : Script} (h : Produces (argumentItems callee) p) :
    ∃ arguments : Arguments,
      p = .enter .expressionList :: arguments.script ++ callEndScript callee arguments.length := by
  obtain ⟨_, ⟨_, _, ⟨arguments, rfl⟩, rfl, rfl⟩, rfl⟩ := h
  exact ⟨arguments, by simp [Part.enter]⟩

theorem continues_callName {t : Token} {before : List Note} {after : List Item}
    (h : Goal.callName.move t = .take before after) : Continues .callName t before after := by
  obtain ⟨⟨name, rfl⟩, rfl, rfl⟩ := oneOf_eq_take h
  intro p hp
  obtain ⟨_, _, hrest, rfl, rfl⟩ := hp
  obtain ⟨target, arguments, he⟩ := hrest name rfl
  exact ⟨.token name.token, .inl rfl, target, arguments, by simpa using he⟩

theorem continues_callRest {t first : Token} {before : List Note} {after : List Item}
    (h : (Goal.callRest first).move t = .take before after) :
    Continues (.callRest first) t before after := by
  unfold Goal.move at h
  simp only at h
  split at h <;> rename_i ht
  · cases h
    intro p hp
    obtain ⟨_, _, hrest, rfl, rfl⟩ := hp
    refine ⟨.fixed t.kind, .inr rfl, ?_⟩
    intro name hname
    subst hname
    obtain ⟨target, arguments, he⟩ := hrest name rfl
    exact ⟨target, arguments, by simpa [ht, Part.mark] using he⟩
  · cases h
    intro p hp
    obtain ⟨arguments, rfl⟩ := produces_arguments hp
    refine ⟨.fixed t.kind, .inr rfl, ?_⟩
    intro name hname
    subst hname
    refine ⟨.own name, arguments, ?_⟩
    simp [CallName.script, CallName.nameScript, CallName.callee, Part.act, Part.mark, ht]
  · cases h

theorem continues_memberName {t qualifier : Token} {before : List Note} {after : List Item}
    (h : (Goal.memberName qualifier).move t = .take before after) :
    Continues (.memberName qualifier) t before after := by
  obtain ⟨⟨name, rfl⟩, rfl, rfl⟩ := oneOf_eq_take h
  intro p hp
  obtain ⟨_, ⟨_, q, rfl, hp, rfl⟩, rfl⟩ := hp
  obtain ⟨arguments, rfl⟩ := produces_arguments hp
  refine ⟨.token name.token, .inl rfl, ?_⟩
  intro qualifier hqualifier
  subst hqualifier
  refine ⟨.member qualifier name, arguments, ?_⟩
  simp [CallName.script, CallName.nameScript, CallName.callee, Part.act, Part.mark]

theorem continues_arguments {t : Token} {callee : Callee} {before : List Note} {after : List Item}
    (h : (Goal.arguments callee).move t = .take before after) :
    Continues (.arguments callee) t before after := by
  unfold Goal.move at h
  simp only at h
  split at h
  · rename_i ht
    cases h
    intro p hp
    obtain ⟨_, rfl, rfl⟩ := hp
    refine ⟨.fixed t.kind, .inr rfl, .nil, ?_⟩
    simp [Arguments.script, Arguments.length, callEndScript, Part.leave, Part.act, Part.mark, ht]
  · obtain ⟨inner, rfl, hinner⟩ := expressionMove_eq_take h
    intro p hp
    obtain ⟨q, _, hq, ⟨_, ⟨_, _, ⟨rest, rfl⟩, rfl, rfl⟩, rfl⟩, rfl⟩ := produces_append hp
    obtain ⟨x, hx, first, he⟩ := hinner q hq
    refine ⟨x, hx, .cons first rest, ?_⟩
    simp [Arguments.script, Arguments.length, ← he, Nat.add_comm, Part.act]

theorem continues_moreArguments {t : Token} {callee : Callee} {count : Nat} {before : List Note}
    {after : List Item} (h : (Goal.moreArguments callee count).move t = .take before after) :
    Continues (.moreArguments callee count) t before after := by
  unfold Goal.move at h
  simp only at h
  split at h <;> rename_i ht
  · cases h
    intro p hp
    obtain ⟨_, _, ⟨first, rfl⟩, ⟨_, ⟨_, _, ⟨rest, rfl⟩, rfl, rfl⟩, rfl⟩, rfl⟩ := hp
    refine ⟨.fixed t.kind, .inr rfl, .cons first rest, ?_⟩
    have hcount : count + (rest.length + 1) = count + 1 + rest.length := by omega
    simp [Arguments.moreScript, Arguments.length, Part.act, Part.mark, ht, hcount]
  · cases h
    intro p hp
    obtain ⟨_, rfl, rfl⟩ := hp
    refine ⟨.fixed t.kind, .inr rfl, .nil, ?_⟩
    simp [Arguments.moreScript, Arguments.length, callEndScript, Part.leave, Part.act, Part.mark, ht]
  · cases h

/-! ### Terms and operators -/

theorem continues_operators {t : Token} {before : List Note} {after : List Item}
    (h : Goal.operators.move t = .take before after) : Continues .operators t before after := by
  unfold Goal.move at h
  simp only at h
  split at h
  · rename_i op hop
    cases h
    intro p hp
    obtain ⟨_, _, ⟨operand, rfl⟩, ⟨_, ⟨_, _, ⟨rest, rfl⟩, rfl, rfl⟩, rfl⟩, rfl⟩ := hp
    have ht : t.kind = .mark op.mark := BinaryOp.ofTerminal?_eq_some_iff.mp hop
    refine ⟨.fixed t.kind, .inr rfl, .cons op operand rest, ?_⟩
    simp [Operations.script, Part.act, Part.mark, ht]
  · cases h

theorem continues_termRest {t first : Token} {before : List Note} {after : List Item}
    (h : (Goal.termRest first).move t = .take before after) :
    Continues (.termRest first) t before after := by
  unfold Goal.move at h
  simp only at h
  split at h <;> rename_i ht
  · cases h
    intro p hp
    obtain ⟨_, _, hrest, rfl, rfl⟩ := hp
    refine ⟨.fixed t.kind, .inr rfl, ?_⟩
    intro name hname
    subst hname
    obtain ⟨target, arguments, he⟩ := hrest name rfl
    refine ⟨.call target arguments, ?_⟩
    simp [Term.script, ← he, ht, Part.mark]
  · cases h
    intro p hp
    obtain ⟨arguments, rfl⟩ := produces_arguments hp
    refine ⟨.fixed t.kind, .inr rfl, ?_⟩
    intro name hname
    subst hname
    refine ⟨.call (.own name) arguments, ?_⟩
    simp [Term.script, CallName.script, CallName.nameScript, CallName.callee, Part.act, Part.mark, ht]
  · cases h
    intro p hp
    obtain ⟨_, _, ⟨index, rfl⟩, ⟨_, _, rfl, ⟨_, rfl, rfl⟩, rfl⟩, rfl⟩ := hp
    refine ⟨.fixed t.kind, .inr rfl, ?_⟩
    intro name hname
    subst hname
    refine ⟨.element name index, ?_⟩
    simp [Term.script, Part.act, Part.mark, ht]
  · cases h

/-! ### Declarations -/

theorem continues_classVars {t : Token} {before : List Note} {after : List Item}
    (h : Goal.classVars.move t = .take before after) : Continues .classVars t before after := by
  unfold Goal.move at h
  simp only at h
  split at h
  · rename_i kind hkind
    cases h
    intro p hp
    obtain ⟨_, _, ⟨d, rfl⟩, ⟨_, ⟨_, _, ⟨ds, rfl⟩, rfl, rfl⟩, rfl⟩, rfl⟩ := hp
    obtain ⟨hclass, ht⟩ := VariableKind.ofTerminal?_eq_some_iff.mp hkind
    refine ⟨.fixed t.kind, .inr rfl, ⟨kind, hclass, d⟩ :: ds, ?_⟩
    simp [ClassVarDec.script, Part.enter, Part.leave, Part.keyword, ht]
  · cases h

theorem continues_declaredType {t : Token} {kind : VariableKind} {before : List Note}
    {after : List Item} (h : (Goal.declaredType kind).move t = .take before after) :
    Continues (.declaredType kind) t before after := by
  obtain ⟨⟨type, rfl⟩, rfl, rfl⟩ := oneOf_eq_take h
  intro p hp
  obtain ⟨_, _, ⟨first, rfl⟩, ⟨_, _, ⟨more, rfl⟩, ⟨_, _, rfl, rfl, rfl⟩, rfl⟩, rfl⟩ := hp
  refine ⟨.token type.token, .inl rfl, ⟨type, first, more⟩, ?_⟩
  simp [Declared.script, Part.mark]

theorem continues_declaredName {t type : Token} {kind : VariableKind} {before : List Note}
    {after : List Item} (h : (Goal.declaredName kind type).move t = .take before after) :
    Continues (.declaredName kind type) t before after := by
  obtain ⟨⟨name, rfl⟩, rfl, rfl⟩ := oneOf_eq_take h
  intro p hp
  obtain ⟨_, rfl, rfl⟩ := hp
  exact ⟨.token name.token, .inl rfl, name, rfl⟩

theorem continues_moreNames {t type : Token} {kind : VariableKind} {before : List Note}
    {after : List Item} (h : (Goal.moreNames kind type).move t = .take before after) :
    Continues (.moreNames kind type) t before after := by
  unfold Goal.move at h
  simp only at h
  split at h
  · rename_i ht
    cases h
    intro p hp
    obtain ⟨_, _, ⟨name, rfl⟩, ⟨_, _, ⟨names, rfl⟩, rfl, rfl⟩, rfl⟩ := hp
    refine ⟨.fixed t.kind, .inr rfl, name :: names, ?_⟩
    simp [moreNamesScript, Part.mark, ht]
  · cases h

theorem continues_parameterType {t : Token} {before : List Note} {after : List Item}
    (h : oneOf variableTypes t [.goal (.declaredName .argument t), .goal .moreParameters] =
      .take before after) : Continues .parameterType t before after := by
  obtain ⟨⟨type, rfl⟩, rfl, rfl⟩ := oneOf_eq_take h
  intro p hp
  obtain ⟨_, _, ⟨name, rfl⟩, ⟨_, _, ⟨ps, rfl⟩, rfl, rfl⟩, rfl⟩ := hp
  refine ⟨.token type.token, .inl rfl, ⟨type, name⟩, ps, ?_⟩
  simp [Parameter.script]

theorem continues_parameters {t : Token} {before : List Note} {after : List Item}
    (h : Goal.parameters.move t = .take before after) : Continues .parameters t before after := by
  unfold Goal.move at h
  simp only at h
  split at h
  · cases h
  · intro p hp
    obtain ⟨x, hx, q, qs, he⟩ := continues_parameterType h p hp
    exact ⟨x, hx, q :: qs, he⟩

theorem continues_moreParameters {t : Token} {before : List Note} {after : List Item}
    (h : Goal.moreParameters.move t = .take before after) :
    Continues .moreParameters t before after := by
  unfold Goal.move at h
  simp only at h
  split at h
  · rename_i ht
    cases h
    intro p hp
    obtain ⟨_, _, ⟨q, qs, rfl⟩, rfl, rfl⟩ := hp
    refine ⟨.fixed t.kind, .inr rfl, q :: qs, ?_⟩
    simp [moreParametersScript, Part.mark, ht]
  · cases h

theorem continues_locals {t : Token} {before : List Note} {after : List Item}
    (h : Goal.locals.move t = .take before after) : Continues .locals t before after := by
  unfold Goal.move at h
  simp only at h
  split at h
  · rename_i ht
    cases h
    intro p hp
    obtain ⟨_, _, ⟨d, rfl⟩, ⟨_, ⟨_, _, ⟨ds, rfl⟩, rfl, rfl⟩, rfl⟩, rfl⟩ := hp
    refine ⟨.fixed t.kind, .inr rfl, d :: ds, ?_⟩
    simp [localsScript, Part.enter, Part.leave, Part.keyword, ht]
  · cases h

theorem produces_subroutine {kind : SubroutineKind} {stack : List Item} {p : Script}
    (h : Produces (subroutineItems kind ++ stack) p) :
    ∃ (s : SubroutineDec) (q : Script), s.kind = kind ∧ Produces stack q ∧
      [Part.enter .subroutineDec, .act .startSubroutine, .keyword kind.keyword] ++ p =
        s.script ++ q := by
  obtain ⟨receiver, p, hreceiver, hp, rfl⟩ := produces_append (by
    rw [subroutineItems, List.append_assoc] at h
    exact h)
  obtain ⟨_, _, ⟨result, rfl⟩, ⟨_, _, ⟨name, rfl⟩, hp, rfl⟩, rfl⟩ := hp
  obtain ⟨_, _, rfl, ⟨_, ⟨_, _, ⟨parameters, rfl⟩, ⟨_, hp, rfl⟩, rfl⟩, rfl⟩, rfl⟩ := hp
  obtain ⟨_, _, rfl, ⟨_, ⟨_, _, rfl, ⟨_, _, ⟨locals, rfl⟩, hp, rfl⟩, rfl⟩, rfl⟩, rfl⟩ := hp
  obtain ⟨_, ⟨_, ⟨_, _, ⟨body, rfl⟩, ⟨_, hp, rfl⟩, rfl⟩, rfl⟩, rfl⟩ := hp
  obtain ⟨_, _, rfl, ⟨_, ⟨_, ⟨q, hq, rfl⟩, rfl⟩, rfl⟩, rfl⟩ := hp
  refine ⟨⟨kind, result, name, parameters, locals, body⟩, q, rfl, hq, ?_⟩
  have hr : receiver = if kind = .method then [.act .receiveObject] else [] := by
    split at hreceiver <;> rename_i hk
    · obtain ⟨_, rfl, rfl⟩ := hreceiver
      rw [if_pos hk]
      rfl
    · rw [if_neg hk]
      exact hreceiver
  simp [SubroutineDec.script, hr, Part.enter, Part.leave, Part.act, Part.mark]

theorem continues_subroutines {t : Token} {before : List Note} {after : List Item}
    (h : Goal.subroutines.move t = .take before after) :
    Continues .subroutines t before after := by
  unfold Goal.move at h
  simp only at h
  split at h
  · rename_i kind hkind
    cases h
    intro p hp
    obtain ⟨s, _, rfl, ⟨_, _, ⟨ss, rfl⟩, rfl, rfl⟩, he⟩ := produces_subroutine hp
    have ht : t.kind = .keyword s.kind.keyword := SubroutineKind.ofTerminal?_eq_some_iff.mp hkind
    refine ⟨.fixed t.kind, .inr rfl, s :: ss, ?_⟩
    simpa [Part.enter, Part.act, Part.keyword, ht] using he
  · cases h

/-! ### All goals -/

theorem continues_of_take {g : Goal} {t : Token} {before : List Note} {after : List Item}
    (h : g.move t = .take before after) : Continues g t before after := by
  cases g with
  | only kind =>
    obtain ⟨⟨leaf, rfl⟩, rfl, rfl⟩ := oneOf_eq_take h
    intro p hp
    subst hp
    have ht : leaf.token.kind = kind := by simpa using leaf.kind_mem
    exact ⟨.fixed leaf.token.kind, .inr rfl, by rw [ht]; rfl⟩
  | className =>
    obtain ⟨⟨name, rfl⟩, rfl, rfl⟩ := oneOf_eq_take h
    intro p hp
    obtain ⟨_, rfl, rfl⟩ := hp
    exact ⟨.token name.token, .inl rfl, name, rfl⟩
  | resultType =>
    obtain ⟨⟨result, rfl⟩, rfl, rfl⟩ := oneOf_eq_take h
    intro p hp
    subst hp
    exact ⟨.token result.token, .inl rfl, result, rfl⟩
  | subroutineName =>
    obtain ⟨⟨name, rfl⟩, rfl, rfl⟩ := oneOf_eq_take h
    intro p hp
    obtain ⟨_, rfl, rfl⟩ := hp
    exact ⟨.token name.token, .inl rfl, name, rfl⟩
  | classVars => exact continues_classVars h
  | declaredType => exact continues_declaredType h
  | declaredName => exact continues_declaredName h
  | moreNames => exact continues_moreNames h
  | subroutines => exact continues_subroutines h
  | parameters => exact continues_parameters h
  | parameterType => exact continues_parameterType h
  | moreParameters => exact continues_moreParameters h
  | locals => exact continues_locals h
  | statements => exact continues_statements h
  | letTarget => exact continues_letTarget h
  | letRest => exact continues_letRest h
  | elseBranch => exact continues_elseBranch h
  | callName => exact continues_callName h
  | callRest => exact continues_callRest h
  | memberName => exact continues_memberName h
  | arguments => exact continues_arguments h
  | moreArguments => exact continues_moreArguments h
  | result => exact continues_result h
  | expression => exact continues_expression h
  | operators => exact continues_operators h
  | term => exact continues_term h
  | termRest => exact continues_termRest h

theorem scripts_of_pass {g : Goal} {t : Token} {before : List Note}
    (h : g.move t = .pass before) : g.Scripts (before.map .note) := by
  cases Goal.passes_of_move h with
  | classVars | moreNames | subroutines | parameters | moreParameters | locals =>
    exact ⟨[], rfl⟩
  | statements => exact ⟨.empty, rfl⟩
  | elseBranch => exact .inl rfl
  | result => exact ⟨none, rfl⟩
  | operators => exact ⟨.nil, rfl⟩
  | termRest =>
    -- A name is a variable if no call and no index follows it.
    intro name hname
    subst hname
    exact ⟨.var name, rfl⟩

/-! ## Descents without a fault -/

theorem reads_of_take {g : Goal} {t : Token} {before : List Note} {after stack : List Item}
    {p : Script} {u : List Token} {es : List Event} (hg : g.move t = .take before after)
    (hp : Produces (after ++ stack) p) (hr : Reads p u es) :
    ∃ q, Produces (.goal g :: stack) q ∧ Reads q (t :: u) (before.map .note ++ .take t :: es) := by
  obtain ⟨q, r, hq, hr', rfl⟩ := produces_append hp
  obtain ⟨x, hx, hs⟩ := continues_of_take hg q hq
  refine ⟨_, ⟨_, r, hs, hr', rfl⟩, ?_⟩
  rw [List.append_assoc]
  exact (Reads.notes _).append (.take hx hr)

theorem reads_of_pass {g : Goal} {t : Token} {before : List Note} {stack : List Item}
    {p : Script} {u : List Token} {es : List Event} (hg : g.move t = .pass before)
    (hp : Produces stack p) (hr : Reads p u es) :
    ∃ q, Produces (.goal g :: stack) q ∧ Reads q u (before.map .note ++ es) :=
  ⟨_, ⟨_, p, scripts_of_pass hg, hp, rfl⟩, (Reads.notes _).append hr⟩

theorem reads_of_descends {stack : List Item} {tokens rest : List Token} {es : List Event}
    (h : Descends stack tokens es rest) :
    ∃ (p : Script) (u : List Token), Produces stack p ∧ Reads p u es ∧ tokens = u ++ rest := by
  induction h with
  | nil => exact ⟨[], [], rfl, .nil, rfl⟩
  | note _ ih =>
    obtain ⟨p, u, hp, hr, rfl⟩ := ih
    exact ⟨_, u, ⟨p, hp, rfl⟩, .note hr, rfl⟩
  | take hg _ ih =>
    obtain ⟨p, u, hp, hr, rfl⟩ := ih
    obtain ⟨q, hq, hr⟩ := reads_of_take hg hp hr
    exact ⟨q, _ :: u, hq, hr, rfl⟩
  | pass hg _ ih =>
    obtain ⟨p, u, hp, hr, he⟩ := ih
    obtain ⟨q, hq, hr⟩ := reads_of_pass hg hp hr
    exact ⟨q, u, hq, hr, he⟩

theorem produces_classItems {p : Script} (h : Produces classItems p) :
    ∃ c : ClassDec, p = c.script := by
  obtain ⟨_, ⟨_, _, rfl, ⟨_, _, ⟨name, rfl⟩, ⟨_, _, rfl, hp, rfl⟩, rfl⟩, rfl⟩, rfl⟩ := h
  obtain ⟨_, _, ⟨variableDecs, rfl⟩, ⟨_, _, ⟨subroutines, rfl⟩, hp, rfl⟩, rfl⟩ := hp
  obtain ⟨_, _, rfl, ⟨_, rfl, rfl⟩, rfl⟩ := hp
  refine ⟨⟨name, variableDecs, subroutines⟩, ?_⟩
  simp [ClassDec.script, Part.enter, Part.leave, Part.act, Part.mark, Part.keyword]

/-- A class that is read without a fault is spelled by the tokens read. -/
theorem reads_of_descends_class {tokens rest : List Token} {es : List Event}
    (h : Descends classItems tokens es rest) :
    ∃ (c : ClassDec) (u : List Token), Reads c.script u es ∧ tokens = u ++ rest := by
  obtain ⟨p, u, hp, hr, he⟩ := reads_of_descends h
  obtain ⟨c, rfl⟩ := produces_classItems hp
  exact ⟨c, u, hr, he⟩

end JackCompiler
