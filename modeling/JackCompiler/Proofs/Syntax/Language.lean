import JackCompiler.Proofs.Syntax.Spelling

/-!
# The language of the grammar

The lists of tokens that spell a class are those of which the kinds are a word of the
grammar (`exists_spells_iff`).
-/

namespace JackCompiler

open Grammar

theorem Leaf.kind_eq {kind : Terminal} (leaf : Leaf [kind]) : leaf.token.kind = kind :=
  List.mem_singleton.mp leaf.kind_mem

theorem Grammar.derived_mark {n : Nonterminal} {m : Mark} (h : [mark m] ∈ alternatives n)
    {t : Token} (ht : t.kind = .mark m) : Derived n [t] :=
  derived_of_row [mark m] h ⟨t, [], rfl, ht, rfl⟩

theorem BinaryOp.derived (op : BinaryOp) {t : Token} (ht : t.kind = .mark op.mark) :
    Derived .op [t] :=
  derived_mark (by cases op <;> decide) ht

theorem UnaryOp.derived (op : UnaryOp) {t : Token} (ht : t.kind = .mark op.mark) :
    Derived .unaryOp [t] :=
  derived_mark (by cases op <;> decide) ht

theorem Word.derived (word : Word) {t : Token} (ht : t.kind = .keyword word.keyword) :
    Derived .keywordConstant [t] := by
  refine derived_of_row [Grammar.keyword word.keyword] ?_ ⟨t, [], rfl, ht, rfl⟩
  cases word <;> decide

theorem CallName.derived (target : CallName) {arguments : Script} {count : Nat} {u : List Token}
    (hu : (target.script arguments count).Spelled u)
    (h : ∀ v, arguments.Spelled v → Derived .expressionList v) : Derived .subroutineCall u := by
  cases target with
  | own name =>
    obtain ⟨_, rfl, b, _, rfl, hb, hu⟩ := hu
    obtain ⟨v, _, rfl, hv, b', _, rfl, hb', rfl⟩ := Script.spelled_append.mp hu
    exact derived_of_row [ident, mark .leftParen, part .expressionList, mark .rightParen]
      (by decide) ⟨_, _, rfl, name.kind_eq, b, _, rfl, hb, v, _, rfl, h v hv, b', _, rfl, hb', rfl⟩
  | member qualifier name =>
    obtain ⟨_, rfl, d, _, rfl, hd, _, rfl, b, _, rfl, hb, hu⟩ := hu
    obtain ⟨v, _, rfl, hv, b', _, rfl, hb', rfl⟩ := Script.spelled_append.mp hu
    exact derived_of_row
      [ident, mark .dot, ident, mark .leftParen, part .expressionList, mark .rightParen]
      (by decide) ⟨_, _, rfl, qualifier.kind_eq, d, _, rfl, hd, _, _, rfl, name.kind_eq,
        b, _, rfl, hb, v, _, rfl, h v hv, b', _, rfl, hb', rfl⟩

mutual

theorem Term.derived : ∀ (e : Term) {u : List Token}, e.script.Spelled u → Derived .term u
  | .integer literal, u, h => by
    obtain ⟨_, rfl, rfl⟩ := h
    exact derived_of_row [.terminal .number] (by decide) ⟨_, _, rfl, literal.kind_eq, rfl⟩
  | .text literal, u, h => by
    obtain ⟨_, rfl, rfl⟩ := h
    exact derived_of_row [.terminal .text] (by decide) ⟨_, _, rfl, literal.kind_eq, rfl⟩
  | .word word, u, h => by
    obtain ⟨t, _, rfl, ht, rfl⟩ := h
    exact derived_of_row [part .keywordConstant] (by decide) ⟨[t], [], rfl, word.derived ht, rfl⟩
  | .unary op operand, u, h => by
    obtain ⟨t, _, rfl, ht, h⟩ := h
    obtain ⟨v, _, rfl, hv, rfl⟩ := Script.spelled_append.mp h
    exact derived_of_row [part .unaryOp, part .term] (by decide)
      ⟨[t], _, rfl, op.derived ht, v, [], rfl, operand.derived hv, rfl⟩
  | .group inner, u, h => by
    obtain ⟨b, _, rfl, hb, h⟩ := h
    obtain ⟨v, _, rfl, hv, b', _, rfl, hb', rfl⟩ := Script.spelled_append.mp h
    exact derived_of_row [mark .leftParen, part .expression, mark .rightParen] (by decide)
      ⟨b, _, rfl, hb, v, _, rfl, inner.derived hv, b', _, rfl, hb', rfl⟩
  | .var name, u, h => by
    obtain ⟨_, rfl, rfl⟩ := h
    exact derived_of_row [ident] (by decide) ⟨_, _, rfl, name.kind_eq, rfl⟩
  | .element array index, u, h => by
    obtain ⟨_, rfl, b, _, rfl, hb, h⟩ := h
    obtain ⟨v, _, rfl, hv, b', _, rfl, hb', rfl⟩ := Script.spelled_append.mp h
    exact derived_of_row [ident, mark .leftBracket, part .expression, mark .rightBracket]
      (by decide) ⟨_, _, rfl, array.kind_eq, b, _, rfl, hb, v, _, rfl, index.derived hv,
        b', _, rfl, hb', rfl⟩
  | .call target arguments, u, h => by
    obtain ⟨v, _, rfl, hv, rfl⟩ := Script.spelled_append.mp h
    exact derived_of_row [part .subroutineCall] (by decide)
      ⟨v, [], rfl, target.derived hv fun w hw => arguments.derived hw, rfl⟩

theorem Expression.derived :
    ∀ (e : Expression) {u : List Token}, e.script.Spelled u → Derived .expression u
  | .mk first rest, u, h => by
    obtain ⟨y, w, rfl, hy, hw⟩ := Script.spelled_append.mp h
    obtain ⟨v, x, rfl, hv, hx⟩ := Script.spelled_append.mp hy
    obtain rfl : w = [] := hw
    exact derived_of_row [part .term, part .operations] (by decide)
      ⟨v, x ++ [], List.append_assoc .., first.derived hv, x, [], rfl, rest.derived hx, rfl⟩

theorem Operations.derived :
    ∀ (e : Operations) {u : List Token}, e.script.Spelled u → Derived .operations u
  | .nil, u, h => derived_of_row [] (by decide) h
  | .cons op operand rest, u, h => by
    obtain ⟨t, _, rfl, ht, h⟩ := h
    obtain ⟨y, x, rfl, hy, hx⟩ := Script.spelled_append.mp h
    obtain ⟨v, w, rfl, hv, hw⟩ := Script.spelled_append.mp hy
    obtain rfl : w = [] := hw
    exact derived_of_row [part .op, part .term, part .operations] (by decide)
      ⟨[t], _, rfl, op.derived ht, v, x, by simp, operand.derived hv, x, [], by simp,
        rest.derived hx, rfl⟩

theorem Arguments.derived :
    ∀ (e : Arguments) {u : List Token}, e.script.Spelled u → Derived .expressionList u
  | .nil, u, h => derived_of_row [] (by decide) h
  | .cons first rest, u, h => by
    rw [Arguments.script, List.append_assoc] at h
    obtain ⟨v, w, rfl, hv, hw⟩ := Script.spelled_append.mp h
    exact derived_of_row [part .expression, part .moreExpressions] (by decide)
      ⟨v, w, rfl, first.derived hv, w, [], by simp, rest.derivedMore 1 hw, rfl⟩

theorem Arguments.derivedMore :
    ∀ (e : Arguments) (count : Nat) {u : List Token}, (e.moreScript count).Spelled u →
      Derived .moreExpressions u
  | .nil, _, u, h => derived_of_row [] (by decide) h
  | .cons first rest, count, u, h => by
    rw [Arguments.moreScript, List.append_assoc, List.append_assoc, List.singleton_append] at h
    obtain ⟨t, _, rfl, ht, h⟩ := h
    obtain ⟨v, w, rfl, hv, hw⟩ := Script.spelled_append.mp h
    exact derived_of_row [mark .comma, part .expression, part .moreExpressions] (by decide)
      ⟨t, _, rfl, ht, v, w, rfl, first.derived hv, w, [], by simp,
        rest.derivedMore (count + 1) hw, rfl⟩

end

/-! ## Statements -/

theorem Grammar.row_block {b : Block} {u v : List Token} {p : Form}
    (h : (bracedScript b.script).Spelled u)
    (ih : ∀ {w : List Token}, b.script.Spelled w → Derived .statements w) (hv : Row Derived p v) :
    Row Derived (mark .leftBrace :: part .statements :: mark .rightBrace :: p) (u ++ v) := by
  obtain ⟨t, _, rfl, ht, h⟩ := h
  obtain ⟨w, _, rfl, hw, t', _, rfl, ht', rfl⟩ := Script.spelled_append.mp h
  exact ⟨t, _, rfl, ht, w, t' :: v, by simp, ih hw, t', v, rfl, ht', hv⟩

theorem Grammar.row_guarded {condition : Expression} {tested : Action} {b : Block}
    {u v : List Token} {p : Form} (h : (guardedScript condition tested b.script).Spelled u)
    (ih : ∀ {w : List Token}, b.script.Spelled w → Derived .statements w) (hv : Row Derived p v) :
    Row Derived (mark .leftParen :: part .expression :: mark .rightParen ::
      mark .leftBrace :: part .statements :: mark .rightBrace :: p) (u ++ v) := by
  obtain ⟨x, y, rfl, hx, hy⟩ := Script.spelled_append.mp h
  obtain ⟨x, z, rfl, hx', t', _, rfl, ht', hz⟩ := Script.spelled_append.mp hx
  obtain ⟨t, _, rfl, ht, hw⟩ := hx'
  obtain rfl : _ = [] := hz
  exact ⟨t, _, rfl, ht, _, t' :: (y ++ v), by simp, condition.derived hw, t', _, rfl, ht',
    row_block hy ih hv⟩

theorem Grammar.derived_assignment {k s : Token} {target : Target} {value : Expression}
    {u : List Token} (hk : k.kind = .keyword .let_) (hs : s.kind = .mark .semicolon)
    (h : (assignmentScript target value).Spelled u) : Derived .letStatement (k :: (u ++ [s])) := by
  obtain ⟨x, _, rfl, hx, rfl⟩ := Script.spelled_append.mp h
  obtain ⟨y, v, rfl, hy, hv⟩ := Script.spelled_append.mp hx
  obtain ⟨z, _, rfl, hz, e, _, rfl, he, rfl⟩ := Script.spelled_append.mp hy
  cases target with
  | var name =>
    obtain ⟨_, rfl, rfl⟩ := hz
    exact derived_of_row [Grammar.keyword .let_, ident, mark .eq, part .expression,
      mark .semicolon] (by decide) ⟨k, _, rfl, hk, _, _, rfl, name.kind_eq, e, _, rfl, he,
        v, [s], by simp, value.derived hv, s, _, rfl, hs, rfl⟩
  | element array index =>
    obtain ⟨_, rfl, b, _, rfl, hb, hz⟩ := hz
    obtain ⟨w, _, rfl, hw, b', _, rfl, hb', rfl⟩ := Script.spelled_append.mp hz
    exact derived_of_row [Grammar.keyword .let_, ident, mark .leftBracket, part .expression,
      mark .rightBracket, mark .eq, part .expression, mark .semicolon] (by decide)
      ⟨k, _, rfl, hk, _, _, rfl, array.kind_eq, b, _, rfl, hb, w, b' :: e :: (v ++ [s]), by simp,
        index.derived hw, b', _, rfl, hb', e, _, rfl, he, v, [s], rfl, value.derived hv,
        s, _, rfl, hs, rfl⟩

theorem Block.derived (b : Block) {u : List Token} (h : b.script.Spelled u) :
    Derived .statements u := by
  -- In the grammar a statement stands between `statements` and the rule for its sort.
  have hcons : ∀ {n : Nonterminal} {v w : List Token}, [part n] ∈ alternatives .statement →
      Derived n v → Derived .statements w → Derived .statements (v ++ w) := by
    intro n v w hn hv hw
    have hstatement : Derived .statement v :=
      derived_of_row [part n] hn ⟨v, [], by simp, hv, rfl⟩
    exact derived_of_row [part .statement, part .statements] (by decide)
      ⟨v, w, rfl, hstatement, w, [], by simp, hw, rfl⟩
  induction b generalizing u with
  | empty => exact derived_of_row [] (by decide) h
  | let_ target value next ih =>
    obtain ⟨v, w, rfl, hv, hw⟩ := Script.spelled_append.mp h
    obtain ⟨x, _, rfl, ⟨k, z, rfl, hk, hz⟩, s, _, rfl, hs, rfl⟩ := Script.spelled_append.mp hv
    exact hcons (n := .letStatement) (by decide) (derived_assignment hk hs hz) (ih hw)
  | if_ condition yes next ihyes ih =>
    obtain ⟨v, w, rfl, hv, hw⟩ := Script.spelled_append.mp h
    obtain ⟨x, _, rfl, ⟨k, z, rfl, hk, hz⟩, rfl⟩ := Script.spelled_append.mp hv
    refine hcons (n := .ifStatement) (by decide) ?_ (ih hw)
    exact derived_of_row [Grammar.keyword .if_, mark .leftParen, part .expression,
      mark .rightParen, mark .leftBrace, part .statements, mark .rightBrace] (by decide)
      ⟨k, _, rfl, hk, row_guarded hz ihyes rfl⟩
  | ifElse condition yes no next ihyes ihno ih =>
    obtain ⟨v, w, rfl, hv, hw⟩ := Script.spelled_append.mp h
    obtain ⟨x, _, rfl, hx, rfl⟩ := Script.spelled_append.mp hv
    obtain ⟨y, c, rfl, hy, hc⟩ := Script.spelled_append.mp hx
    obtain ⟨z, _, rfl, ⟨k, a, rfl, hk, ha⟩, l, _, rfl, hl, rfl⟩ := Script.spelled_append.mp hy
    refine hcons (n := .ifStatement) (by decide) ?_ (ih hw)
    have helse : Row Derived [Grammar.keyword .else_, mark .leftBrace, part .statements,
        mark .rightBrace] (l :: (c ++ [])) := ⟨l, _, rfl, hl, row_block hc ihno rfl⟩
    exact derived_of_row [Grammar.keyword .if_, mark .leftParen, part .expression,
      mark .rightParen, mark .leftBrace, part .statements, mark .rightBrace,
      Grammar.keyword .else_, mark .leftBrace, part .statements, mark .rightBrace] (by decide)
      ⟨k, a ++ l :: (c ++ []), by simp, hk, row_guarded ha ihyes helse⟩
  | while_ condition body next ihbody ih =>
    obtain ⟨v, w, rfl, hv, hw⟩ := Script.spelled_append.mp h
    obtain ⟨x, _, rfl, ⟨k, z, rfl, hk, hz⟩, rfl⟩ := Script.spelled_append.mp hv
    refine hcons (n := .whileStatement) (by decide) ?_ (ih hw)
    exact derived_of_row [Grammar.keyword .while_, mark .leftParen, part .expression,
      mark .rightParen, mark .leftBrace, part .statements, mark .rightBrace] (by decide)
      ⟨k, _, rfl, hk, row_guarded hz ihbody rfl⟩
  | do_ target arguments next ih =>
    obtain ⟨v, w, rfl, hv, hw⟩ := Script.spelled_append.mp h
    obtain ⟨x, _, rfl, ⟨k, z, rfl, hk, hz⟩, s, _, rfl, hs, rfl⟩ := Script.spelled_append.mp hv
    refine hcons (n := .doStatement) (by decide) ?_ (ih hw)
    exact derived_of_row [Grammar.keyword .do_, part .subroutineCall, mark .semicolon] (by decide)
      ⟨k, _, rfl, hk, z, _, rfl, target.derived hz fun w hw => arguments.derived hw,
        s, _, rfl, hs, rfl⟩
  | return_ value next ih =>
    obtain ⟨v, w, rfl, hv, hw⟩ := Script.spelled_append.mp h
    obtain ⟨x, _, rfl, ⟨k, z, rfl, hk, hz⟩, s, _, rfl, hs, rfl⟩ := Script.spelled_append.mp hv
    refine hcons (n := .returnStatement) (by decide) ?_ (ih hw)
    cases value with
    | none =>
      obtain rfl : z = [] := hz
      exact derived_of_row [Grammar.keyword .return_, mark .semicolon] (by decide)
        ⟨k, _, rfl, hk, s, _, rfl, hs, rfl⟩
    | some value =>
      exact derived_of_row [Grammar.keyword .return_, part .expression, mark .semicolon]
        (by decide) ⟨k, _, rfl, hk, z, _, rfl, value.derived hz, s, _, rfl, hs, rfl⟩

/-! ## Declarations -/

theorem derived_type (type : Leaf variableTypes) : Derived .type [type.token] := by
  have hkind := type.kind_mem
  simp only [variableTypes, List.mem_cons, List.not_mem_nil, or_false] at hkind
  refine derived_of_row [.terminal type.token.kind] ?_ ⟨_, _, rfl, rfl, rfl⟩
  rcases hkind with h | h | h | h <;> rw [h] <;> decide

theorem derived_resultType (type : Leaf resultTypes) : Derived .resultType [type.token] := by
  obtain ⟨t, ht⟩ := type
  rcases List.mem_cons.mp ht with hvoid | ht
  · exact derived_of_row [Grammar.keyword .void] (by decide) ⟨t, _, rfl, hvoid, rfl⟩
  · exact derived_of_row [part .type] (by decide) ⟨[t], [], rfl, derived_type ⟨t, ht⟩, rfl⟩

theorem derived_moreNames {kind : VariableKind} {type : Token} (names : List Name)
    {u : List Token} (h : (moreNamesScript kind type names).Spelled u) : Derived .moreNames u := by
  induction names generalizing u with
  | nil => exact derived_of_row [] (by decide) h
  | cons name names ih =>
    obtain ⟨c, _, rfl, hc, _, rfl, h⟩ := h
    exact derived_of_row [mark .comma, ident, part .moreNames] (by decide)
      ⟨c, _, rfl, hc, _, _, rfl, name.kind_eq, _, [], by simp, ih h, rfl⟩

theorem Declared.row (d : Declared) (kind : VariableKind) {u : List Token}
    (h : (d.script kind).Spelled u) :
    Row Derived [part .type, ident, part .moreNames, mark .semicolon] u := by
  obtain ⟨x, _, rfl, hx, s, _, rfl, hs, rfl⟩ := Script.spelled_append.mp h
  obtain ⟨y, v, rfl, ⟨_, rfl, _, rfl, rfl⟩, hv⟩ := Script.spelled_append.mp hx
  exact ⟨[d.type.token], d.first.token :: (v ++ [s]), by simp, derived_type d.type,
    _, _, rfl, d.first.kind_eq, v, [s], rfl, derived_moreNames d.more hv, s, _, rfl, hs, rfl⟩

theorem ClassVarDec.derived (d : ClassVarDec) {u : List Token} (h : d.script.Spelled u) :
    Derived .classVarDec u := by
  obtain ⟨x, _, rfl, ⟨k, v, rfl, hk, hv⟩, rfl⟩ := Script.spelled_append.mp h
  have hrow := d.declared.row d.kind hv
  rw [List.append_nil]
  refine derived_of_row (Grammar.keyword d.kind.keyword ::
    [part .type, ident, part .moreNames, mark .semicolon]) ?_ ⟨k, v, rfl, hk, hrow⟩
  cases d.kind <;> decide

theorem derived_locals (d : Declared) {u : List Token} (h : (localsScript d).Spelled u) :
    Derived .varDec u := by
  obtain ⟨x, _, rfl, ⟨k, v, rfl, hk, hv⟩, rfl⟩ := Script.spelled_append.mp h
  rw [List.append_nil]
  exact derived_of_row [Grammar.keyword .var, part .type, ident, part .moreNames, mark .semicolon]
    (by decide) ⟨k, v, rfl, hk, d.row .local hv⟩

theorem derived_repeat {α : Type} (member many : Nonterminal) {f : α → Script}
    (hnil : [] ∈ alternatives many) (hcons : [part member, part many] ∈ alternatives many)
    (hf : ∀ (x : α) {u : List Token}, (f x).Spelled u → Derived member u) (xs : List α)
    {u : List Token} (h : Script.Spelled (xs.flatMap f) u) : Derived many u := by
  induction xs generalizing u with
  | nil => exact derived_of_row [] hnil h
  | cons x xs ih =>
    obtain ⟨v, w, rfl, hv, hw⟩ := Script.spelled_append.mp h
    exact derived_of_row [part member, part many] hcons
      ⟨v, w, rfl, hf x hv, w, [], by simp, ih hw, rfl⟩

theorem derived_moreParameters (ps : List Parameter) {u : List Token}
    (h : (moreParametersScript ps).Spelled u) : Derived .moreParameters u := by
  induction ps generalizing u with
  | nil => exact derived_of_row [] (by decide) h
  | cons p ps ih =>
    obtain ⟨c, _, rfl, hc, _, rfl, _, rfl, h⟩ := h
    exact derived_of_row [mark .comma, part .type, ident, part .moreParameters] (by decide)
      ⟨c, _, rfl, hc, [p.type.token], _, rfl, derived_type p.type, _, _, rfl, p.name.kind_eq,
        _, [], by simp, ih h, rfl⟩

theorem derived_parameters (ps : List Parameter) {u : List Token}
    (h : (parametersScript ps).Spelled u) : Derived .parameterList u := by
  cases ps with
  | nil => exact derived_of_row [] (by decide) h
  | cons p ps =>
    obtain ⟨_, rfl, _, rfl, h⟩ := h
    exact derived_of_row [part .type, ident, part .moreParameters] (by decide)
      ⟨[p.type.token], _, rfl, derived_type p.type, _, _, rfl, p.name.kind_eq, _, [], by simp,
        derived_moreParameters ps h, rfl⟩

theorem SubroutineDec.derived (s : SubroutineDec) {u : List Token} (h : s.script.Spelled u) :
    Derived .subroutineDec u := by
  obtain ⟨u₁, _, rfl, h₁, b', _, rfl, hb', rfl⟩ := Script.spelled_append.mp h
  obtain ⟨u₂, w, rfl, h₂, hbody⟩ := Script.spelled_append.mp h₁
  obtain ⟨u₃, _, rfl, h₃, rfl⟩ := Script.spelled_append.mp h₂
  obtain ⟨u₄, v, rfl, h₄, hlocals⟩ := Script.spelled_append.mp h₃
  obtain ⟨u₅, _, rfl, h₅, r', _, rfl, hr', b, _, rfl, hb, rfl⟩ := Script.spelled_append.mp h₄
  obtain ⟨u₆, x, rfl, h₆, hparameters⟩ := Script.spelled_append.mp h₅
  obtain ⟨u₇, _, rfl, h₇, _, rfl, _, rfl, r, _, rfl, hr, rfl⟩ := Script.spelled_append.mp h₆
  obtain ⟨_, y, rfl, ⟨k, _, rfl, hk, rfl⟩, hreceiver⟩ := Script.spelled_append.mp h₇
  obtain rfl : y = [] := by
    split at hreceiver <;> exact hreceiver
  have hvariables := derived_repeat .varDec .varDecs (by decide) (by decide)
    (fun d _ => derived_locals d) s.locals hlocals
  have hinner : Derived .subroutineBody (b :: (v ++ (w ++ [b']))) :=
    derived_of_row [mark .leftBrace, part .varDecs, part .statements, mark .rightBrace] (by decide)
      ⟨b, _, rfl, hb, v, _, rfl, hvariables, w, _, rfl, s.body.derived hbody, b', _, rfl, hb', rfl⟩
  refine derived_of_row [Grammar.keyword s.kind.keyword, part .resultType, ident, mark .leftParen,
    part .parameterList, mark .rightParen, part .subroutineBody] ?_
    ⟨k, s.result.token :: s.name.token :: r :: (x ++ r' :: b :: (v ++ (w ++ [b']))), by simp, hk,
      [s.result.token], _, rfl, derived_resultType s.result, _, _, rfl, s.name.kind_eq,
      r, _, rfl, hr, x, _, rfl, derived_parameters s.parameters hparameters, r', _, rfl, hr',
      _, [], by simp, hinner, rfl⟩
  cases s.kind <;> decide

theorem ClassDec.derived (c : ClassDec) {u : List Token} (h : c.script.Spelled u) :
    Derived .classDec u := by
  obtain ⟨x, b', rfl, hx, hb'⟩ := Script.spelled_append.mp h
  obtain ⟨y, w, rfl, hy, hw⟩ := Script.spelled_append.mp hx
  obtain ⟨k, _, rfl, hk, _, rfl, b, v, rfl, hb, hv⟩ := hy
  obtain ⟨b', _, rfl, hb', rfl⟩ := hb'
  have hvariables := derived_repeat .classVarDec .classVarDecs (by decide) (by decide)
    (fun d _ => d.derived) c.variableDecs hv
  have hsubroutines := derived_repeat .subroutineDec .subroutineDecs (by decide) (by decide)
    (fun s _ => s.derived) c.subroutines hw
  exact derived_of_row [Grammar.keyword .class_, ident, mark .leftBrace, part .classVarDecs,
    part .subroutineDecs, mark .rightBrace] (by decide)
    ⟨k, _, rfl, hk, _, _, rfl, c.name.kind_eq, b, _, rfl, hb, v, w ++ [b'], by simp, hvariables,
      w, [b'], rfl, hsubroutines, b', _, rfl, hb', rfl⟩

/-- The tokens spell a class just if their kinds are a word of the grammar. -/
theorem exists_spells_iff {u : List Token} :
    (∃ c : ClassDec, c.Spells u) ↔ u.map Token.kind ∈ grammar.language := by
  have hmem : u.map Token.kind ∈ grammar.language ↔ Derived .classDec u := by
    rw [ContextFreeGrammar.mem_language_iff, List.map_map]
    rfl
  rw [hmem]
  refine ⟨fun h => ?_, fun h => ?_⟩
  · obtain ⟨c, hc⟩ := h
    exact c.derived (Script.spelled_iff_exists_reads.mpr hc)
  · obtain ⟨v, _, rfl, ⟨c, hc⟩, rfl⟩ := row_of_derives builds h
    rw [List.append_nil]
    exact ⟨c, Script.spelled_iff_exists_reads.mp hc⟩

end JackCompiler
