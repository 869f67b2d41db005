import JackCompiler.Proofs.Syntax.Grammar
import JackCompiler.Proofs.Syntax.Script

/-!
# Spelled trees

The tokens of trees are an interpretation that is closed under the alternatives of the
grammar: trees can be put together as the grammar says (`Grammar.builds`).
-/

namespace JackCompiler

/-! ## Spelled scripts -/

namespace Script

def Spelled : Script → List Token → Prop
  | [], u => u = []
  | .note _ :: p, u => Spelled p u
  | .fixed kind :: p, u => ∃ t v, u = t :: v ∧ t.kind = kind ∧ Spelled p v
  | .token t :: p, u => ∃ v, u = t :: v ∧ Spelled p v

variable {p q : Script} {u : List Token}

theorem spelled_iff_exists_reads : p.Spelled u ↔ ∃ es, Reads p u es := by
  refine ⟨fun h => ?_, fun h => ?_⟩
  · induction p generalizing u with
    | nil =>
      obtain rfl : u = [] := h
      exact ⟨[], .nil⟩
    | cons x p ih =>
      cases x with
      | note n =>
        obtain ⟨_, hes⟩ := ih h
        exact ⟨_, hes.note⟩
      | fixed kind =>
        obtain ⟨t, v, rfl, rfl, hv⟩ := h
        obtain ⟨_, hes⟩ := ih hv
        exact ⟨_, hes.fixed⟩
      | token t =>
        obtain ⟨v, rfl, hv⟩ := h
        obtain ⟨_, hes⟩ := ih hv
        exact ⟨_, hes.token⟩
  · obtain ⟨es, h⟩ := h
    induction h with
    | nil => rfl
    | note _ ih => exact ih
    | fixed _ ih => exact ⟨_, _, rfl, rfl, ih⟩
    | token _ ih => exact ⟨_, rfl, ih⟩

@[simp] theorem spelled_nil : Spelled [] u ↔ u = [] := Iff.rfl

@[simp] theorem spelled_enter {r : Rule} : Spelled (.enter r :: p) u ↔ p.Spelled u := Iff.rfl

@[simp] theorem spelled_leave {r : Rule} : Spelled (.leave r :: p) u ↔ p.Spelled u := Iff.rfl

@[simp] theorem spelled_act {a : Action} : Spelled (.act a :: p) u ↔ p.Spelled u := Iff.rfl

@[simp] theorem spelled_token {t : Token} :
    Spelled (.token t :: p) u ↔ ∃ v, u = t :: v ∧ p.Spelled v := Iff.rfl

@[simp] theorem spelled_mark {m : Mark} :
    Spelled (.mark m :: p) u ↔ ∃ t v, u = t :: v ∧ t.kind = .mark m ∧ p.Spelled v := Iff.rfl

@[simp] theorem spelled_keyword {k : Keyword} :
    Spelled (.keyword k :: p) u ↔ ∃ t v, u = t :: v ∧ t.kind = .keyword k ∧ p.Spelled v := Iff.rfl

@[simp] theorem spelled_append :
    Spelled (p ++ q) u ↔ ∃ v w, u = v ++ w ∧ p.Spelled v ∧ q.Spelled w := by
  induction p generalizing u with
  | nil => simp
  | cons x p ih =>
    cases x with
    | note n => exact ih
    | fixed kind =>
      simp only [List.cons_append, Spelled, ih]
      refine ⟨fun h => ?_, fun h => ?_⟩
      · obtain ⟨t, _, rfl, ht, v, w, rfl, hv, hw⟩ := h
        exact ⟨t :: v, w, rfl, ⟨t, v, rfl, ht, hv⟩, hw⟩
      · obtain ⟨_, w, rfl, ⟨t, v, rfl, ht, hv⟩, hw⟩ := h
        exact ⟨t, v ++ w, rfl, ht, v, w, rfl, hv, hw⟩
    | token t =>
      simp only [List.cons_append, Spelled, ih]
      refine ⟨fun h => ?_, fun h => ?_⟩
      · obtain ⟨_, rfl, v, w, rfl, hv, hw⟩ := h
        exact ⟨t :: v, w, rfl, ⟨v, rfl, hv⟩, hw⟩
      · obtain ⟨_, w, rfl, ⟨v, rfl, hv⟩, hw⟩ := h
        exact ⟨v ++ w, rfl, v, w, rfl, hv, hw⟩

theorem Spelled.append {v : List Token} (hp : p.Spelled u) (hq : q.Spelled v) :
    (p ++ q).Spelled (u ++ v) :=
  spelled_append.mpr ⟨u, v, rfl, hp, hq⟩

theorem Spelled.braced {t t' : Token} (ht : t.kind = .mark .leftBrace) (h : p.Spelled u)
    (ht' : t'.kind = .mark .rightBrace) : (bracedScript p).Spelled ([t] ++ u ++ [t']) := by
  have hfirst : Spelled [.mark .leftBrace, .enter .statements] [t] := by simp [ht]
  have hlast : Spelled [.leave .statements, .mark .rightBrace] [t'] := by simp [ht']
  exact (hfirst.append h).append hlast

theorem Spelled.guarded {t t' : Token} {v : List Token} {condition : Expression}
    (tested : Action) (ht : t.kind = .mark .leftParen) (h : condition.script.Spelled u)
    (ht' : t'.kind = .mark .rightParen) (hp : (bracedScript p).Spelled v) :
    (guardedScript condition tested p).Spelled ([t] ++ u ++ [t'] ++ v) := by
  have hfirst : Spelled [.mark .leftParen] [t] := by simp [ht]
  have hlast : Spelled [.mark .rightParen, .act tested] [t'] := by simp [ht']
  exact ((hfirst.append h).append hlast).append hp

end Script

/-! ## Trees as an interpretation -/

def Lengthens (u : List Token) : Prop :=
  ∃ f : Block → Block, ∀ next v, next.script.Spelled v → (f next).script.Spelled (u ++ v)

def Nonterminal.Tree (u : List Token) : Nonterminal → Prop
  | .classDec => ∃ c : ClassDec, c.script.Spelled u
  | .classVarDecs => ∃ ds : List ClassVarDec, Script.Spelled (ds.flatMap ClassVarDec.script) u
  | .classVarDec => ∃ d : ClassVarDec, d.script.Spelled u
  | .type => ∃ type : Leaf variableTypes, u = [type.token]
  | .moreNames => ∃ names : List Name, ∀ kind type, (moreNamesScript kind type names).Spelled u
  | .subroutineDecs =>
    ∃ ss : List SubroutineDec, Script.Spelled (ss.flatMap SubroutineDec.script) u
  | .subroutineDec => ∃ s : SubroutineDec, s.script.Spelled u
  | .resultType => ∃ type : Leaf resultTypes, u = [type.token]
  | .parameterList => ∃ ps : List Parameter, (parametersScript ps).Spelled u
  | .moreParameters => ∃ ps : List Parameter, (moreParametersScript ps).Spelled u
  | .subroutineBody => ∃ (locals : List Declared) (body : Block),
      Script.Spelled (.mark .leftBrace :: (locals.flatMap localsScript ++
        (body.script ++ [.mark .rightBrace]))) u
  | .varDecs => ∃ ds : List Declared, Script.Spelled (ds.flatMap localsScript) u
  | .varDec => ∃ d : Declared, (localsScript d).Spelled u
  | .statements => ∃ b : Block, b.script.Spelled u
  | .statement => Lengthens u
  | .letStatement => Lengthens u
  | .ifStatement => Lengthens u
  | .whileStatement => Lengthens u
  | .doStatement => Lengthens u
  | .returnStatement => Lengthens u
  | .expression => ∃ e : Expression, e.script.Spelled u
  | .operations => ∃ e : Operations, e.script.Spelled u
  | .op => ∃ op : BinaryOp, Script.Spelled [.mark op.mark] u
  | .term => ∃ e : Term, e.script.Spelled u
  | .keywordConstant => ∃ word : Word, Script.Spelled [.keyword word.keyword] u
  | .unaryOp => ∃ op : UnaryOp, Script.Spelled [.mark op.mark] u
  | .subroutineCall => ∃ (target : CallName) (arguments : Arguments),
      (target.script arguments.script arguments.length).Spelled u
  | .expressionList => ∃ e : Arguments, e.script.Spelled u
  | .moreExpressions => ∃ e : Arguments, ∀ count, (e.moreScript count).Spelled u

namespace Grammar

def Builds (n : Nonterminal) (p : Form) : Prop :=
  ∀ u, Row (fun n u => n.Tree u) p u → n.Tree u

theorem builds_expression : ∀ p ∈ alternatives .expression, Builds .expression p := by
  simp only [alternatives, List.forall_mem_singleton]
  intro u h
  obtain ⟨v, _, rfl, ⟨first, hfirst⟩, w, _, rfl, ⟨rest, hrest⟩, rfl⟩ := h
  have hparts : Script.Spelled (first.script ++ rest.script) (v ++ w) :=
    Script.spelled_append.mpr ⟨v, w, rfl, hfirst, hrest⟩
  exact ⟨.mk first rest, by simpa [Expression.script] using hparts⟩

theorem builds_term : ∀ p ∈ alternatives .term, Builds .term p := by
  simp only [alternatives, List.forall_mem_cons]
  refine ⟨?_, ?_, ?_, ?_, ?_, ?_, ?_, ?_, by simp⟩
  · intro u h
    obtain ⟨t, _, rfl, ht, rfl⟩ := h
    exact ⟨.integer ⟨t, List.mem_singleton.mpr ht⟩, by simp [Term.script]⟩
  · intro u h
    obtain ⟨t, _, rfl, ht, rfl⟩ := h
    exact ⟨.text ⟨t, List.mem_singleton.mpr ht⟩, by simp [Term.script]⟩
  · intro u h
    obtain ⟨v, _, rfl, ⟨word, hword⟩, rfl⟩ := h
    exact ⟨.word word, by simpa [Term.script] using hword⟩
  · intro u h
    obtain ⟨t, _, rfl, ht, rfl⟩ := h
    exact ⟨.var ⟨t, List.mem_singleton.mpr ht⟩, by simp [Term.script]⟩
  · intro u h
    obtain ⟨t, _, rfl, ht, b, _, rfl, hb, v, _, rfl, ⟨index, hindex⟩, b', _, rfl, hb', rfl⟩ := h
    exact ⟨.element ⟨t, List.mem_singleton.mpr ht⟩ index, by simp [Term.script, hb, hindex, hb']⟩
  · intro u h
    obtain ⟨v, _, rfl, ⟨target, arguments, hcall⟩, rfl⟩ := h
    exact ⟨.call target arguments, by simpa [Term.script] using hcall⟩
  · intro u h
    obtain ⟨b, _, rfl, hb, v, _, rfl, ⟨inner, hinner⟩, b', _, rfl, hb', rfl⟩ := h
    exact ⟨.group inner, by simp [Term.script, hb, hinner, hb']⟩
  · intro u h
    obtain ⟨v, _, rfl, ⟨op, hop⟩, w, _, rfl, ⟨operand, hoperand⟩, rfl⟩ := h
    obtain ⟨t, rfl, ht⟩ : ∃ t, v = [t] ∧ t.kind = .mark op.mark := by simpa using hop
    exact ⟨.unary op operand, by simp [Term.script, ht, hoperand]⟩

theorem builds_operations : ∀ p ∈ alternatives .operations, Builds .operations p := by
  simp only [alternatives, List.forall_mem_cons]
  refine ⟨?_, ?_, by simp⟩
  · intro u h
    obtain rfl : u = [] := h
    exact ⟨.nil, by simp [Operations.script]⟩
  · intro u h
    obtain ⟨v, _, rfl, ⟨op, hop⟩, w, _, rfl, ⟨operand, hoperand⟩, x, _, rfl, ⟨rest, hrest⟩, rfl⟩ := h
    obtain ⟨t, rfl, ht⟩ : ∃ t, v = [t] ∧ t.kind = .mark op.mark := by simpa using hop
    have hparts : Script.Spelled (operand.script ++ rest.script) (w ++ x) :=
      Script.spelled_append.mpr ⟨w, x, rfl, hoperand, hrest⟩
    exact ⟨.cons op operand rest, by simpa [Operations.script, ht] using hparts⟩

theorem builds_op : ∀ p ∈ alternatives .op, Builds .op p := by
  intro p hp u h
  obtain ⟨m, hm, rfl⟩ := List.mem_map.mp hp
  obtain ⟨t, _, rfl, ht, rfl⟩ := h
  obtain ⟨op, hop⟩ : ∃ op : BinaryOp, op.mark = m := by
    simp only [List.mem_cons, List.not_mem_nil, or_false] at hm
    rcases hm with rfl | rfl | rfl | rfl | rfl | rfl | rfl | rfl | rfl
    exacts [⟨.add, rfl⟩, ⟨.sub, rfl⟩, ⟨.mul, rfl⟩, ⟨.div, rfl⟩, ⟨.and, rfl⟩, ⟨.or, rfl⟩, ⟨.lt, rfl⟩,
      ⟨.gt, rfl⟩, ⟨.eq, rfl⟩]
  exact ⟨op, by simp [hop, ht]⟩

theorem builds_keywordConstant :
    ∀ p ∈ alternatives .keywordConstant, Builds .keywordConstant p := by
  intro p hp u h
  obtain ⟨k, hk, rfl⟩ := List.mem_map.mp hp
  obtain ⟨t, _, rfl, ht, rfl⟩ := h
  obtain ⟨word, hword⟩ : ∃ word : Word, word.keyword = k := by
    simp only [List.mem_cons, List.not_mem_nil, or_false] at hk
    rcases hk with rfl | rfl | rfl | rfl
    exacts [⟨.true, rfl⟩, ⟨.false, rfl⟩, ⟨.null, rfl⟩, ⟨.this, rfl⟩]
  exact ⟨word, by simp [hword, ht]⟩

theorem builds_unaryOp : ∀ p ∈ alternatives .unaryOp, Builds .unaryOp p := by
  simp only [alternatives, List.forall_mem_cons]
  refine ⟨?_, ?_, by simp⟩
  · intro u h
    obtain ⟨t, _, rfl, ht, rfl⟩ := h
    exact ⟨.neg, by simp [UnaryOp.mark, ht]⟩
  · intro u h
    obtain ⟨t, _, rfl, ht, rfl⟩ := h
    exact ⟨.not, by simp [UnaryOp.mark, ht]⟩

theorem builds_subroutineCall : ∀ p ∈ alternatives .subroutineCall, Builds .subroutineCall p := by
  simp only [alternatives, List.forall_mem_cons]
  refine ⟨?_, ?_, by simp⟩
  · intro u h
    obtain ⟨t, _, rfl, ht, b, _, rfl, hb, v, _, rfl, ⟨arguments, hv⟩, b', _, rfl, hb', rfl⟩ := h
    refine ⟨.own ⟨t, List.mem_singleton.mpr ht⟩, arguments, ?_⟩
    simp [CallName.script, CallName.nameScript, callEndScript, hb, hv, hb']
  · intro u h
    obtain ⟨t, _, rfl, ht, d, _, rfl, hd, t', _, rfl, ht', h⟩ := h
    obtain ⟨b, _, rfl, hb, v, _, rfl, ⟨arguments, hv⟩, b', _, rfl, hb', rfl⟩ := h
    refine ⟨.member ⟨t, List.mem_singleton.mpr ht⟩ ⟨t', List.mem_singleton.mpr ht'⟩, arguments, ?_⟩
    simp [CallName.script, CallName.nameScript, callEndScript, hd, hb, hv, hb']

theorem builds_expressionList : ∀ p ∈ alternatives .expressionList, Builds .expressionList p := by
  simp only [alternatives, List.forall_mem_cons]
  refine ⟨?_, ?_, by simp⟩
  · intro u h
    obtain rfl : u = [] := h
    exact ⟨.nil, by simp [Arguments.script]⟩
  · intro u h
    obtain ⟨v, _, rfl, ⟨first, hfirst⟩, w, _, rfl, ⟨rest, hrest⟩, rfl⟩ := h
    refine ⟨.cons first rest, ?_⟩
    rw [List.append_nil, Arguments.script, List.append_assoc]
    exact Script.spelled_append.mpr ⟨v, w, rfl, hfirst, hrest 1⟩

theorem builds_moreExpressions :
    ∀ p ∈ alternatives .moreExpressions, Builds .moreExpressions p := by
  simp only [alternatives, List.forall_mem_cons]
  refine ⟨?_, ?_, by simp⟩
  · intro u h
    obtain rfl : u = [] := h
    exact ⟨.nil, by simp [Arguments.moreScript]⟩
  · intro u h
    obtain ⟨t, _, rfl, ht, v, _, rfl, ⟨first, hfirst⟩, w, _, rfl, ⟨rest, hrest⟩, rfl⟩ := h
    refine ⟨.cons first rest, fun count => ?_⟩
    rw [List.append_nil, Arguments.moreScript, List.append_assoc, List.append_assoc,
      List.singleton_append]
    exact ⟨t, _, rfl, ht, Script.spelled_append.mpr ⟨v, w, rfl, hfirst, hrest (count + 1)⟩⟩

theorem builds_statements : ∀ p ∈ alternatives .statements, Builds .statements p := by
  simp only [alternatives, List.forall_mem_cons]
  refine ⟨?_, ?_, by simp⟩
  · intro u h
    obtain rfl : u = [] := h
    exact ⟨.empty, by simp [Block.script]⟩
  · intro u h
    obtain ⟨v, _, rfl, ⟨f, hf⟩, w, _, rfl, ⟨b, hb⟩, rfl⟩ := h
    exact ⟨f b, by simpa using hf b w hb⟩

theorem builds_statement : ∀ p ∈ alternatives .statement, Builds .statement p := by
  simp only [alternatives, List.forall_mem_cons]
  refine ⟨?_, ?_, ?_, ?_, ?_, by simp⟩
  all_goals
    intro u h
    obtain ⟨v, _, rfl, hv, rfl⟩ := h
    rw [List.append_nil]
    exact hv

theorem builds_letStatement : ∀ p ∈ alternatives .letStatement, Builds .letStatement p := by
  simp only [alternatives, List.forall_mem_cons]
  refine ⟨?_, ?_, by simp⟩
  · intro u h
    obtain ⟨k, _, rfl, hk, t, _, rfl, ht, e, _, rfl, he, v, _, rfl, ⟨value, hvalue⟩, h⟩ := h
    obtain ⟨s, _, rfl, hs, rfl⟩ := h
    refine ⟨.let_ (.var ⟨t, List.mem_singleton.mpr ht⟩) value, fun next w hnext => ?_⟩
    have hfirst : Script.Spelled [.enter .letStatement, .keyword .let_, .token t,
        .act (.resolve t), .mark .eq] [k, t, e] := by simp [hk, he]
    have hlast : Script.Spelled [.act (.store t), .mark .semicolon, .leave .letStatement] [s] := by
      simp [hs]
    have hall := ((hfirst.append hvalue).append hlast).append hnext
    simpa only [Block.script, assignmentScript, Target.script, Target.stored, List.append_assoc,
      List.cons_append, List.nil_append] using hall
  · intro u h
    obtain ⟨k, _, rfl, hk, t, _, rfl, ht, b, _, rfl, hb, v, _, rfl, ⟨index, hindex⟩, h⟩ := h
    obtain ⟨b', _, rfl, hb', e, _, rfl, he, v', _, rfl, ⟨value, hvalue⟩, s, _, rfl, hs, rfl⟩ := h
    refine ⟨.let_ (.element ⟨t, List.mem_singleton.mpr ht⟩ index) value, fun next w hnext => ?_⟩
    have hfirst : Script.Spelled [.enter .letStatement, .keyword .let_, .token t,
        .act (.resolve t), .mark .leftBracket] [k, t, b] := by simp [hk, hb]
    have hmiddle : Script.Spelled [.act (.addressElement t), .mark .rightBracket, .mark .eq]
        [b', e] := by simp [hb', he]
    have hlast : Script.Spelled [.act .storeElement, .mark .semicolon, .leave .letStatement] [s] := by
      simp [hs]
    have hall := ((((hfirst.append hindex).append hmiddle).append hvalue).append hlast).append hnext
    simpa only [Block.script, assignmentScript, Target.script, Target.stored, List.append_assoc,
      List.cons_append, List.nil_append] using hall

theorem builds_ifStatement : ∀ p ∈ alternatives .ifStatement, Builds .ifStatement p := by
  simp only [alternatives, List.forall_mem_cons]
  refine ⟨?_, ?_, by simp⟩
  · intro u h
    obtain ⟨k, _, rfl, hk, b, _, rfl, hb, v, _, rfl, ⟨condition, hcondition⟩, h⟩ := h
    obtain ⟨b', _, rfl, hb', c, _, rfl, hc, x, _, rfl, ⟨yes, hyes⟩, c', _, rfl, hc', rfl⟩ := h
    refine ⟨.if_ condition yes, fun next w hnext => ?_⟩
    have hfirst : Script.Spelled [.enter .ifStatement, .act .startIf, .keyword .if_] [k] := by
      simp [hk]
    have hguarded := Script.Spelled.guarded .branchIf hb hcondition hb' (.braced hc hyes hc')
    have hlast : Script.Spelled [.act .endIf, .leave .ifStatement] [] := by simp
    have hall := ((hfirst.append hguarded).append hlast).append hnext
    simpa only [Block.script, List.append_assoc, List.cons_append, List.nil_append] using hall
  · intro u h
    obtain ⟨k, _, rfl, hk, b, _, rfl, hb, v, _, rfl, ⟨condition, hcondition⟩, h⟩ := h
    obtain ⟨b', _, rfl, hb', c, _, rfl, hc, x, _, rfl, ⟨yes, hyes⟩, c', _, rfl, hc', h⟩ := h
    obtain ⟨l, _, rfl, hl, d, _, rfl, hd, y, _, rfl, ⟨no, hno⟩, d', _, rfl, hd', rfl⟩ := h
    refine ⟨.ifElse condition yes no, fun next w hnext => ?_⟩
    have hfirst : Script.Spelled [.enter .ifStatement, .act .startIf, .keyword .if_] [k] := by
      simp [hk]
    have hguarded := Script.Spelled.guarded .branchIf hb hcondition hb' (.braced hc hyes hc')
    have helse : Script.Spelled [.act .elseIf, .keyword .else_] [l] := by simp [hl]
    have hno := Script.Spelled.braced hd hno hd'
    have hlast : Script.Spelled [.act .endElse, .leave .ifStatement] [] := by simp
    have hall := ((((hfirst.append hguarded).append helse).append hno).append hlast).append hnext
    simpa only [Block.script, List.append_assoc, List.cons_append, List.nil_append] using hall

theorem builds_whileStatement : ∀ p ∈ alternatives .whileStatement, Builds .whileStatement p := by
  simp only [alternatives, List.forall_mem_singleton]
  intro u h
  obtain ⟨k, _, rfl, hk, b, _, rfl, hb, v, _, rfl, ⟨condition, hcondition⟩, h⟩ := h
  obtain ⟨b', _, rfl, hb', c, _, rfl, hc, x, _, rfl, ⟨body, hbody⟩, c', _, rfl, hc', rfl⟩ := h
  refine ⟨.while_ condition body, fun next w hnext => ?_⟩
  have hfirst : Script.Spelled [.enter .whileStatement, .act .startWhile, .keyword .while_] [k] := by
    simp [hk]
  have hguarded := Script.Spelled.guarded .testWhile hb hcondition hb' (.braced hc hbody hc')
  have hlast : Script.Spelled [.act .endWhile, .leave .whileStatement] [] := by simp
  have hall := ((hfirst.append hguarded).append hlast).append hnext
  simpa only [Block.script, List.append_assoc, List.cons_append, List.nil_append] using hall

theorem builds_doStatement : ∀ p ∈ alternatives .doStatement, Builds .doStatement p := by
  simp only [alternatives, List.forall_mem_singleton]
  intro u h
  obtain ⟨k, _, rfl, hk, v, _, rfl, ⟨target, arguments, hcall⟩, s, _, rfl, hs, rfl⟩ := h
  refine ⟨.do_ target arguments, fun next w hnext => ?_⟩
  have hfirst : Script.Spelled [.enter .doStatement, .keyword .do_] [k] := by simp [hk]
  have hlast : Script.Spelled [.mark .semicolon, .act .discard, .leave .doStatement] [s] := by
    simp [hs]
  have hall := ((hfirst.append hcall).append hlast).append hnext
  simpa only [Block.script, List.append_assoc, List.cons_append, List.nil_append] using hall

theorem builds_returnStatement :
    ∀ p ∈ alternatives .returnStatement, Builds .returnStatement p := by
  simp only [alternatives, List.forall_mem_cons]
  have hfirst : ∀ k : Token, k.kind = .keyword .return_ →
      Script.Spelled [.enter .returnStatement, .keyword .return_] [k] := fun k hk => by simp [hk]
  have hlast : ∀ s : Token, s.kind = .mark .semicolon → Script.Spelled
      [.mark .semicolon, .act .leaveSubroutine, .leave .returnStatement] [s] := fun s hs => by
    simp [hs]
  refine ⟨?_, ?_, by simp⟩
  · intro u h
    obtain ⟨k, _, rfl, hk, s, _, rfl, hs, rfl⟩ := h
    refine ⟨.return_ none, fun next w hnext => ?_⟩
    have hresult : (resultScript none).Spelled [] := by simp [resultScript]
    have hall := (((hfirst k hk).append hresult).append (hlast s hs)).append hnext
    simpa only [Block.script, List.append_assoc, List.cons_append, List.nil_append] using hall
  · intro u h
    obtain ⟨k, _, rfl, hk, v, _, rfl, ⟨value, hvalue⟩, s, _, rfl, hs, rfl⟩ := h
    refine ⟨.return_ (some value), fun next w hnext => ?_⟩
    have hresult : (resultScript (some value)).Spelled v := hvalue
    have hall := (((hfirst k hk).append hresult).append (hlast s hs)).append hnext
    simpa only [Block.script, List.append_assoc, List.cons_append, List.nil_append] using hall

theorem builds_type : ∀ p ∈ alternatives .type, Builds .type p := by
  simp only [alternatives, List.forall_mem_cons]
  refine ⟨?_, ?_, ?_, ?_, by simp⟩
  all_goals
    intro u h
    obtain ⟨t, _, rfl, ht, rfl⟩ := h
    exact ⟨⟨t, by simp [ht, variableTypes]⟩, rfl⟩

theorem builds_resultType : ∀ p ∈ alternatives .resultType, Builds .resultType p := by
  simp only [alternatives, List.forall_mem_cons]
  refine ⟨?_, ?_, by simp⟩
  · intro u h
    obtain ⟨_, _, rfl, ⟨type, rfl⟩, rfl⟩ := h
    exact ⟨⟨type.token, List.mem_cons_of_mem _ type.kind_mem⟩, rfl⟩
  · intro u h
    obtain ⟨t, _, rfl, ht, rfl⟩ := h
    exact ⟨⟨t, by simp [ht, resultTypes]⟩, rfl⟩

theorem builds_moreNames : ∀ p ∈ alternatives .moreNames, Builds .moreNames p := by
  simp only [alternatives, List.forall_mem_cons]
  refine ⟨?_, ?_, by simp⟩
  · intro u h
    obtain rfl : u = [] := h
    exact ⟨[], fun kind type => by simp [moreNamesScript]⟩
  · intro u h
    obtain ⟨c, _, rfl, hc, t, _, rfl, ht, v, _, rfl, ⟨names, hnames⟩, rfl⟩ := h
    refine ⟨⟨t, List.mem_singleton.mpr ht⟩ :: names, fun kind type => ?_⟩
    simpa [moreNamesScript, nameScript, hc] using hnames kind type

theorem spelled_declared {t s : Token} {names : List Name} {v : List Token}
    (kind : VariableKind) (type : Leaf variableTypes) (ht : t.kind = .ident)
    (hnames : ∀ kind type, (moreNamesScript kind type names).Spelled v)
    (hs : s.kind = .mark .semicolon) :
    (Declared.script kind ⟨type, ⟨t, List.mem_singleton.mpr ht⟩, names⟩).Spelled
      ([type.token, t] ++ v ++ [s]) := by
  have hfirst : Script.Spelled ([.token type.token] ++
      nameScript kind type.token ⟨t, List.mem_singleton.mpr ht⟩) [type.token, t] := by
    simp [nameScript]
  have hlast : Script.Spelled [.mark .semicolon] [s] := by simp [hs]
  exact (hfirst.append (hnames kind type.token)).append hlast

theorem builds_classVarDec : ∀ p ∈ alternatives .classVarDec, Builds .classVarDec p := by
  have hlast : Script.Spelled [.leave .classVarDec] [] := by simp
  simp only [alternatives, List.forall_mem_cons]
  refine ⟨?_, ?_, by simp⟩
  · intro u h
    obtain ⟨k, _, rfl, hk, _, _, rfl, ⟨type, rfl⟩, t, _, rfl, ht, v, _, rfl, ⟨names, hnames⟩, h⟩ := h
    obtain ⟨s, _, rfl, hs, rfl⟩ := h
    refine ⟨⟨.static, rfl, type, ⟨t, List.mem_singleton.mpr ht⟩, names⟩, ?_⟩
    have hfirst : Script.Spelled [.enter .classVarDec, .keyword .static] [k] := by simp [hk]
    have hall := (hfirst.append (spelled_declared .static type ht hnames hs)).append hlast
    simpa only [ClassVarDec.script, VariableKind.keyword, List.append_assoc, List.cons_append,
      List.nil_append] using hall
  · intro u h
    obtain ⟨k, _, rfl, hk, _, _, rfl, ⟨type, rfl⟩, t, _, rfl, ht, v, _, rfl, ⟨names, hnames⟩, h⟩ := h
    obtain ⟨s, _, rfl, hs, rfl⟩ := h
    refine ⟨⟨.field, rfl, type, ⟨t, List.mem_singleton.mpr ht⟩, names⟩, ?_⟩
    have hfirst : Script.Spelled [.enter .classVarDec, .keyword .field] [k] := by simp [hk]
    have hall := (hfirst.append (spelled_declared .field type ht hnames hs)).append hlast
    simpa only [ClassVarDec.script, VariableKind.keyword, List.append_assoc, List.cons_append,
      List.nil_append] using hall

theorem builds_varDec : ∀ p ∈ alternatives .varDec, Builds .varDec p := by
  simp only [alternatives, List.forall_mem_singleton]
  intro u h
  obtain ⟨k, _, rfl, hk, _, _, rfl, ⟨type, rfl⟩, t, _, rfl, ht, v, _, rfl, ⟨names, hnames⟩, h⟩ := h
  obtain ⟨s, _, rfl, hs, rfl⟩ := h
  refine ⟨⟨type, ⟨t, List.mem_singleton.mpr ht⟩, names⟩, ?_⟩
  have hfirst : Script.Spelled [.enter .varDec, .keyword .var] [k] := by simp [hk]
  have hlast : Script.Spelled [.leave .varDec] [] := by simp
  have hall := (hfirst.append (spelled_declared .local type ht hnames hs)).append hlast
  simpa only [localsScript, List.append_assoc, List.cons_append, List.nil_append] using hall

theorem builds_classVarDecs : ∀ p ∈ alternatives .classVarDecs, Builds .classVarDecs p := by
  simp only [alternatives, List.forall_mem_cons]
  refine ⟨?_, ?_, by simp⟩
  · intro u h
    obtain rfl : u = [] := h
    exact ⟨[], Script.spelled_nil.mpr rfl⟩
  · intro u h
    obtain ⟨v, _, rfl, ⟨d, hd⟩, w, _, rfl, ⟨ds, hds⟩, rfl⟩ := h
    rw [List.append_nil]
    exact ⟨d :: ds, hd.append hds⟩

theorem builds_varDecs : ∀ p ∈ alternatives .varDecs, Builds .varDecs p := by
  simp only [alternatives, List.forall_mem_cons]
  refine ⟨?_, ?_, by simp⟩
  · intro u h
    obtain rfl : u = [] := h
    exact ⟨[], Script.spelled_nil.mpr rfl⟩
  · intro u h
    obtain ⟨v, _, rfl, ⟨d, hd⟩, w, _, rfl, ⟨ds, hds⟩, rfl⟩ := h
    rw [List.append_nil]
    exact ⟨d :: ds, hd.append hds⟩

theorem builds_subroutineDecs : ∀ p ∈ alternatives .subroutineDecs, Builds .subroutineDecs p := by
  simp only [alternatives, List.forall_mem_cons]
  refine ⟨?_, ?_, by simp⟩
  · intro u h
    obtain rfl : u = [] := h
    exact ⟨[], Script.spelled_nil.mpr rfl⟩
  · intro u h
    obtain ⟨v, _, rfl, ⟨s, hs⟩, w, _, rfl, ⟨ss, hss⟩, rfl⟩ := h
    rw [List.append_nil]
    exact ⟨s :: ss, hs.append hss⟩

theorem spelled_parameter (type : Leaf variableTypes) (name : Name) :
    (Parameter.script ⟨type, name⟩).Spelled [type.token, name.token] := by
  simp [Parameter.script, nameScript]

theorem builds_moreParameters : ∀ p ∈ alternatives .moreParameters, Builds .moreParameters p := by
  simp only [alternatives, List.forall_mem_cons]
  refine ⟨?_, ?_, by simp⟩
  · intro u h
    obtain rfl : u = [] := h
    exact ⟨[], Script.spelled_nil.mpr rfl⟩
  · intro u h
    obtain ⟨c, _, rfl, hc, _, _, rfl, ⟨type, rfl⟩, t, _, rfl, ht, v, _, rfl, ⟨ps, hps⟩, rfl⟩ := h
    refine ⟨⟨type, ⟨t, List.mem_singleton.mpr ht⟩⟩ :: ps, ?_⟩
    have hcomma : Script.Spelled [.mark .comma] [c] := by simp [hc]
    have hall := (hcomma.append (spelled_parameter type ⟨t, List.mem_singleton.mpr ht⟩)).append hps
    simpa only [moreParametersScript, List.flatMap_cons, List.append_assoc, List.cons_append,
      List.nil_append, List.append_nil] using hall

theorem builds_parameterList : ∀ p ∈ alternatives .parameterList, Builds .parameterList p := by
  simp only [alternatives, List.forall_mem_cons]
  refine ⟨?_, ?_, by simp⟩
  · intro u h
    obtain rfl : u = [] := h
    exact ⟨[], Script.spelled_nil.mpr rfl⟩
  · intro u h
    obtain ⟨_, _, rfl, ⟨type, rfl⟩, t, _, rfl, ht, v, _, rfl, ⟨ps, hps⟩, rfl⟩ := h
    rw [List.append_nil]
    exact ⟨⟨type, ⟨t, List.mem_singleton.mpr ht⟩⟩ :: ps,
      (spelled_parameter type ⟨t, List.mem_singleton.mpr ht⟩).append hps⟩

theorem builds_subroutineBody : ∀ p ∈ alternatives .subroutineBody, Builds .subroutineBody p := by
  simp only [alternatives, List.forall_mem_singleton]
  intro u h
  obtain ⟨b, _, rfl, hb, v, _, rfl, ⟨locals, hlocals⟩, w, _, rfl, ⟨body, hbody⟩, h⟩ := h
  obtain ⟨b', _, rfl, hb', rfl⟩ := h
  have hlast : Script.Spelled [.mark .rightBrace] [b'] := by simp [hb']
  exact ⟨locals, body, Script.spelled_mark.mpr ⟨b, _, rfl, hb, hlocals.append (hbody.append hlast)⟩⟩

theorem builds_subroutineDec : ∀ p ∈ alternatives .subroutineDec, Builds .subroutineDec p := by
  intro p hp u h
  obtain ⟨keyword, hkeyword, rfl⟩ := List.mem_map.mp hp
  obtain ⟨k, _, rfl, hk, _, _, rfl, ⟨type, rfl⟩, t, _, rfl, ht, b, _, rfl, hb, h⟩ := h
  obtain ⟨v, _, rfl, ⟨ps, hps⟩, b', _, rfl, hb', _, _, rfl, ⟨locals, body, h⟩, rfl⟩ := h
  obtain ⟨c, _, rfl, hc, h⟩ := Script.spelled_mark.mp h
  obtain ⟨w, _, rfl, hlocals, h⟩ := Script.spelled_append.mp h
  obtain ⟨x, _, rfl, hbody, h⟩ := Script.spelled_append.mp h
  obtain ⟨c', _, rfl, hc', h⟩ := Script.spelled_mark.mp h
  obtain rfl := Script.spelled_nil.mp h
  obtain ⟨kind, rfl⟩ : ∃ kind : SubroutineKind, kind.keyword = keyword := by
    simp only [List.mem_cons, List.not_mem_nil, or_false] at hkeyword
    rcases hkeyword with rfl | rfl | rfl
    exacts [⟨.constructor, rfl⟩, ⟨.function, rfl⟩, ⟨.method, rfl⟩]
  refine ⟨⟨kind, type, ⟨t, List.mem_singleton.mpr ht⟩, ps, locals, body⟩, ?_⟩
  have hfirst : Script.Spelled [.enter .subroutineDec, .act .startSubroutine,
      .keyword kind.keyword] [k] := by simp [hk]
  have hreceiver : Script.Spelled (if kind = .method then [.act .receiveObject] else []) [] := by
    split <;> simp
  have hname : Script.Spelled [.token type.token, .token t, .act (.nameSubroutine t),
      .mark .leftParen, .enter .parameterList] [type.token, t, b] := by simp [hb]
  have hopen : Script.Spelled [.leave .parameterList, .mark .rightParen, .enter .subroutineBody,
      .mark .leftBrace] [b', c] := by simp [hb', hc]
  have hstart : Script.Spelled [.act (.startBody kind), .enter .statements] [] := by simp
  have hlast : Script.Spelled [.leave .statements, .mark .rightBrace, .leave .subroutineBody,
      .act (.endBody kind), .leave .subroutineDec] [c'] := by simp [hc']
  have hall := (((((((hfirst.append hreceiver).append hname).append hps).append hopen).append
    hlocals).append hstart).append hbody).append hlast
  simpa only [SubroutineDec.script, List.append_assoc, List.cons_append, List.nil_append,
    List.append_nil] using hall

theorem builds_classDec : ∀ p ∈ alternatives .classDec, Builds .classDec p := by
  simp only [alternatives, List.forall_mem_singleton]
  intro u h
  obtain ⟨k, _, rfl, hk, t, _, rfl, ht, b, _, rfl, hb, v, _, rfl, ⟨ds, hds⟩, h⟩ := h
  obtain ⟨w, _, rfl, ⟨ss, hss⟩, b', _, rfl, hb', rfl⟩ := h
  refine ⟨⟨⟨t, List.mem_singleton.mpr ht⟩, ds, ss⟩, ?_⟩
  have hfirst : Script.Spelled [.enter .classDec, .keyword .class_, .token t, .act (.nameClass t),
      .mark .leftBrace] [k, t, b] := by simp [hk, hb]
  have hlast : Script.Spelled [.mark .rightBrace, .leave .classDec] [b'] := by simp [hb']
  have hall := ((hfirst.append hds).append hss).append hlast
  simpa only [ClassDec.script, List.append_assoc, List.cons_append, List.nil_append] using hall

theorem builds (n : Nonterminal) : ∀ p ∈ alternatives n, Builds n p := by
  cases n with
  | classDec => exact builds_classDec
  | classVarDecs => exact builds_classVarDecs
  | classVarDec => exact builds_classVarDec
  | type => exact builds_type
  | moreNames => exact builds_moreNames
  | subroutineDecs => exact builds_subroutineDecs
  | subroutineDec => exact builds_subroutineDec
  | resultType => exact builds_resultType
  | parameterList => exact builds_parameterList
  | moreParameters => exact builds_moreParameters
  | subroutineBody => exact builds_subroutineBody
  | varDecs => exact builds_varDecs
  | varDec => exact builds_varDec
  | statements => exact builds_statements
  | statement => exact builds_statement
  | letStatement => exact builds_letStatement
  | ifStatement => exact builds_ifStatement
  | whileStatement => exact builds_whileStatement
  | doStatement => exact builds_doStatement
  | returnStatement => exact builds_returnStatement
  | expression => exact builds_expression
  | operations => exact builds_operations
  | op => exact builds_op
  | term => exact builds_term
  | keywordConstant => exact builds_keywordConstant
  | unaryOp => exact builds_unaryOp
  | subroutineCall => exact builds_subroutineCall
  | expressionList => exact builds_expressionList
  | moreExpressions => exact builds_moreExpressions

end Grammar

end JackCompiler
