import JackCompiler.Proofs.Codegen.Passes
import JackCompiler.Proofs.Syntax.Pattern
import JackCompiler.Proofs.Token.Rendering

/-!
# Trees of scripts

Reading a script leaves trees in the grammar trace that conform to the patterns of the
rules. What a class leaves there is one tree, which is that of a class (`ClassDec.marks`).
-/

namespace JackCompiler

open scoped Computability

/-! ## Trees of scripts -/

def TraceLine.unplaced : TraceLine → TraceLine
  | .leaf t => .leaf (t.kind.placeless t.lexeme)
  | line => line

theorem TraceLine.text_unplaced (line : TraceLine) : line.unplaced.text = line.text := by
  cases line <;> rfl

structure Shows (ms : List Markup) (u : List Token) (es : List Event) : Prop where
  lines : (es.filterMap Event.line?).map TraceLine.unplaced = Markup.linesOf ms
  leaves : Markup.leavesOf ms = u.map Token.content
  conforms : ∀ m ∈ ms, m.Conforms

/-- Reading the script leaves trees in the trace, of which the labels are a word of `L`. -/
def Script.Marks (p : Script) (L : Language Label) : Prop :=
  ∀ u es, Reads p u es → ∃ ms, Shows ms u es ∧ ms.map Markup.label ∈ L

theorem linesOf_append (ms ns : List Markup) :
    Markup.linesOf (ms ++ ns) = Markup.linesOf ms ++ Markup.linesOf ns := by
  induction ms with
  | nil => rfl
  | cons m ms ih => rw [List.cons_append, Markup.linesOf, Markup.linesOf, ih, List.append_assoc]

theorem leavesOf_append (ms ns : List Markup) :
    Markup.leavesOf (ms ++ ns) = Markup.leavesOf ms ++ Markup.leavesOf ns := by
  induction ms with
  | nil => rfl
  | cons m ms ih => rw [List.cons_append, Markup.leavesOf, Markup.leavesOf, ih, List.append_assoc]

theorem Shows.append {ms ns : List Markup} {u v : List Token} {es fs : List Event}
    (hm : Shows ms u es) (hn : Shows ns v fs) : Shows (ms ++ ns) (u ++ v) (es ++ fs) := by
  refine ⟨?_, ?_, ?_⟩
  · rw [List.filterMap_append, List.map_append, hm.lines, hn.lines, linesOf_append]
  · rw [leavesOf_append, hm.leaves, hn.leaves, List.map_append]
  · intro m hmem
    rcases List.mem_append.mp hmem with hmem | hmem
    · exact hm.conforms m hmem
    · exact hn.conforms m hmem

namespace Script.Marks

variable {p q : Script} {L M : Language Label}

theorem nil : Marks [] 1 := by
  intro u es h
  cases h
  exact ⟨[], ⟨rfl, rfl, List.forall_mem_nil _⟩, rfl⟩

theorem mono (h : Marks p L) (hL : L ≤ M) : Marks p M := by
  intro u es hr
  obtain ⟨ms, hms, hlabels⟩ := h u es hr
  exact ⟨ms, hms, hL hlabels⟩

theorem append (hp : Marks p L) (hq : Marks q M) : Marks (p ++ q) (L * M) := by
  intro u es h
  obtain ⟨v, w, fs, gs, hfs, hgs, rfl, rfl⟩ := reads_append h
  obtain ⟨ms, hms, hL⟩ := hp v fs hfs
  obtain ⟨ns, hns, hM⟩ := hq w gs hgs
  refine ⟨ms ++ ns, hms.append hns, ?_⟩
  rw [List.map_append]
  exact Language.append_mem_mul hL hM

theorem act (a : Action) (h : Marks p L) : Marks (.act a :: p) L := by
  intro u es hr
  cases hr with
  | note hr =>
    obtain ⟨ms, hms, hL⟩ := h u _ hr
    exact ⟨ms, ⟨hms.lines, hms.leaves, hms.conforms⟩, hL⟩

theorem shows_leaf (t : Token) : Shows [.leaf t.kind t.lexeme] [t] [.take t] :=
  ⟨rfl, rfl, List.forall_mem_singleton.mpr .leaf⟩

theorem fixed (kind : Terminal) (h : Marks p L) :
    Marks (.fixed kind :: p) ((Pattern.terminal kind).matches' * L) := by
  intro u es hr
  cases hr with
  | @fixed t _ u es hr =>
    obtain ⟨ms, hms, hL⟩ := h u es hr
    exact ⟨_, (shows_leaf t).append hms,
      Language.append_mem_mul (Pattern.mem_terminal_iff.mpr rfl) hL⟩

theorem token (t : Token) (h : Marks p L) :
    Marks (.token t :: p) ((Pattern.terminal t.kind).matches' * L) := by
  intro u es hr
  cases hr with
  | token hr =>
    obtain ⟨ms, hms, hL⟩ := h _ _ hr
    exact ⟨_, (shows_leaf t).append hms,
      Language.append_mem_mul (Pattern.mem_terminal_iff.mpr rfl) hL⟩

theorem node (r : Rule) (hp : Marks p L) (hL : L ≤ r.pattern.matches') :
    Marks (.enter r :: (p ++ [Part.leave r])) (Pattern.part r).matches' := by
  intro u es h
  cases h with
  | note h =>
    obtain ⟨v, w, fs, gs, hfs, hgs, rfl, rfl⟩ := reads_append h
    cases hgs with
    | note hgs =>
      cases hgs
      obtain ⟨ms, hms, hlabels⟩ := hp v fs hfs
      refine ⟨[.node r ms], ⟨?_, ?_, ?_⟩, rfl⟩
      · simp [hms.lines, Markup.linesOf, Markup.lines, Event.line?, TraceLine.unplaced]
      · simp [hms.leaves, Markup.leavesOf, Markup.leaves]
      · exact List.forall_mem_singleton.mpr (.node (hL hlabels) hms.conforms)

theorem flatMap {α : Type} {f : α → Script} (h : ∀ x, Marks (f x) L) (xs : List α) :
    Marks (xs.flatMap f) L∗ := by
  induction xs with
  | nil => exact nil.mono one_le_kstar
  | cons x xs ih => exact ((h x).append ih).mono mul_kstar_le_kstar

theorem mark (m : Mark) (h : Marks p L) : Marks (.mark m :: p) ((Pattern.mark m).matches' * L) :=
  h.fixed (.mark m)

theorem keyword (k : Keyword) (h : Marks p L) :
    Marks (.keyword k :: p) ((Pattern.keyword k).matches' * L) :=
  h.fixed (.keyword k)

theorem name (name : Name) (h : Marks p L) :
    Marks (.token name.token :: p) (Pattern.ident.matches' * L) := by
  have hname := h.token name.token
  rwa [name.kind_eq] at hname

theorem choice {P : RegularExpression Label} {Ps : List (RegularExpression Label)}
    (h : Marks p P.matches') (hP : P ∈ Ps) : Marks p (Pattern.choice Ps).matches' :=
  h.mono (Pattern.le_choice hP)

theorem cast (h : Marks p L) (hq : q = p) (hM : L = M) : Marks q M := by
  rwa [hq, ← hM]

end Script.Marks

/-! ## Expressions -/

open Script RegularExpression

theorem marks_arguments (callee : Callee) (count : Nat) {arguments : Script}
    (h : Script.Marks (.enter .expressionList :: (arguments ++ [Part.leave .expressionList]))
      (Pattern.part .expressionList).matches') :
    Script.Marks (.act (.pushReceiver callee) :: .mark .leftParen :: .enter .expressionList ::
      (arguments ++ callEndScript callee count)) Pattern.arguments.matches' := by
  have hopen : Marks [.act (.pushReceiver callee), .mark .leftParen] _ := (Marks.nil.mark _).act _
  have hclose : Marks [.mark .rightParen, .act (.call callee count)] _ := (Marks.nil.act _).mark _
  refine ((hopen.append h).append hclose).cast (by simp [callEndScript]) ?_
  simp only [Pattern.arguments, matches'_mul, mul_one]

theorem CallName.marks (target : CallName) (count : Nat) {arguments : Script}
    (h : Script.Marks (.enter .expressionList :: (arguments ++ [Part.leave .expressionList]))
      (Pattern.part .expressionList).matches') :
    (target.script arguments count).Marks Pattern.subroutineCall.matches' := by
  have harguments := marks_arguments target.callee count h
  cases target with
  | own name =>
    have hcall : Marks ((CallName.own name).script arguments count)
        (Pattern.ident * Pattern.arguments).matches' :=
      ((Marks.nil.name name).append harguments).cast (by simp [script, nameScript])
        (by simp only [matches'_mul, mul_one])
    exact hcall.choice (by simp)
  | member qualifier name =>
    have hcall : Marks ((CallName.member qualifier name).script arguments count)
        (Pattern.ident * Pattern.mark .dot * Pattern.ident * Pattern.arguments).matches' :=
      ((((Marks.nil.name name).mark .dot).name qualifier).append harguments).cast
        (by simp [script, nameScript]) (by simp only [matches'_mul, mul_one, mul_assoc])
    exact hcall.choice (by simp)

theorem marks_index {index close : Script} (h : index.Marks (Pattern.part .expression).matches')
    (hclose : close.Marks (Pattern.mark .rightBracket).matches') :
    Script.Marks (.mark .leftBracket :: (index ++ close)) Pattern.index.matches' :=
  ((h.append hclose).mark .leftBracket).cast rfl
    (by simp only [Pattern.index, matches'_mul, mul_assoc])

theorem marks_word (word : Word) (a : Action) :
    Script.Marks [.keyword word.keyword, .act a] Pattern.keywordConstant.matches' := by
  have hkeyword : Marks [.keyword word.keyword, .act a]
      (Pattern.keyword word.keyword).matches' :=
    ((Marks.nil.act a).keyword _).cast rfl (mul_one _)
  refine hkeyword.choice ?_
  cases word <;> simp [Word.keyword]

theorem marks_unaryOp (op : UnaryOp) :
    Script.Marks [.mark op.mark] Pattern.unaryOp.matches' := by
  have hmark : Marks [.mark op.mark] (Pattern.mark op.mark).matches' :=
    (Marks.nil.mark _).cast rfl (mul_one _)
  refine hmark.choice ?_
  cases op <;> simp [UnaryOp.mark]

theorem marks_op (op : BinaryOp) : Script.Marks [.mark op.mark] Pattern.op.matches' := by
  have hmark : Marks [.mark op.mark] (Pattern.mark op.mark).matches' :=
    (Marks.nil.mark _).cast rfl (mul_one _)
  refine hmark.choice ?_
  cases op <;> simp [BinaryOp.mark]

theorem marks_constant {kind : Terminal} (literal : Leaf [kind]) (a : Action) :
    Script.Marks [.token literal.token, .act a] (Pattern.terminal kind).matches' := by
  refine ((Marks.nil.act a).token literal.token).cast rfl ?_
  rw [mul_one, literal.kind_eq]

theorem marks_term {p q : Script} {P : RegularExpression Label} (h : p.Marks P.matches')
    (hP : P ∈ [Pattern.terminal .number, Pattern.terminal .text, Pattern.keywordConstant,
      Pattern.ident, Pattern.ident * Pattern.index, Pattern.subroutineCall,
      Pattern.mark .leftParen * Pattern.part .expression * Pattern.mark .rightParen,
      Pattern.unaryOp * Pattern.part .term])
    (hq : q = .enter .term :: (p ++ [Part.leave .term])) : q.Marks (Pattern.part .term).matches' :=
  ((h.choice hP).node .term le_rfl).cast hq rfl

mutual

theorem Term.marks : ∀ e : Term, e.script.Marks (Pattern.part .term).matches'
  | .integer literal => marks_term (marks_constant literal _) (by simp) rfl
  | .text literal => marks_term (marks_constant literal _) (by simp) rfl
  | .word word => marks_term (marks_word word _) (by simp) rfl
  | .var name => by
    have hname : Marks [.token name.token, .act (.load name.token)] Pattern.ident.matches' :=
      ((Marks.nil.act _).name name).cast rfl (mul_one _)
    exact marks_term hname (by simp) rfl
  | .unary op operand => by
    have hoperand : Marks ([Part.mark op.mark] ++ operand.script ++ [Part.act (.unary op)])
        (Pattern.unaryOp * Pattern.part .term).matches' :=
      (((marks_unaryOp op).append operand.marks).append (Marks.nil.act _)).cast rfl (mul_one _)
    exact marks_term hoperand (by simp) (by simp [Term.script])
  | .group inner => by
    have hinner : Marks (.mark .leftParen :: (inner.script ++ [Part.mark .rightParen]))
        (Pattern.mark .leftParen * Pattern.part .expression *
          Pattern.mark .rightParen).matches' :=
      ((inner.marks.append (Marks.nil.mark _)).mark _).cast rfl
        (by simp only [matches'_mul, mul_one, mul_assoc])
    exact marks_term hinner (by simp) (by simp [Term.script])
  | .element array index => by
    have hindex : Marks (.token array.token :: .act (.resolve array.token) ::
        (.mark .leftBracket :: (index.script ++
          [Part.mark .rightBracket, .act (.loadElement array.token)])))
        (Pattern.ident * Pattern.index).matches' :=
      ((marks_index index.marks (((Marks.nil.act _).mark _).cast rfl (mul_one _))).act _).name array
    exact marks_term hindex (by simp) (by simp [Term.script])
  | .call target arguments => by
    have hcall := target.marks arguments.length
      (arguments.marks.node .expressionList le_rfl)
    exact marks_term hcall (by simp) rfl

theorem Expression.marks : ∀ e : Expression, e.script.Marks (Pattern.part .expression).matches'
  | .mk first rest =>
    ((first.marks.append rest.marks).node .expression le_rfl).cast (by simp [Expression.script]) rfl

theorem Operations.marks : ∀ rest : Operations,
    rest.script.Marks (star (Pattern.op * Pattern.part .term)).matches'
  | .nil => Marks.nil.mono one_le_kstar
  | .cons op operand rest => by
    have hfirst : Marks ([Part.mark op.mark] ++ operand.script ++ [Part.act (.binary op)])
        (Pattern.op * Pattern.part .term).matches' :=
      (((marks_op op).append operand.marks).append (Marks.nil.act _)).cast rfl (mul_one _)
    exact (hfirst.append rest.marks).mono mul_kstar_le_kstar

theorem Arguments.marks : ∀ arguments : Arguments,
    arguments.script.Marks (Rule.pattern .expressionList).matches'
  | .nil => Marks.nil.mono Pattern.one_le_optional
  | .cons first rest =>
    ((first.marks.append ((rest.marksMore 1).act (.countArguments 1))).mono
      (Pattern.le_optional (p := Pattern.listOf (Pattern.part .expression)))).cast
        (by simp [Arguments.script]) rfl

theorem Arguments.marksMore : ∀ (arguments : Arguments) (count : Nat),
    (arguments.moreScript count).Marks
      (star (Pattern.mark .comma * Pattern.part .expression)).matches'
  | .nil, _ => Marks.nil.mono one_le_kstar
  | .cons first rest, count => by
    have hfirst : Marks (.mark .comma :: first.script)
        (Pattern.mark .comma * Pattern.part .expression).matches' := first.marks.mark _
    have hrest := (rest.marksMore (count + 1)).act (.countArguments (count + 1))
    exact ((hfirst.append hrest).mono mul_kstar_le_kstar).cast
      (by simp [Arguments.moreScript]) rfl

end

/-! ## Statements -/

theorem marks_braced {block : Script} (h : block.Marks (Rule.pattern .statements).matches') :
    (bracedScript block).Marks Pattern.block.matches' :=
  (((h.node .statements le_rfl).append (Marks.nil.mark .rightBrace)).mark .leftBrace).cast
    (by simp [bracedScript]) (by simp only [Pattern.block, matches'_mul, mul_one, mul_assoc])

theorem marks_guarded (condition : Expression) (tested : Action) {block : Script}
    (h : block.Marks (Rule.pattern .statements).matches') :
    (guardedScript condition tested block).Marks Pattern.guarded.matches' :=
  ((condition.marks.append (((marks_braced h).act tested).mark .rightParen)).mark .leftParen).cast
    (by simp [guardedScript]) (by simp only [Pattern.guarded, matches'_mul, mul_assoc])

theorem Target.marks (target : Target) :
    target.script.Marks (Pattern.ident * Pattern.optional Pattern.index).matches' := by
  cases target with
  | var name =>
    refine ((Marks.nil.act _).name name).mono ?_
    exact mul_le_mul_right Pattern.one_le_optional _
  | element array index =>
    have hclose : Marks [.act (.addressElement array.token), .mark .rightBracket]
        (Pattern.mark .rightBracket).matches' :=
      ((Marks.nil.mark _).act _).cast rfl (mul_one _)
    have hindex := ((marks_index index.marks hclose).act (.resolve array.token)).name array
    refine (hindex.mono ?_).cast (by simp [script]) rfl
    exact mul_le_mul_right Pattern.le_optional _

theorem Target.marks_assignment (target : Target) (value : Expression) :
    (assignmentScript target value).Marks (Pattern.ident * Pattern.optional Pattern.index *
      Pattern.mark .eq * Pattern.part .expression).matches' := by
  have hvalue : Marks ([Part.mark .eq] ++ value.script ++ [Part.act target.stored])
      (Pattern.mark .eq * Pattern.part .expression).matches' :=
    ((value.marks.append (Marks.nil.act _)).mark _).cast rfl
      (by simp only [matches'_mul, mul_one])
  exact (target.marks.append hvalue).cast (by simp [assignmentScript])
    (by simp only [matches'_mul, mul_assoc])

theorem marks_result (value : Option Expression) :
    (resultScript value).Marks (Pattern.optional (Pattern.part .expression)).matches' := by
  cases value with
  | none => exact (Marks.nil.act .pushNoResult).mono Pattern.one_le_optional
  | some value => exact value.marks.mono Pattern.le_optional

theorem marks_statement {p q next : Script} {r : Rule} (h : p.Marks r.pattern.matches')
    (hr : r ∈ [Rule.letStatement, .ifStatement, .whileStatement, .doStatement, .returnStatement])
    (hnext : next.Marks (Rule.pattern .statements).matches')
    (hq : q = .enter r :: (p ++ Part.leave r :: next)) :
    q.Marks (Rule.pattern .statements).matches' := by
  -- The statement is one of the choices, and with what follows it again a row of statements.
  have hstatement := (h.node r le_rfl).choice
    (List.mem_map_of_mem (f := Pattern.part) hr)
  exact ((hstatement.append hnext).mono mul_kstar_le_kstar).cast (by simp [hq]) rfl

theorem marks_if (condition : Expression) {yes other : Script}
    (hyes : yes.Marks (Rule.pattern .statements).matches')
    (hother : other.Marks (Pattern.optional (Pattern.keyword .else_ * Pattern.block)).matches') :
    Script.Marks
      (.act .startIf :: .keyword .if_ :: (guardedScript condition .branchIf yes ++ other))
      (Rule.pattern .ifStatement).matches' := by
  refine ((((marks_guarded condition .branchIf hyes).append hother).keyword .if_).act .startIf).cast
    rfl ?_
  simp only [Rule.pattern, matches'_mul, mul_assoc]

theorem Block.marks (b : Block) : b.script.Marks (Rule.pattern .statements).matches' := by
  induction b with
  | empty => exact Marks.nil.mono one_le_kstar
  | let_ target value next ih =>
    have hlet : Marks (.keyword .let_ :: (assignmentScript target value ++ [Part.mark .semicolon]))
        (Rule.pattern .letStatement).matches' :=
      (((target.marks_assignment value).append (Marks.nil.mark _)).keyword _).cast rfl
        (by simp only [Rule.pattern, matches'_mul, mul_one, mul_assoc])
    exact marks_statement hlet (by simp) ih (by simp [script])
  | if_ condition yes next ihyes ih =>
    have hif := marks_if condition ihyes ((Marks.nil.act .endIf).mono Pattern.one_le_optional)
    exact marks_statement hif (by simp) ih (by simp [script])
  | ifElse condition yes no next ihyes ihno ih =>
    have helse : Marks (.act .elseIf :: .keyword .else_ ::
        (bracedScript no.script ++ [Part.act .endElse]))
        (Pattern.keyword .else_ * Pattern.block).matches' :=
      ((((marks_braced ihno).append (Marks.nil.act _)).keyword _).act _).cast rfl
        (by simp only [matches'_mul, mul_one])
    have hif := marks_if condition ihyes (helse.mono Pattern.le_optional)
    exact marks_statement hif (by simp) ih (by simp [script])
  | while_ condition body next ihbody ih =>
    have hwhile : Marks (.act .startWhile :: .keyword .while_ ::
        (guardedScript condition .testWhile body.script ++ [Part.act .endWhile]))
        (Rule.pattern .whileStatement).matches' :=
      ((((marks_guarded condition .testWhile ihbody).append (Marks.nil.act _)).keyword
        _).act _).cast rfl (by simp only [Rule.pattern, matches'_mul, mul_one])
    exact marks_statement hwhile (by simp) ih (by simp [script])
  | do_ target arguments next ih =>
    have hcall := target.marks arguments.length
      (arguments.marks.node .expressionList le_rfl)
    have hdo : Marks (.keyword .do_ :: (target.script arguments.script arguments.length ++
        [Part.mark .semicolon, .act .discard])) (Rule.pattern .doStatement).matches' :=
      ((hcall.append ((Marks.nil.act _).mark _)).keyword _).cast rfl
        (by simp only [Rule.pattern, matches'_mul, mul_one, mul_assoc])
    exact marks_statement hdo (by simp) ih (by simp [script])
  | return_ value next ih =>
    have hreturn : Marks (.keyword .return_ :: (resultScript value ++
        [Part.mark .semicolon, .act .leaveSubroutine])) (Rule.pattern .returnStatement).matches' :=
      (((marks_result value).append ((Marks.nil.act _).mark _)).keyword _).cast rfl
        (by simp only [Rule.pattern, matches'_mul, mul_one, mul_assoc])
    exact marks_statement hreturn (by simp) ih (by simp [script])

/-! ## Declarations -/

theorem marks_type (type : Leaf variableTypes) :
    Script.Marks [.token type.token] Pattern.type.matches' := by
  have htype : Marks [.token type.token] (Pattern.terminal type.token.kind).matches' :=
    (Marks.nil.token _).cast rfl (mul_one _)
  exact htype.choice (List.mem_map_of_mem (f := Pattern.terminal) type.kind_mem)

theorem marks_resultType (type : Leaf resultTypes) :
    Script.Marks [.token type.token]
      (Pattern.choice [Pattern.keyword .void, Pattern.type]).matches' := by
  rcases List.mem_cons.mp type.kind_mem with hvoid | htype
  · have hkeyword : Marks [.token type.token] (Pattern.keyword .void).matches' := by
      refine (Marks.nil.token _).cast rfl ?_
      rw [mul_one, hvoid]
      rfl
    exact hkeyword.choice (by simp)
  · exact (marks_type ⟨type.token, htype⟩).choice (by simp)

theorem Declared.marks (kind : VariableKind) (d : Declared) :
    (d.script kind).Marks
      (Pattern.type * Pattern.listOf Pattern.ident * Pattern.mark .semicolon).matches' := by
  have hmore : (moreNamesScript kind d.type.token d.more).Marks
      (star (Pattern.mark .comma * Pattern.ident)).matches' :=
    Marks.flatMap (fun name => (((Marks.nil.act _).name name).mark .comma).cast rfl
      (by simp only [matches'_mul, mul_one])) d.more
  have hfirst : Marks (nameScript kind d.type.token d.first) Pattern.ident.matches' :=
    ((Marks.nil.act _).name d.first).cast rfl (mul_one _)
  have hnames := ((marks_type d.type).append hfirst).append hmore
  refine (hnames.append (Marks.nil.mark .semicolon)).cast (by simp [script]) ?_
  simp only [Pattern.listOf, matches'_mul, mul_one, mul_assoc]

theorem ClassVarDec.marks (d : ClassVarDec) :
    d.script.Marks (Pattern.part .classVarDec).matches' := by
  have hkeyword : Marks [.keyword d.kind.keyword]
      (Pattern.choice [Pattern.keyword .static, Pattern.keyword .field]).matches' := by
    have h : Marks [.keyword d.kind.keyword] (Pattern.keyword d.kind.keyword).matches' :=
      (Marks.nil.keyword _).cast rfl (mul_one _)
    refine h.choice ?_
    cases d.kind <;> simp [VariableKind.keyword]
  have hbody : Marks (.keyword d.kind.keyword :: d.declared.script d.kind)
      (Rule.pattern .classVarDec).matches' :=
    (hkeyword.append (d.declared.marks d.kind)).cast rfl
      (by simp only [Rule.pattern, matches'_mul, mul_assoc])
  exact (hbody.node .classVarDec le_rfl).cast (by simp [script]) rfl

theorem marks_locals (d : Declared) :
    (localsScript d).Marks (Pattern.part .varDec).matches' := by
  have hbody : Marks (.keyword .var :: d.script .local) (Rule.pattern .varDec).matches' :=
    ((d.marks .local).keyword .var).cast rfl
      (by simp only [Rule.pattern, matches'_mul, mul_assoc])
  exact (hbody.node .varDec le_rfl).cast (by simp [localsScript]) rfl

theorem Parameter.marks (q : Parameter) :
    q.script.Marks (Pattern.type * Pattern.ident).matches' :=
  ((marks_type q.type).append ((Marks.nil.act _).name q.name)).cast rfl
    (by simp only [matches'_mul, mul_one])

theorem marks_parameters (qs : List Parameter) :
    (parametersScript qs).Marks (Rule.pattern .parameterList).matches' := by
  cases qs with
  | nil => exact Marks.nil.mono Pattern.one_le_optional
  | cons q qs =>
    have hmore : (moreParametersScript qs).Marks
        (star (Pattern.mark .comma * (Pattern.type * Pattern.ident))).matches' :=
      Marks.flatMap (fun q => q.marks.mark .comma) qs
    exact (q.marks.append hmore).mono
      (Pattern.le_optional (p := Pattern.listOf (Pattern.type * Pattern.ident)))

theorem SubroutineDec.marks_body (s : SubroutineDec) :
    Script.Marks (.enter .subroutineBody :: .mark .leftBrace :: (s.locals.flatMap localsScript ++
      Part.act (.startBody s.kind) :: .enter .statements :: (s.body.script ++
        [Part.leave .statements, .mark .rightBrace, .leave .subroutineBody])))
      (Pattern.part .subroutineBody).matches' := by
  have hlocals := Marks.flatMap marks_locals s.locals
  have hstatements := (s.body.marks.node .statements le_rfl).append (Marks.nil.mark .rightBrace)
  have hbody : Marks (.mark .leftBrace :: (s.locals.flatMap localsScript ++
      Part.act (.startBody s.kind) :: (Part.enter .statements ::
        (s.body.script ++ [Part.leave .statements]) ++ [Part.mark .rightBrace])))
      (Rule.pattern .subroutineBody).matches' :=
    ((hlocals.append (hstatements.act _)).mark _).cast rfl
      (by simp only [Rule.pattern, matches'_mul, matches'_star, mul_one, mul_assoc])
  exact (hbody.node .subroutineBody le_rfl).cast (by simp) rfl

theorem SubroutineDec.marks_kind (s : SubroutineDec) :
    Script.Marks (.act .startSubroutine :: .keyword s.kind.keyword ::
      if s.kind = .method then [.act .receiveObject] else [])
      (Pattern.choice [Pattern.keyword .constructor, Pattern.keyword .function,
        Pattern.keyword .method]).matches' := by
  have hreceiver : Marks (if s.kind = .method then [.act .receiveObject] else []) 1 := by
    split_ifs
    · exact Marks.nil.act _
    · exact Marks.nil
  have hkeyword : Marks (.act .startSubroutine :: .keyword s.kind.keyword ::
      if s.kind = .method then [.act .receiveObject] else [])
      (Pattern.keyword s.kind.keyword).matches' :=
    ((hreceiver.keyword _).act _).cast rfl (mul_one _)
  refine hkeyword.choice ?_
  cases s.kind <;> simp [SubroutineKind.keyword]

theorem SubroutineDec.marks (s : SubroutineDec) :
    s.script.Marks (Pattern.part .subroutineDec).matches' := by
  have hparameters := (marks_parameters s.parameters).node .parameterList le_rfl
  have hclose := (s.marks_body.append (Marks.nil.act (.endBody s.kind))).mark .rightParen
  have hrest := (hparameters.append hclose).mark .leftParen
  have hname := (hrest.act (.nameSubroutine s.name.token)).name s.name
  have hall := s.marks_kind.append ((marks_resultType s.result).append hname)
  refine (hall.node .subroutineDec (le_of_eq ?_)).cast ?_ rfl
  · simp only [Rule.pattern, matches'_mul, mul_one, mul_assoc]
  · simp [script]

theorem ClassDec.marks (c : ClassDec) : c.script.Marks (Pattern.part .classDec).matches' := by
  have hbody : Marks (.keyword .class_ :: .token c.name.token :: .act (.nameClass c.name.token) ::
      .mark .leftBrace :: (c.variableDecs.flatMap ClassVarDec.script ++
        c.subroutines.flatMap SubroutineDec.script ++ [Part.mark .rightBrace]))
      (Rule.pattern .classDec).matches' := by
    have hvariables := Marks.flatMap ClassVarDec.marks c.variableDecs
    have hsubroutines := Marks.flatMap SubroutineDec.marks c.subroutines
    refine (((((hvariables.append hsubroutines).append (Marks.nil.mark .rightBrace)).mark
      .leftBrace).act (.nameClass c.name.token)).name c.name).keyword .class_ |>.cast rfl ?_
    simp only [Rule.pattern, matches'_mul, matches'_star, mul_one, mul_assoc]
  exact (hbody.node .classDec le_rfl).cast (by simp [script]) rfl

end JackCompiler
