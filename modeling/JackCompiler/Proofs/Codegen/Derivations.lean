import JackCompiler.Proofs.Codegen.Marks

/-!
# Trees are those of classes

Every tree that conforms to the patterns and is a class is left in the trace by reading a
class that its leaves spell. As classes are read in one way only, there is one such tree for
its leaves (`Markup.Conforms.unique`).
-/

namespace JackCompiler

open scoped Computability

/-! ## Scripts without actions -/

namespace Script

def shows : Part → Bool
  | .note (.act _) => false
  | _ => true

def bare (p : Script) : Script :=
  p.filter shows

@[simp] theorem bare_nil : bare [] = [] := rfl

@[simp] theorem bare_append (p q : Script) : bare (p ++ q) = bare p ++ bare q :=
  List.filter_append ..

@[simp] theorem bare_act (a : Action) (p : Script) : bare (.act a :: p) = bare p := rfl

@[simp] theorem bare_enter (r : Rule) (p : Script) :
    bare (.enter r :: p) = .enter r :: bare p := rfl

@[simp] theorem bare_leave (r : Rule) (p : Script) :
    bare (.leave r :: p) = .leave r :: bare p := rfl

@[simp] theorem bare_mark (m : Mark) (p : Script) : bare (.mark m :: p) = .mark m :: bare p := rfl

@[simp] theorem bare_keyword (k : Keyword) (p : Script) :
    bare (.keyword k :: p) = .keyword k :: bare p := rfl

@[simp] theorem bare_token (t : Token) (p : Script) :
    bare (.token t :: p) = .token t :: bare p := rfl

theorem reads_bare {p : Script} {u : List Token} {es : List Event} (h : Reads p u es) :
    ∃ fs, Reads p.bare u fs ∧ fs.filterMap Event.line? = es.filterMap Event.line? := by
  induction h with
  | nil => exact ⟨[], .nil, rfl⟩
  | @note n p u es h ih =>
    obtain ⟨fs, hfs, hlines⟩ := ih
    cases n with
    | act a => exact ⟨fs, hfs, hlines⟩
    | enter r => exact ⟨_, hfs.note, congrArg (_ :: ·) hlines⟩
    | leave r => exact ⟨_, hfs.note, congrArg (_ :: ·) hlines⟩
  | fixed h ih =>
    obtain ⟨fs, hfs, hlines⟩ := ih
    exact ⟨_, hfs.fixed, congrArg (_ :: ·) hlines⟩
  | token h ih =>
    obtain ⟨fs, hfs, hlines⟩ := ih
    exact ⟨_, hfs.token, congrArg (_ :: ·) hlines⟩

theorem reads_of_bare {p : Script} {u : List Token} {es : List Event} (h : Reads p.bare u es) :
    ∃ fs, Reads p u fs ∧ fs.filterMap Event.line? = es.filterMap Event.line? := by
  induction p generalizing u es with
  | nil => exact ⟨es, h, rfl⟩
  | cons x p ih =>
    cases x with
    | note n =>
      cases n with
      | act a =>
        obtain ⟨fs, hfs, hlines⟩ := ih h
        exact ⟨_, hfs.note, hlines⟩
      | enter r =>
        cases h with
        | note h =>
          obtain ⟨fs, hfs, hlines⟩ := ih h
          exact ⟨_, hfs.note, congrArg (_ :: ·) hlines⟩
      | leave r =>
        cases h with
        | note h =>
          obtain ⟨fs, hfs, hlines⟩ := ih h
          exact ⟨_, hfs.note, congrArg (_ :: ·) hlines⟩
    | fixed kind =>
      cases h with
      | fixed h =>
        obtain ⟨fs, hfs, hlines⟩ := ih h
        exact ⟨_, hfs.fixed, congrArg (_ :: ·) hlines⟩
    | token t =>
      cases h with
      | token h =>
        obtain ⟨fs, hfs, hlines⟩ := ih h
        exact ⟨_, hfs.token, congrArg (_ :: ·) hlines⟩

end Script

/-! ## Scripts that leave trees -/

def tokensOf (ms : List Markup) : List Token :=
  (Markup.leavesOf ms).map fun content => content.1.placeless content.2

/-- Reading the script off their leaves leaves the trees in the trace. -/
def Script.Traces (p : Script) (ms : List Markup) : Prop :=
  ∃ es, Reads p (tokensOf ms) es ∧ es.filterMap Event.line? = Markup.linesOf ms

theorem tokensOf_append (ms ns : List Markup) :
    tokensOf (ms ++ ns) = tokensOf ms ++ tokensOf ns := by
  rw [tokensOf, leavesOf_append, List.map_append]
  rfl

namespace Script.Traces

variable {p q : Script} {ms ns : List Markup}

theorem nil : Traces [] [] :=
  ⟨[], .nil, rfl⟩

theorem append (hp : Traces p ms) (hq : Traces q ns) : Traces (p ++ q) (ms ++ ns) := by
  obtain ⟨es, hes, hlines⟩ := hp
  obtain ⟨fs, hfs, hlines'⟩ := hq
  refine ⟨es ++ fs, ?_, ?_⟩
  · rw [tokensOf_append]
    exact hes.append hfs
  · rw [List.filterMap_append, hlines, hlines', linesOf_append]

theorem of_bare (h : Traces p ms) (hq : q.bare = p.bare) : Traces q ms := by
  obtain ⟨es, hes, hlines⟩ := h
  obtain ⟨fs, hfs, hlines'⟩ := reads_bare hes
  rw [← hq] at hfs
  obtain ⟨gs, hgs, hlines''⟩ := reads_of_bare hfs
  exact ⟨gs, hgs, by rw [hlines'', hlines', hlines]⟩

theorem fixed (kind : Terminal) (lexeme : String) : Traces [.fixed kind] [.leaf kind lexeme] :=
  ⟨_, .fixed (t := kind.placeless lexeme) .nil, rfl⟩

theorem token (kind : Terminal) (lexeme : String) :
    Traces [.token (kind.placeless lexeme)] [.leaf kind lexeme] :=
  ⟨_, .token .nil, rfl⟩

theorem node (r : Rule) (h : Traces p ms) :
    Traces (.enter r :: (p ++ [.leave r])) [.node r ms] := by
  obtain ⟨es, hes, hlines⟩ := h
  have hleave : Reads [.leave r] [] [.note (.leave r)] := .note .nil
  refine ⟨.note (.enter r) :: (es ++ [.note (.leave r)]), ?_, ?_⟩
  · have hreads := Reads.note (n := .enter r) (hes.append hleave)
    simpa [tokensOf, Markup.leavesOf, Markup.leaves, Part.enter, Part.leave] using hreads
  · simp [Event.line?, Markup.linesOf, Markup.lines, hlines]

end Script.Traces

/-! ## Trees apart -/

section

variable {L M : Language Label} {ms : List Markup}

theorem exists_of_mul (h : ms.map Markup.label ∈ L * M) :
    ∃ a b, ms = a ++ b ∧ a.map Markup.label ∈ L ∧ b.map Markup.label ∈ M := by
  obtain ⟨v, hv, w, hw, he⟩ := Language.mem_mul.mp h
  obtain ⟨a, b, rfl, rfl, rfl⟩ := List.map_eq_append_iff.mp he.symm
  exact ⟨a, b, rfl, hv, hw⟩

theorem exists_leaf {kind : Terminal} (h : ms.map Markup.label ∈ (Pattern.terminal kind).matches') :
    ∃ lexeme, ms = [.leaf kind lexeme] := by
  obtain ⟨m, rfl, hm⟩ := List.map_eq_singleton_iff.mp (Pattern.mem_terminal_iff.mp h)
  cases m with
  | node => cases hm
  | leaf kind lexeme =>
    obtain rfl := Sum.inl.inj hm
    exact ⟨lexeme, rfl⟩

theorem exists_leaf_of_choice {kinds : List Terminal}
    (h : ms.map Markup.label ∈ (Pattern.choice (kinds.map Pattern.terminal)).matches') :
    ∃ kind ∈ kinds, ∃ lexeme, ms = [.leaf kind lexeme] := by
  obtain ⟨p, hp, hword⟩ := Pattern.mem_choice_iff.mp h
  obtain ⟨kind, hkind, rfl⟩ := List.mem_map.mp hp
  exact ⟨kind, hkind, exists_leaf hword⟩

end

/-- The tree is what reading a part of a class leaves, by the rule at its root. A statement
is so in front of any others. -/
def Rule.Derived : Rule → Markup → Prop
  | .classDec, m => ∃ c : ClassDec, c.script.Traces [m]
  | .classVarDec, m => ∃ d : ClassVarDec, d.script.Traces [m]
  | .subroutineDec, m => ∃ s : SubroutineDec, s.script.Traces [m]
  | .parameterList, m => ∃ qs : List Parameter,
      Script.Traces (.enter .parameterList :: (parametersScript qs ++ [.leave .parameterList])) [m]
  | .subroutineBody, m => ∃ (ds : List Declared) (b : Block),
      Script.Traces ([.enter .subroutineBody, .mark .leftBrace] ++ ds.flatMap localsScript ++
        [.enter .statements] ++ b.script ++
        [.leave .statements, .mark .rightBrace, .leave .subroutineBody]) [m]
  | .varDec, m => ∃ d : Declared, (localsScript d).Traces [m]
  | .statements, m => ∃ b : Block,
      Script.Traces (.enter .statements :: (b.script ++ [.leave .statements])) [m]
  | .letStatement, m | .ifStatement, m | .whileStatement, m | .doStatement, m
  | .returnStatement, m => ∀ (next : Block) (ms : List Markup), next.script.Traces ms →
      ∃ b : Block, b.script.Traces (m :: ms)
  | .expression, m => ∃ e : Expression, e.script.Traces [m]
  | .term, m => ∃ e : Term, e.script.Traces [m]
  | .expressionList, m => ∃ arguments : Arguments,
      Script.Traces (.enter .expressionList :: (arguments.script ++ [.leave .expressionList])) [m]

def Markup.Derived : Markup → Prop
  | leaf _ _ => True
  | node r children => r.Derived (node r children)

/-- If the trees of which the labels are in the language are left by reading parts of a
class, then they have what `motive` says. -/
def Derives (L : Language Label) (motive : List Markup → Prop) : Prop :=
  ∀ ms : List Markup, (∀ m ∈ ms, m.Derived) → ms.map Markup.label ∈ L → motive ms

section

variable {L M : Language Label} {motive first second : List Markup → Prop}

theorem Derives.imp (h : Derives L first) (himp : ∀ ms, first ms → motive ms) :
    Derives L motive :=
  fun ms hms hword => himp ms (h ms hms hword)

theorem Derives.mul (hfirst : Derives L first) (hsecond : Derives M second) :
    Derives (L * M) fun ms => ∃ a b, ms = a ++ b ∧ first a ∧ second b := by
  intro ms hms hword
  obtain ⟨a, b, rfl, ha, hb⟩ := exists_of_mul hword
  rw [List.forall_mem_append] at hms
  exact ⟨a, b, rfl, hfirst a hms.1 ha, hsecond b hms.2 hb⟩

theorem derives_terminal (kind : Terminal) :
    Derives (Pattern.terminal kind).matches' fun ms => ∃ lexeme, ms = [.leaf kind lexeme] :=
  fun _ _ hword => exists_leaf hword

theorem derives_part (r : Rule) :
    Derives (Pattern.part r).matches' fun ms => ∃ m, ms = [m] ∧ r.Derived m := by
  intro ms hms hword
  obtain ⟨m, rfl, hm⟩ := List.map_eq_singleton_iff.mp (Pattern.mem_part_iff.mp hword)
  rw [List.forall_mem_singleton] at hms
  cases m with
  | leaf => cases hm
  | node rule children =>
    obtain rfl := Sum.inr.inj hm
    exact ⟨_, rfl, hms⟩

theorem derives_kstar (hnil : motive []) (hcons : ∀ a b, first a → motive b → motive (a ++ b))
    (h : Derives L first) : Derives L∗ motive := by
  intro ms hms hword
  obtain ⟨words, he, hwords⟩ := Language.mem_kstar.mp hword
  clear hword
  induction words generalizing ms with
  | nil =>
    obtain rfl := List.map_eq_nil_iff.mp he
    exact hnil
  | cons w words ih =>
    obtain ⟨a, b, rfl, rfl, hb⟩ := List.map_eq_append_iff.mp he
    rw [List.forall_mem_append] at hms
    rw [List.forall_mem_cons] at hwords
    exact hcons a b (h a hms.1 hwords.1) (ih b hms.2 hb hwords.2)

theorem derives_choice {Ps : List (RegularExpression Label)}
    (h : ∀ P ∈ Ps, Derives P.matches' motive) : Derives (Pattern.choice Ps).matches' motive := by
  intro ms hms hword
  obtain ⟨P, hP, hword⟩ := Pattern.mem_choice_iff.mp hword
  exact h P hP ms hms hword

theorem derives_optional {P : RegularExpression Label} (hnil : motive [])
    (h : Derives P.matches' motive) : Derives (Pattern.optional P).matches' motive := by
  intro ms hms hword
  rcases hword with hword | hword
  · obtain rfl := List.map_eq_nil_iff.mp hword
    exact hnil
  · exact h ms hms hword

end

/-! ## Parts of rules -/

open Script

theorem derives_mark (m : Mark) : Derives (Pattern.mark m).matches' (Traces [.mark m]) := by
  refine (derives_terminal (.mark m)).imp ?_
  rintro _ ⟨lexeme, rfl⟩
  exact .fixed _ lexeme

theorem derives_keyword (k : Keyword) :
    Derives (Pattern.keyword k).matches' (Traces [.keyword k]) := by
  refine (derives_terminal (.keyword k)).imp ?_
  rintro _ ⟨lexeme, rfl⟩
  exact .fixed _ lexeme

theorem derives_leaf (kinds : List Terminal) :
    Derives (Pattern.choice (kinds.map Pattern.terminal)).matches' fun ms =>
      ∃ leaf : Leaf kinds, Traces [.token leaf.token] ms := by
  intro ms _ hword
  obtain ⟨kind, hkind, lexeme, rfl⟩ := exists_leaf_of_choice hword
  exact ⟨⟨kind.placeless lexeme, hkind⟩, .token kind lexeme⟩

theorem derives_literal (kind : Terminal) :
    Derives (Pattern.terminal kind).matches' fun ms =>
      ∃ leaf : Leaf [kind], Traces [.token leaf.token] ms := by
  refine (derives_terminal kind).imp ?_
  rintro _ ⟨lexeme, rfl⟩
  exact ⟨⟨kind.placeless lexeme, List.mem_singleton_self _⟩, .token kind lexeme⟩

theorem derives_ident :
    Derives Pattern.ident.matches' fun ms => ∃ name : Name, Traces [.token name.token] ms :=
  derives_literal .ident

theorem derives_expression :
    Derives (Pattern.part .expression).matches' fun ms =>
      ∃ e : Expression, e.script.Traces ms := by
  refine (derives_part .expression).imp ?_
  rintro _ ⟨m, rfl, he⟩
  exact he

theorem derives_term :
    Derives (Pattern.part .term).matches' fun ms => ∃ e : Term, e.script.Traces ms := by
  refine (derives_part .term).imp ?_
  rintro _ ⟨m, rfl, he⟩
  exact he

theorem derives_statements :
    Derives (Pattern.part .statements).matches' fun ms =>
      ∃ b : Block, Traces (.enter .statements :: (b.script ++ [.leave .statements])) ms := by
  refine (derives_part .statements).imp ?_
  rintro _ ⟨m, rfl, hb⟩
  exact hb

theorem derives_index :
    Derives Pattern.index.matches' fun ms => ∃ e : Expression,
      Traces ([.mark .leftBracket] ++ e.script ++ [.mark .rightBracket]) ms := by
  refine (((derives_mark _).mul derives_expression).mul (derives_mark _)).imp ?_
  rintro _ ⟨_, _, rfl, ⟨_, _, rfl, hopen, e, he⟩, hclose⟩
  exact ⟨e, (hopen.append he).append hclose⟩

theorem derives_arguments :
    Derives Pattern.arguments.matches' fun ms => ∃ arguments : Arguments,
      Traces ([.mark .leftParen] ++ (.enter .expressionList :: (arguments.script ++
        [.leave .expressionList])) ++ [.mark .rightParen]) ms := by
  refine (((derives_mark _).mul (derives_part .expressionList)).mul (derives_mark _)).imp ?_
  rintro _ ⟨_, _, rfl, ⟨_, _, rfl, hopen, m, rfl, arguments, harguments⟩, hclose⟩
  exact ⟨arguments, (hopen.append harguments).append hclose⟩

theorem derives_call :
    Derives Pattern.subroutineCall.matches' fun ms => ∃ (target : CallName)
      (arguments : Arguments), (target.script arguments.script arguments.length).Traces ms := by
  refine derives_choice ?_
  simp only [List.forall_mem_cons]
  refine ⟨?_, ?_, List.forall_mem_nil _⟩
  · refine (derives_ident.mul derives_arguments).imp ?_
    rintro _ ⟨_, _, rfl, ⟨name, hname⟩, arguments, harguments⟩
    refine ⟨.own name, arguments, (hname.append harguments).of_bare ?_⟩
    simp [CallName.script, CallName.nameScript, callEndScript]
  · refine (((derives_ident.mul (derives_mark _)).mul derives_ident).mul derives_arguments).imp ?_
    rintro _ ⟨_, _, rfl, ⟨_, _, rfl, ⟨_, _, rfl, ⟨qualifier, hqualifier⟩, hdot⟩, name, hname⟩,
      arguments, harguments⟩
    refine ⟨.member qualifier name, arguments,
      (((hqualifier.append hdot).append hname).append harguments).of_bare ?_⟩
    simp [CallName.script, CallName.nameScript, callEndScript]

theorem derives_word :
    Derives Pattern.keywordConstant.matches' fun ms =>
      ∃ word : Word, Traces [.keyword word.keyword] ms := by
  refine derives_choice ?_
  simp only [List.forall_mem_cons]
  exact ⟨(derives_keyword _).imp fun _ h => ⟨.true, h⟩,
    (derives_keyword _).imp fun _ h => ⟨.false, h⟩, (derives_keyword _).imp fun _ h => ⟨.null, h⟩,
    (derives_keyword _).imp fun _ h => ⟨.this, h⟩, List.forall_mem_nil _⟩

theorem derives_unaryOp :
    Derives Pattern.unaryOp.matches' fun ms => ∃ op : UnaryOp, Traces [.mark op.mark] ms := by
  refine derives_choice ?_
  simp only [List.forall_mem_cons]
  exact ⟨(derives_mark _).imp fun _ h => ⟨.neg, h⟩, (derives_mark _).imp fun _ h => ⟨.not, h⟩,
    List.forall_mem_nil _⟩

theorem derives_op :
    Derives Pattern.op.matches' fun ms => ∃ op : BinaryOp, Traces [.mark op.mark] ms := by
  refine derives_choice ?_
  simp only [List.forall_mem_cons]
  exact ⟨(derives_mark _).imp fun _ h => ⟨.add, h⟩, (derives_mark _).imp fun _ h => ⟨.sub, h⟩,
    (derives_mark _).imp fun _ h => ⟨.mul, h⟩, (derives_mark _).imp fun _ h => ⟨.div, h⟩,
    (derives_mark _).imp fun _ h => ⟨.and, h⟩, (derives_mark _).imp fun _ h => ⟨.or, h⟩,
    (derives_mark _).imp fun _ h => ⟨.lt, h⟩, (derives_mark _).imp fun _ h => ⟨.gt, h⟩,
    (derives_mark _).imp fun _ h => ⟨.eq, h⟩, List.forall_mem_nil _⟩

theorem derives_operations :
    Derives (RegularExpression.star (Pattern.op * Pattern.part .term)).matches' fun ms =>
      ∃ rest : Operations, rest.script.Traces ms := by
  refine derives_kstar ⟨.nil, .nil⟩ ?_ (derives_op.mul derives_term)
  rintro _ b ⟨_, _, rfl, ⟨op, hop⟩, operand, hoperand⟩ ⟨rest, hrest⟩
  exact ⟨.cons op operand rest,
    ((hop.append hoperand).append hrest).of_bare (by simp [Operations.script])⟩

theorem derives_moreArguments :
    Derives (RegularExpression.star (Pattern.mark .comma * Pattern.part .expression)).matches'
      fun ms => ∃ rest : Arguments, ∀ count, (rest.moreScript count).Traces ms := by
  refine derives_kstar ⟨.nil, fun _ => .nil⟩ ?_ ((derives_mark _).mul derives_expression)
  rintro _ b ⟨_, _, rfl, hcomma, first, hfirst⟩ ⟨rest, hrest⟩
  exact ⟨.cons first rest, fun count =>
    ((hcomma.append hfirst).append (hrest (count + 1))).of_bare (by simp [Arguments.moreScript])⟩

theorem derives_braced :
    Derives Pattern.block.matches' fun ms => ∃ b : Block, (bracedScript b.script).Traces ms := by
  refine (((derives_mark _).mul derives_statements).mul (derives_mark _)).imp ?_
  rintro _ ⟨_, _, rfl, ⟨_, _, rfl, hopen, b, hb⟩, hclose⟩
  exact ⟨b, ((hopen.append hb).append hclose).of_bare (by simp [bracedScript])⟩

theorem derives_guarded :
    Derives Pattern.guarded.matches' fun ms => ∃ (condition : Expression) (b : Block),
      Traces ([.mark .leftParen] ++ condition.script ++ [.mark .rightParen] ++
        bracedScript b.script) ms := by
  have hcondition :=
    ((derives_mark .leftParen).mul derives_expression).mul (derives_mark .rightParen)
  refine (hcondition.mul derives_braced).imp ?_
  rintro _ ⟨_, _, rfl, ⟨_, _, rfl, ⟨_, _, rfl, hopen, condition, hcondition⟩, hclose⟩, b, hb⟩
  exact ⟨condition, b, ((hopen.append hcondition).append hclose).append hb⟩

/-! ## Rules of expressions and statements -/

theorem derived_expression :
    Derives (Rule.pattern .expression).matches' fun ms =>
      Rule.Derived .expression (.node .expression ms) := by
  refine (derives_term.mul derives_operations).imp ?_
  rintro _ ⟨_, _, rfl, ⟨first, hfirst⟩, rest, hrest⟩
  exact ⟨.mk first rest,
    ((hfirst.append hrest).node .expression).of_bare (by simp [Expression.script])⟩

theorem derived_expressionList :
    Derives (Rule.pattern .expressionList).matches' fun ms =>
      Rule.Derived .expressionList (.node .expressionList ms) := by
  refine derives_optional ⟨.nil, Traces.nil.node .expressionList⟩ ?_
  refine (derives_expression.mul derives_moreArguments).imp ?_
  rintro _ ⟨_, _, rfl, ⟨first, hfirst⟩, rest, hrest⟩
  exact ⟨.cons first rest, ((hfirst.append (hrest 1)).node .expressionList).of_bare
    (by simp [Arguments.script])⟩

theorem derived_term :
    Derives (Rule.pattern .term).matches' fun ms => Rule.Derived .term (.node .term ms) := by
  refine derives_choice ?_
  simp only [List.forall_mem_cons]
  refine ⟨?_, ?_, ?_, ?_, ?_, ?_, ?_, ?_, List.forall_mem_nil _⟩
  · refine (derives_literal .number).imp ?_
    rintro _ ⟨literal, h⟩
    exact ⟨.integer literal, (h.node .term).of_bare (by simp [Term.script])⟩
  · refine (derives_literal .text).imp ?_
    rintro _ ⟨literal, h⟩
    exact ⟨.text literal, (h.node .term).of_bare (by simp [Term.script])⟩
  · refine derives_word.imp ?_
    rintro _ ⟨word, h⟩
    exact ⟨.word word, (h.node .term).of_bare (by simp [Term.script])⟩
  · refine derives_ident.imp ?_
    rintro _ ⟨name, h⟩
    exact ⟨.var name, (h.node .term).of_bare (by simp [Term.script])⟩
  · refine (derives_ident.mul derives_index).imp ?_
    rintro _ ⟨_, _, rfl, ⟨array, harray⟩, index, hindex⟩
    exact ⟨.element array index,
      ((harray.append hindex).node .term).of_bare (by simp [Term.script])⟩
  · refine derives_call.imp ?_
    rintro _ ⟨target, arguments, h⟩
    exact ⟨.call target arguments, (h.node .term).of_bare (by simp [Term.script])⟩
  · refine (((derives_mark _).mul derives_expression).mul (derives_mark _)).imp ?_
    rintro _ ⟨_, _, rfl, ⟨_, _, rfl, hopen, inner, hinner⟩, hclose⟩
    exact ⟨.group inner,
      (((hopen.append hinner).append hclose).node .term).of_bare (by simp [Term.script])⟩
  · refine (derives_unaryOp.mul derives_term).imp ?_
    rintro _ ⟨_, _, rfl, ⟨op, hop⟩, operand, hoperand⟩
    exact ⟨.unary op operand, ((hop.append hoperand).node .term).of_bare (by simp [Term.script])⟩

/-- A part with a node for each statement is a block. -/
theorem derived_statements :
    Derives (Rule.pattern .statements).matches' fun ms =>
      Rule.Derived .statements (.node .statements ms) := by
  have hstatement : Derives (Pattern.choice [Pattern.part .letStatement, Pattern.part .ifStatement,
      Pattern.part .whileStatement, Pattern.part .doStatement,
      Pattern.part .returnStatement]).matches'
      fun ms => ∀ (next : Block) (ns : List Markup), next.script.Traces ns →
        ∃ b : Block, b.script.Traces (ms ++ ns) := by
    refine derives_choice ?_
    simp only [List.forall_mem_cons]
    refine ⟨?_, ?_, ?_, ?_, ?_, List.forall_mem_nil _⟩
    all_goals
      refine (derives_part _).imp ?_
      rintro _ ⟨m, rfl, h⟩
      exact h
  have hall : Derives (Rule.pattern .statements).matches' fun ms =>
      ∃ b : Block, b.script.Traces ms := by
    refine derives_kstar ⟨.empty, .nil⟩ ?_ hstatement
    rintro a b ha ⟨next, hnext⟩
    exact ha next b hnext
  refine hall.imp ?_
  rintro _ ⟨b, hb⟩
  exact ⟨b, hb.node .statements⟩

theorem derives_target :
    Derives (Pattern.ident * Pattern.optional Pattern.index).matches' fun ms =>
      ∃ target : Target, target.script.Traces ms := by
  have hrest : Derives (Pattern.optional Pattern.index).matches' fun ms =>
      ms = [] ∨ ∃ e : Expression,
        Traces ([.mark .leftBracket] ++ e.script ++ [.mark .rightBracket]) ms :=
    derives_optional (.inl rfl) (derives_index.imp fun _ h => .inr h)
  refine (derives_ident.mul hrest).imp ?_
  rintro _ ⟨_, _, rfl, ⟨name, hname⟩, rfl | ⟨index, hindex⟩⟩
  · exact ⟨.var name, (hname.append .nil).of_bare (by simp [Target.script])⟩
  · exact ⟨.element name index, (hname.append hindex).of_bare (by simp [Target.script])⟩

theorem derived_letStatement :
    Derives (Rule.pattern .letStatement).matches' fun ms =>
      Rule.Derived .letStatement (.node .letStatement ms) := by
  have hshape : (Rule.pattern .letStatement).matches' = ((Pattern.keyword .let_ *
      (Pattern.ident * Pattern.optional Pattern.index)) * Pattern.mark .eq *
      Pattern.part .expression * Pattern.mark .semicolon).matches' := by
    simp only [Rule.pattern, RegularExpression.matches'_mul, mul_assoc]
  rw [hshape]
  refine (((((derives_keyword _).mul derives_target).mul (derives_mark _)).mul
    derives_expression).mul (derives_mark _)).imp ?_
  rintro _ ⟨_, _, rfl, ⟨_, _, rfl, ⟨_, _, rfl, ⟨_, _, rfl, hlet, target, htarget⟩, heq⟩,
    value, hvalue⟩, hsemicolon⟩ next ms hnext
  have hall := ((((hlet.append htarget).append heq).append hvalue).append hsemicolon).node
    .letStatement
  refine ⟨.let_ target value next, (hall.append hnext).of_bare ?_⟩
  simp [Block.script, assignmentScript]

theorem derived_ifStatement :
    Derives (Rule.pattern .ifStatement).matches' fun ms =>
      Rule.Derived .ifStatement (.node .ifStatement ms) := by
  have helse : Derives (Pattern.optional (Pattern.keyword .else_ * Pattern.block)).matches'
      fun ms => ms = [] ∨ ∃ no : Block,
        Traces ([.keyword .else_] ++ bracedScript no.script) ms := by
    refine derives_optional (.inl rfl) (((derives_keyword _).mul derives_braced).imp ?_)
    rintro _ ⟨_, _, rfl, hkeyword, no, hno⟩
    exact .inr ⟨no, hkeyword.append hno⟩
  refine (((derives_keyword _).mul derives_guarded).mul helse).imp ?_
  rintro _ ⟨_, _, rfl, ⟨_, _, rfl, hif, condition, yes, hyes⟩, rfl | ⟨no, hno⟩⟩ next ms hnext
  · have hall := ((hif.append hyes).append .nil).node .ifStatement
    refine ⟨.if_ condition yes next, (hall.append hnext).of_bare ?_⟩
    simp [Block.script, guardedScript]
  · have hall := ((hif.append hyes).append hno).node .ifStatement
    refine ⟨.ifElse condition yes no next, (hall.append hnext).of_bare ?_⟩
    simp [Block.script, guardedScript]

theorem derived_whileStatement :
    Derives (Rule.pattern .whileStatement).matches' fun ms =>
      Rule.Derived .whileStatement (.node .whileStatement ms) := by
  refine ((derives_keyword _).mul derives_guarded).imp ?_
  rintro _ ⟨_, _, rfl, hwhile, condition, body, hbody⟩ next ms hnext
  have hall := (hwhile.append hbody).node .whileStatement
  refine ⟨.while_ condition body next, (hall.append hnext).of_bare ?_⟩
  simp [Block.script, guardedScript]

theorem derived_doStatement :
    Derives (Rule.pattern .doStatement).matches' fun ms =>
      Rule.Derived .doStatement (.node .doStatement ms) := by
  refine (((derives_keyword _).mul derives_call).mul (derives_mark _)).imp ?_
  rintro _ ⟨_, _, rfl, ⟨_, _, rfl, hdo, target, arguments, hcall⟩, hsemicolon⟩ next ms hnext
  have hall := ((hdo.append hcall).append hsemicolon).node .doStatement
  refine ⟨.do_ target arguments next, (hall.append hnext).of_bare ?_⟩
  simp [Block.script]

theorem derived_returnStatement :
    Derives (Rule.pattern .returnStatement).matches' fun ms =>
      Rule.Derived .returnStatement (.node .returnStatement ms) := by
  have hresult : Derives (Pattern.optional (Pattern.part .expression)).matches' fun ms =>
      ∃ value : Option Expression, (resultScript value).Traces ms := by
    refine derives_optional ⟨none, Traces.nil.of_bare rfl⟩ (derives_expression.imp ?_)
    rintro _ ⟨value, hvalue⟩
    exact ⟨some value, hvalue⟩
  refine (((derives_keyword _).mul hresult).mul (derives_mark _)).imp ?_
  rintro _ ⟨_, _, rfl, ⟨_, _, rfl, hreturn, value, hvalue⟩, hsemicolon⟩ next ms hnext
  have hall := ((hreturn.append hvalue).append hsemicolon).node .returnStatement
  refine ⟨.return_ value next, (hall.append hnext).of_bare ?_⟩
  simp [Block.script]

/-! ## Rules of declarations -/

theorem derives_type :
    Derives Pattern.type.matches' fun ms =>
      ∃ type : Leaf variableTypes, Traces [.token type.token] ms :=
  derives_leaf variableTypes

theorem derives_resultType :
    Derives (Pattern.choice [Pattern.keyword .void, Pattern.type]).matches' fun ms =>
      ∃ result : Leaf resultTypes, Traces [.token result.token] ms := by
  refine derives_choice ?_
  simp only [List.forall_mem_cons]
  refine ⟨?_, ?_, List.forall_mem_nil _⟩
  · refine (derives_literal (.keyword .void)).imp ?_
    rintro _ ⟨⟨t, ht⟩, h⟩
    exact ⟨⟨t, List.mem_cons.mpr (.inl (List.mem_singleton.mp ht))⟩, h⟩
  · refine derives_type.imp ?_
    rintro _ ⟨⟨t, ht⟩, h⟩
    exact ⟨⟨t, List.mem_cons_of_mem _ ht⟩, h⟩

theorem derives_names :
    Derives (Pattern.listOf Pattern.ident).matches' fun ms => ∃ (first : Name) (more : List Name),
      ∀ (kind : VariableKind) (type : Token),
        Traces (nameScript kind type first ++ moreNamesScript kind type more) ms := by
  have hmore : Derives (RegularExpression.star (Pattern.mark .comma * Pattern.ident)).matches'
      fun ms => ∃ more : List Name, ∀ (kind : VariableKind) (type : Token),
        (moreNamesScript kind type more).Traces ms := by
    refine derives_kstar ⟨[], fun _ _ => .nil⟩ ?_ ((derives_mark _).mul derives_ident)
    rintro _ b ⟨_, _, rfl, hcomma, name, hname⟩ ⟨more, hmore⟩
    refine ⟨name :: more, fun kind type => ?_⟩
    exact ((hcomma.append hname).append (hmore kind type)).of_bare
      (by simp [moreNamesScript, nameScript])
  refine (derives_ident.mul hmore).imp ?_
  rintro _ ⟨_, _, rfl, ⟨first, hfirst⟩, more, hmore⟩
  exact ⟨first, more, fun kind type =>
    (hfirst.append (hmore kind type)).of_bare (by simp [nameScript])⟩

theorem derived_varDec :
    Derives (Rule.pattern .varDec).matches' fun ms =>
      Rule.Derived .varDec (.node .varDec ms) := by
  refine ((((derives_keyword _).mul derives_type).mul derives_names).mul (derives_mark _)).imp ?_
  rintro _ ⟨_, _, rfl, ⟨_, _, rfl, ⟨_, _, rfl, hvar, type, htype⟩, first, more, hnames⟩,
    hsemicolon⟩
  have hall := (((hvar.append htype).append (hnames .local type.token)).append hsemicolon).node
    .varDec
  refine ⟨⟨type, first, more⟩, hall.of_bare ?_⟩
  simp [localsScript, Declared.script]

theorem derived_classVarDec :
    Derives (Rule.pattern .classVarDec).matches' fun ms =>
      Rule.Derived .classVarDec (.node .classVarDec ms) := by
  have hkind : Derives (Pattern.choice [Pattern.keyword .static, Pattern.keyword .field]).matches'
      fun ms => ∃ kind : VariableKind, kind.inClass = true ∧ Traces [.keyword kind.keyword] ms := by
    refine derives_choice ?_
    simp only [List.forall_mem_cons]
    exact ⟨(derives_keyword _).imp fun _ h => ⟨.static, rfl, h⟩,
      (derives_keyword _).imp fun _ h => ⟨.field, rfl, h⟩, List.forall_mem_nil _⟩
  refine (((hkind.mul derives_type).mul derives_names).mul (derives_mark _)).imp ?_
  rintro _ ⟨_, _, rfl, ⟨_, _, rfl, ⟨_, _, rfl, ⟨kind, hclass, hkind⟩, type, htype⟩,
    first, more, hnames⟩, hsemicolon⟩
  have hall := (((hkind.append htype).append (hnames kind type.token)).append hsemicolon).node
    .classVarDec
  refine ⟨⟨kind, hclass, ⟨type, first, more⟩⟩, hall.of_bare ?_⟩
  simp [ClassVarDec.script, Declared.script]

theorem derived_parameterList :
    Derives (Rule.pattern .parameterList).matches' fun ms =>
      Rule.Derived .parameterList (.node .parameterList ms) := by
  have hparameter : Derives (Pattern.type * Pattern.ident).matches' fun ms =>
      ∃ q : Parameter, q.script.Traces ms := by
    refine (derives_type.mul derives_ident).imp ?_
    rintro _ ⟨_, _, rfl, ⟨type, htype⟩, name, hname⟩
    exact ⟨⟨type, name⟩, (htype.append hname).of_bare (by simp [Parameter.script, nameScript])⟩
  have hmore : Derives (RegularExpression.star (Pattern.mark .comma *
      (Pattern.type * Pattern.ident))).matches' fun ms =>
        ∃ qs : List Parameter, (moreParametersScript qs).Traces ms := by
    refine derives_kstar ⟨[], .nil⟩ ?_ ((derives_mark _).mul hparameter)
    rintro _ b ⟨_, _, rfl, hcomma, q, hq⟩ ⟨qs, hqs⟩
    exact ⟨q :: qs, (hcomma.append hq).append hqs⟩
  refine derives_optional ⟨[], Traces.nil.node .parameterList⟩ ((hparameter.mul hmore).imp ?_)
  rintro _ ⟨_, _, rfl, ⟨q, hq⟩, qs, hqs⟩
  exact ⟨q :: qs, (hq.append hqs).node .parameterList⟩

theorem derives_parts {α : Type} {f : α → Script} (r : Rule)
    (hf : ∀ m, r.Derived m → ∃ x, (f x).Traces [m]) :
    Derives (RegularExpression.star (Pattern.part r)).matches' fun ms =>
      ∃ xs : List α, Script.Traces (xs.flatMap f) ms := by
  refine derives_kstar ⟨[], .nil⟩ ?_ (derives_part r)
  rintro _ b ⟨m, rfl, hm⟩ ⟨xs, hxs⟩
  obtain ⟨x, hx⟩ := hf m hm
  exact ⟨x :: xs, hx.append hxs⟩

theorem derived_subroutineBody :
    Derives (Rule.pattern .subroutineBody).matches' fun ms =>
      Rule.Derived .subroutineBody (.node .subroutineBody ms) := by
  have hlocals := derives_parts (f := localsScript) .varDec fun _ h => h
  refine ((((derives_mark _).mul hlocals).mul derives_statements).mul (derives_mark _)).imp ?_
  rintro _ ⟨_, _, rfl, ⟨_, _, rfl, ⟨_, _, rfl, hopen, ds, hds⟩, b, hb⟩, hclose⟩
  have hall := (((hopen.append hds).append hb).append hclose).node .subroutineBody
  exact ⟨ds, b, hall.of_bare (by simp)⟩

theorem derived_subroutineDec :
    Derives (Rule.pattern .subroutineDec).matches' fun ms =>
      Rule.Derived .subroutineDec (.node .subroutineDec ms) := by
  have hkind : Derives (Pattern.choice [Pattern.keyword .constructor, Pattern.keyword .function,
      Pattern.keyword .method]).matches' fun ms =>
        ∃ kind : SubroutineKind, Traces [.keyword kind.keyword] ms := by
    refine derives_choice ?_
    simp only [List.forall_mem_cons]
    exact ⟨(derives_keyword _).imp fun _ h => ⟨.constructor, h⟩,
      (derives_keyword _).imp fun _ h => ⟨.function, h⟩,
      (derives_keyword _).imp fun _ h => ⟨.method, h⟩, List.forall_mem_nil _⟩
  refine ((((((hkind.mul derives_resultType).mul derives_ident).mul (derives_mark _)).mul
    (derives_part .parameterList)).mul (derives_mark _)).mul (derives_part .subroutineBody)).imp ?_
  rintro _ ⟨_, _, rfl, ⟨_, _, rfl, ⟨_, _, rfl, ⟨_, _, rfl, ⟨_, _, rfl, ⟨_, _, rfl, ⟨kind, hkind⟩,
    result, hresult⟩, name, hname⟩, hopen⟩, _, rfl, qs, hqs⟩, hclose⟩, _, rfl, ds, b, hbody⟩
  have hall := ((((((hkind.append hresult).append hname).append hopen).append hqs).append
    hclose).append hbody).node .subroutineDec
  refine ⟨⟨kind, result, name, qs, ds, b⟩, hall.of_bare ?_⟩
  by_cases hmethod : kind = .method
  · simp [SubroutineDec.script, hmethod]
  · simp [SubroutineDec.script, hmethod]

theorem derived_classDec :
    Derives (Rule.pattern .classDec).matches' fun ms =>
      Rule.Derived .classDec (.node .classDec ms) := by
  have hvariables := derives_parts (f := ClassVarDec.script) .classVarDec fun _ h => h
  have hsubroutines := derives_parts (f := SubroutineDec.script) .subroutineDec fun _ h => h
  refine ((((((derives_keyword _).mul derives_ident).mul (derives_mark _)).mul hvariables).mul
    hsubroutines).mul (derives_mark _)).imp ?_
  rintro _ ⟨_, _, rfl, ⟨_, _, rfl, ⟨_, _, rfl, ⟨_, _, rfl, ⟨_, _, rfl, hclass, name, hname⟩, hopen⟩,
    ds, hds⟩, ss, hss⟩, hclose⟩
  have hall := (((((hclass.append hname).append hopen).append hds).append hss).append hclose).node
    .classDec
  exact ⟨⟨name, ds, ss⟩, hall.of_bare (by simp [ClassDec.script])⟩

/-! ## Trees -/

namespace Markup

theorem Conforms.derived {m : Markup} (h : m.Conforms) : m.Derived := by
  induction h with
  | leaf => trivial
  | @node rule children hpattern h ih =>
    cases rule with
    | classDec => exact derived_classDec children ih hpattern
    | classVarDec => exact derived_classVarDec children ih hpattern
    | subroutineDec => exact derived_subroutineDec children ih hpattern
    | parameterList => exact derived_parameterList children ih hpattern
    | subroutineBody => exact derived_subroutineBody children ih hpattern
    | varDec => exact derived_varDec children ih hpattern
    | statements => exact derived_statements children ih hpattern
    | letStatement => exact derived_letStatement children ih hpattern
    | ifStatement => exact derived_ifStatement children ih hpattern
    | whileStatement => exact derived_whileStatement children ih hpattern
    | doStatement => exact derived_doStatement children ih hpattern
    | returnStatement => exact derived_returnStatement children ih hpattern
    | expression => exact derived_expression children ih hpattern
    | term => exact derived_term children ih hpattern
    | expressionList => exact derived_expressionList children ih hpattern

theorem eq_of_lines_eq {m n : Markup} (h : m.lines = n.lines) : m = n := by
  have hm := build_lines [] [] [] m
  rw [h, build_lines [] [] [] n] at hm
  simpa [build] using hm.symm

/-- The grammar is unambiguous: the leaves of a class determine its tree. -/
theorem Conforms.unique {m n : Markup} (hm : m.Conforms) (hn : n.Conforms)
    (hmlabel : m.label = .inr .classDec) (hnlabel : n.label = .inr .classDec)
    (hleaves : m.leaves = n.leaves) : m = n := by
  have hread : ∀ m : Markup, m.Conforms → m.label = .inr .classDec →
      ∃ es, descend classItems (tokensOf [m]) = (es, some []) ∧
        es.filterMap Event.line? = m.lines := by
    intro m hm hlabel
    cases m with
    | leaf => cases hlabel
    | node rule children =>
      obtain rfl := Sum.inr.inj hlabel
      obtain ⟨c, es, hes, hlines⟩ := hm.derived
      have hdescends := (descends_class hes []).descend_eq
      rw [List.append_nil] at hdescends
      rw [linesOf, linesOf, List.append_nil] at hlines
      exact ⟨es, hdescends, hlines⟩
  have htokens : tokensOf [m] = tokensOf [n] := by
    simp only [tokensOf, leavesOf, List.append_nil, hleaves]
  obtain ⟨es, hes, hmlines⟩ := hread m hm hmlabel
  obtain ⟨fs, hfs, hnlines⟩ := hread n hn hnlabel
  rw [htokens, hfs] at hes
  obtain rfl : fs = es := congrArg Prod.fst hes
  exact eq_of_lines_eq (hmlines.symm.trans hnlines)

end Markup

end JackCompiler
