import JackCompiler.Proofs.Syntax.Descent
import JackCompiler.Proofs.Syntax.Script

/-!
# Trees are read

A descent reads every tree without a fault, provided that what follows the tree cannot
be taken for a part of it.
-/

namespace JackCompiler

/-- Before a token of the kinds in `follow`, the items read whatever the script reads. -/
def Accepts (stack : List Item) (p : Script) (follow : List Terminal) : Prop :=
  ∀ u es, Reads p u es → ∀ (t : Token) (rest : List Token), t.kind ∈ follow →
    Descends stack (u ++ t :: rest) es (t :: rest)

/-- What the script begins with, or what follows it if it has no tokens, is in `kinds`. -/
def Begins (kinds follow : List Terminal) : Script → Prop
  | [] => follow ⊆ kinds
  | .note _ :: p => Begins kinds follow p
  | .fixed kind :: _ => kind ∈ kinds
  | .token t :: _ => t.kind ∈ kinds

theorem Begins.head_mem {kinds follow : List Terminal} {p : Script} {u : List Token}
    {es : List Event} (hb : Begins kinds follow p) (h : Reads p u es) (t : Token)
    (rest : List Token) (ht : t.kind ∈ follow) :
    ∃ s tokens, u ++ t :: rest = s :: tokens ∧ s.kind ∈ kinds := by
  induction h with
  | nil => exact ⟨t, rest, rfl, hb ht⟩
  | note _ ih => exact ih hb
  | fixed _ _ => exact ⟨_, _, rfl, hb⟩
  | token _ _ => exact ⟨_, _, rfl, hb⟩

/-! ## Taking a script apart -/

theorem reads_append {p q : Script} {u : List Token} {es : List Event}
    (h : Reads (p ++ q) u es) :
    ∃ v w fs gs, Reads p v fs ∧ Reads q w gs ∧ u = v ++ w ∧ es = fs ++ gs := by
  induction p generalizing u es with
  | nil => exact ⟨[], u, [], es, .nil, h, rfl, rfl⟩
  | cons x p ih =>
    cases h with
    | note h =>
      obtain ⟨v, w, fs, gs, hp, hq, rfl, rfl⟩ := ih h
      exact ⟨v, w, _ :: fs, gs, .note hp, hq, rfl, rfl⟩
    | fixed h =>
      obtain ⟨v, w, fs, gs, hp, hq, rfl, rfl⟩ := ih h
      exact ⟨_ :: v, w, _ :: fs, gs, .fixed hp, hq, rfl, rfl⟩
    | token h =>
      obtain ⟨v, w, fs, gs, hp, hq, rfl, rfl⟩ := ih h
      exact ⟨_ :: v, w, _ :: fs, gs, .token hp, hq, rfl, rfl⟩

theorem reads_fixed {kind : Terminal} {p : Script} {u : List Token} {es : List Event}
    (h : Reads (.fixed kind :: p) u es) :
    ∃ t v fs, t.kind = kind ∧ u = t :: v ∧ es = .take t :: fs ∧ Reads p v fs := by
  cases h with
  | fixed h => exact ⟨_, _, _, rfl, rfl, rfl, h⟩

theorem reads_notes (notes : List Note) {p : Script} {u : List Token} {es : List Event}
    (h : Reads (notes.map .note ++ p) u es) :
    ∃ fs, Reads p u fs ∧ es = notes.map .note ++ fs := by
  induction notes generalizing es with
  | nil => exact ⟨es, h, rfl⟩
  | cons n notes ih =>
    cases h with
    | note h =>
      obtain ⟨fs, hp, rfl⟩ := ih h
      exact ⟨fs, hp, rfl⟩

/-! ## Putting items together -/

section
variable {follow : List Terminal} {stack : List Item} {p q : Script}

theorem accepts_nil : Accepts [] [] follow := by
  intro u es h t rest _
  cases h
  exact .nil

theorem accepts_note {n : Note} (h : Accepts stack p follow) :
    Accepts (.note n :: stack) (.note n :: p) follow := by
  intro u es hr t rest ht
  cases hr with
  | note hr => exact .note (h u _ hr t rest ht)

theorem accepts_fixed {g : Goal} {kind : Terminal} (before : List Note) (after : List Item)
    (hg : ∀ t : Token, t.kind = kind → g.move t = .take before after)
    (h : Accepts (after ++ stack) p follow) :
    Accepts (.goal g :: stack) (before.map .note ++ .fixed kind :: p) follow := by
  intro u es hr t rest ht
  obtain ⟨fs, hp, rfl⟩ := reads_notes before hr
  cases hp with
  | fixed hp => exact .take (hg _ rfl) (h _ _ hp t rest ht)

theorem accepts_token {g : Goal} {s : Token} (before : List Note) (after : List Item)
    (hg : g.move s = .take before after) (h : Accepts (after ++ stack) p follow) :
    Accepts (.goal g :: stack) (before.map .note ++ .token s :: p) follow := by
  intro u es hr t rest ht
  obtain ⟨fs, hp, rfl⟩ := reads_notes before hr
  cases hp with
  | token hp => exact .take hg (h _ _ hp t rest ht)

theorem accepts_only {kind : Terminal} (h : Accepts stack p follow) :
    Accepts (.goal (.only kind) :: stack) (.fixed kind :: p) follow :=
  accepts_fixed [] [] (fun t ht => by simp [Goal.move, oneOf, ht]) h

theorem accepts_pass {g : Goal} (before : List Note)
    (hg : ∀ t : Token, t.kind ∈ follow → g.move t = .pass before) :
    Accepts [.goal g] (before.map .note) follow := by
  intro u es hr t rest ht
  obtain ⟨fs, hp, rfl⟩ := reads_notes (p := []) before (by simpa using hr)
  cases hp with
  | nil => exact .pass (hg t ht) .nil

/-- Items before others: what the others begin with has to be able to follow. -/
theorem Accepts.append {first : List Item} {kinds : List Terminal} (hp : Accepts first p kinds)
    (hq : Accepts stack q follow) (hb : Begins kinds follow q) :
    Accepts (first ++ stack) (p ++ q) follow := by
  intro u es hr t rest ht
  obtain ⟨v, w, fs, gs, hv, hw, rfl, rfl⟩ := reads_append hr
  obtain ⟨s, tokens, he, hs⟩ := hb.head_mem hw t rest ht
  have hfirst := hp v fs hv s tokens hs
  rw [← he, ← List.append_assoc] at hfirst
  exact hfirst.append (hq w gs hw t rest ht)

theorem Accepts.goal {g : Goal} {kinds : List Terminal} (hp : Accepts [.goal g] p kinds)
    (hq : Accepts stack q follow) (hb : Begins kinds follow q) :
    Accepts (.goal g :: stack) (p ++ q) follow :=
  hp.append hq hb

end

/-! ## Expressions -/

def expressionFollow : List Terminal :=
  [.mark .rightParen, .mark .rightBracket, .mark .semicolon, .mark .comma]

def termFollow : List Terminal :=
  expressionFollow ++ [.mark .plus, .mark .minus, .mark .star, .mark .slash, .mark .amp,
    .mark .pipe, .mark .lt, .mark .gt, .mark .eq]

theorem expressionFollow_subset : expressionFollow ⊆ termFollow := by
  decide

theorem mark_mem_termFollow (op : BinaryOp) : .mark op.mark ∈ termFollow := by
  cases op <;> decide

theorem begins_mark {kinds follow : List Terminal} {m : Mark} {p : Script}
    (h : .mark m ∈ kinds) : Begins kinds follow (.mark m :: p) :=
  h

theorem begins_operations (rest : Operations) {p : Script}
    (hp : Begins termFollow expressionFollow p) :
    Begins termFollow expressionFollow (rest.script ++ p) := by
  cases rest with
  | nil => exact hp
  | cons op operand rest =>
    rw [Operations.script]
    simp only [List.append_assoc]
    exact mark_mem_termFollow op

theorem move_operators_of_follow {t : Token} (ht : t.kind ∈ expressionFollow) :
    Goal.operators.move t = .pass [] := by
  simp only [expressionFollow, List.mem_cons, List.not_mem_nil, or_false] at ht
  rcases ht with ht | ht | ht | ht <;> simp [Goal.move, ht, BinaryOp.ofTerminal?]

theorem move_termRest_of_follow {t : Token} {name : Token} (ht : t.kind ∈ termFollow) :
    (Goal.termRest name).move t = .pass [.act (.load name)] := by
  simp only [termFollow, expressionFollow, List.cons_append, List.nil_append, List.mem_cons,
    List.not_mem_nil, or_false] at ht
  rcases ht with ht | ht | ht | ht | ht | ht | ht | ht | ht | ht | ht | ht | ht <;>
    simp [Goal.move, ht]

/-- A term takes its first token alike wherever it stands. -/
theorem exists_termMove {t : Token} (ht : t.kind ∈ termStarts) :
    ∃ (before : List Note) (items : List Item), ∀ (outer : List Note) (after : List Item),
      termMove outer t after = .take (outer ++ before) (items ++ after) := by
  simp only [termStarts, List.mem_cons, List.not_mem_nil, or_false] at ht
  unfold termMove
  rcases ht with ht | ht | ht | ht | ht | ht | ht | ht | ht | ht <;> simp only [ht]
  · exact ⟨_, [.act (.pushInteger t), .leave .term], fun _ _ => rfl⟩
  · exact ⟨_, [.act (.pushText t), .leave .term], fun _ _ => rfl⟩
  · exact ⟨_, [.act (.pushWord .true), .leave .term], fun _ _ => rfl⟩
  · exact ⟨_, [.act (.pushWord .false), .leave .term], fun _ _ => rfl⟩
  · exact ⟨_, [.act (.pushWord .null), .leave .term], fun _ _ => rfl⟩
  · exact ⟨_, [.act (.pushWord .this), .leave .term], fun _ _ => rfl⟩
  · exact ⟨_, [.goal .term, .act (.unary .neg), .leave .term], fun _ _ => rfl⟩
  · exact ⟨_, [.goal .term, .act (.unary .not), .leave .term], fun _ _ => rfl⟩
  · exact ⟨_, [.goal .expression, .mark .rightParen, .leave .term], fun _ _ => rfl⟩
  · exact ⟨_, [.goal (.termRest t), .leave .term], fun _ _ => rfl⟩

theorem mem_termStarts_of_take {t : Token} {outer before : List Note} {after items : List Item}
    (h : termMove outer t after = .take before items) : t.kind ∈ termStarts := by
  unfold termMove at h
  split at h <;> rename_i ht
  all_goals first
    | cases h; done
    | rw [ht]; decide

theorem Descends.expression {stack : List Item} {tokens rest : List Token} {es : List Event}
    (h : Descends (.goal .term :: .goal .operators :: .leave .expression :: stack) tokens es rest) :
    Descends (.goal .expression :: stack) tokens (.note (.enter .expression) :: es) rest := by
  cases h with
  | take hg h =>
    obtain ⟨before, items, hmove⟩ := exists_termMove (mem_termStarts_of_take hg)
    obtain ⟨rfl, rfl⟩ : before = _ ∧ items = _ := by simpa using (hmove [] []).symm.trans hg
    have hm : Goal.expression.move _ = _ :=
      hmove [.enter .expression] [.goal .operators, .leave .expression]
    exact Descends.take hm (by simpa using h)
  | pass hg _ => exact absurd hg (termMove_ne_pass _ _ _ _)

theorem Descends.of_expression {g : Goal} {after stack : List Item} {tokens rest : List Token}
    {es : List Event}
    (hg : ∀ t : Token, t.kind ∈ termStarts → g.move t = expressionMove [] t after)
    (h : Descends (.goal .expression :: (after ++ stack)) tokens es rest) :
    Descends (.goal g :: stack) tokens es rest := by
  cases h with
  | @take _ t _ _ _ _ _ _ hm h =>
    have ht : t.kind ∈ termStarts := mem_termStarts_of_take hm
    obtain ⟨before, items, hmove⟩ := exists_termMove ht
    have he := (hmove [.enter .expression] [.goal .operators, .leave .expression]).symm.trans hm
    obtain ⟨rfl, rfl⟩ := by simpa using he
    refine .take ((hg t ht).trans (hmove [.enter .expression] _)) ?_
    simpa using h
  | pass hm _ => exact absurd hm (termMove_ne_pass _ _ _ _)

def CallName.first : CallName → Name
  | .own name => name
  | .member qualifier _ => qualifier

theorem Name.kind_eq (name : Name) : name.token.kind = .ident := by
  simpa using name.kind_mem

/-- A call behind its first name, read by a goal that goes on as `callRest` does. -/
theorem accepts_callRest {g : Token → Goal} {arguments : Script} {count : Nat}
    (hdot : ∀ name t : Token, t.kind = .mark .dot →
      (g name).move t = .take [] [.goal (.memberName name)])
    (hparen : ∀ name t : Token, t.kind = .mark .leftParen →
      (g name).move t = .take [.act (.pushReceiver (.own name))] (argumentItems (.own name)))
    (hargs : ∀ callee follow,
      Accepts [.goal (.arguments callee)] (arguments ++ callEndScript callee count) follow)
    (target : CallName) (follow : List Terminal) :
    ∃ p, target.script arguments count = .token target.first.token :: p ∧
      Accepts [.goal (g target.first.token)] p follow := by
  cases target with
  | own name =>
    refine ⟨_, by simp only [CallName.script, CallName.nameScript, List.cons_append,
      List.nil_append]; rfl, ?_⟩
    exact accepts_fixed [.act (.pushReceiver (.own name.token))] (argumentItems (.own name.token))
      (hparen name.token) (accepts_note (hargs _ _))
  | member qualifier name =>
    refine ⟨_, by simp only [CallName.script, CallName.nameScript, List.cons_append,
      List.nil_append]; rfl, ?_⟩
    refine accepts_fixed [] [.goal (.memberName qualifier.token)] (hdot qualifier.token) ?_
    have hname : (Goal.memberName qualifier.token).move name.token = .take []
        (.act (.pushReceiver (.member qualifier.token name.token)) :: .mark .leftParen ::
          argumentItems (.member qualifier.token name.token)) := by
      simp [Goal.move, oneOf, name.kind_eq]
    exact accepts_token [] _ hname (accepts_note (accepts_only (accepts_note (hargs _ _))))

theorem move_arguments_of_termStarts {callee : Callee} {t : Token} (ht : t.kind ∈ termStarts) :
    (Goal.arguments callee).move t =
      expressionMove [] t [.act (.countArguments 1), .goal (.moreArguments callee 1)] := by
  have hne : t.kind ≠ .mark .rightParen := by
    intro he
    rw [he] at ht
    exact absurd ht (by decide)
  simp [Goal.move, hne]

theorem begins_moreArguments (rest : Arguments) (callee : Callee) (before count : Nat)
    (follow : List Terminal) :
    Begins expressionFollow follow
      (.act (.countArguments before) :: rest.moreScript before ++ callEndScript callee count) := by
  cases rest with
  | nil => exact (by decide : Terminal.mark .rightParen ∈ expressionFollow)
  | cons first rest =>
    rw [Arguments.moreScript, List.cons_append, List.append_assoc, List.append_assoc,
      List.append_assoc]
    exact (by decide : Terminal.mark .comma ∈ expressionFollow)

mutual

theorem Term.accepts : ∀ term : Term, Accepts [.goal .term] term.script termFollow
  | .integer literal => by
    have ht : literal.token.kind = .number := by simpa using literal.kind_mem
    refine accepts_token [.enter .term] [.act (.pushInteger literal.token), .leave .term] ?_
      (accepts_note (accepts_note accepts_nil))
    simp [Goal.move, termMove, ht]
  | .text literal => by
    have ht : literal.token.kind = .text := by simpa using literal.kind_mem
    refine accepts_token [.enter .term] [.act (.pushText literal.token), .leave .term] ?_
      (accepts_note (accepts_note accepts_nil))
    simp [Goal.move, termMove, ht]
  | .word word => by
    refine accepts_fixed [.enter .term] [.act (.pushWord word), .leave .term] ?_
      (accepts_note (accepts_note accepts_nil))
    intro t ht
    cases word <;> simp [Goal.move, termMove, ht, Word.keyword]
  | .unary op operand => by
    rw [Term.script, List.append_assoc]
    refine accepts_fixed [.enter .term] [.goal .term, .act (.unary op), .leave .term] ?_ ?_
    · intro t ht
      cases op <;> simp [Goal.move, termMove, ht, UnaryOp.mark]
    · exact (Term.accepts operand).goal (accepts_note (accepts_note accepts_nil)) (fun _ h => h)
  | .group inner => by
    rw [Term.script, List.append_assoc]
    refine accepts_fixed [.enter .term] [.goal .expression, .mark .rightParen, .leave .term] ?_ ?_
    · intro t ht
      simp [Goal.move, termMove, ht]
    · exact (Expression.accepts inner).goal (accepts_only (accepts_note accepts_nil))
        (begins_mark (by decide))
  | .var name => by
    refine accepts_token [.enter .term] [.goal (.termRest name.token), .leave .term] ?_ ?_
    · simp [Goal.move, termMove, name.kind_eq]
    · exact (accepts_pass [.act (.load name.token)] fun t ht => move_termRest_of_follow ht).goal
        (accepts_note accepts_nil) (fun _ h => h)
  | .element array index => by
    rw [Term.script]
    simp only [List.cons_append, List.nil_append]
    refine accepts_token [.enter .term] [.goal (.termRest array.token), .leave .term] ?_ ?_
    · simp [Goal.move, termMove, array.kind_eq]
    refine accepts_fixed [.act (.resolve array.token)]
      [.goal .expression, .mark .rightBracket, .act (.loadElement array.token)] ?_ ?_
    · intro t ht
      simp [Goal.move, ht]
    · exact (Expression.accepts index).goal
        (accepts_only (accepts_note (accepts_note accepts_nil))) (begins_mark (by decide))
  -- Behind its first name, a call is read alike in a term and in a `do` statement.
  | .call target arguments => by
    obtain ⟨p, hp, hcall⟩ := accepts_callRest (g := .termRest)
      (fun name t ht => by simp [Goal.move, ht]) (fun name t ht => by simp [Goal.move, ht])
      (Arguments.accepts arguments) target termFollow
    rw [Term.script, hp]
    refine accepts_token [.enter .term] [.goal (.termRest target.first.token), .leave .term] ?_ ?_
    · simp [Goal.move, termMove, target.first.kind_eq]
    · exact hcall.goal (accepts_note accepts_nil) (fun _ h => h)

theorem Expression.accepts :
    ∀ e : Expression, Accepts [.goal .expression] e.script expressionFollow
  | .mk first rest => by
    intro u es hr t tokens ht
    rw [Expression.script, List.append_assoc, List.append_assoc] at hr
    cases hr with
    | note hr =>
      have hrest : Accepts [.goal .operators, .leave .expression]
          (rest.script ++ [.leave .expression]) expressionFollow :=
        (Operations.accepts rest).goal (accepts_note accepts_nil) (fun _ h => h)
      have hterm := (Term.accepts first).goal hrest
        (begins_operations rest expressionFollow_subset)
      exact (hterm u _ hr t tokens ht).expression

theorem Operations.accepts :
    ∀ rest : Operations, Accepts [.goal .operators] rest.script expressionFollow
  | .nil => accepts_pass [] fun _ ht => move_operators_of_follow ht
  | .cons op operand rest => by
    rw [Operations.script]
    simp only [List.append_assoc, List.cons_append, List.nil_append]
    refine accepts_fixed [] [.goal .term, .act (.binary op), .goal .operators] ?_ ?_
    · intro t ht
      have hop : BinaryOp.ofTerminal? t.kind = some op := BinaryOp.ofTerminal?_eq_some_iff.mpr ht
      simp [Goal.move, hop]
    · have hb := begins_operations rest (p := []) expressionFollow_subset
      rw [List.append_nil] at hb
      exact (Term.accepts operand).goal (accepts_note (Operations.accepts rest)) hb

theorem Arguments.accepts : ∀ (arguments : Arguments) (callee : Callee) (follow : List Terminal),
    Accepts [.goal (.arguments callee)]
      (arguments.script ++ callEndScript callee arguments.length) follow
  | .nil, callee, follow => by
    refine accepts_fixed [.leave .expressionList] [.act (.call callee 0)] ?_ (accepts_note accepts_nil)
    intro t ht
    simp [Goal.move, ht]
  | .cons first rest, callee, follow => by
    intro u es hr t tokens ht
    rw [Arguments.script, Arguments.length, List.append_assoc, List.append_assoc,
      Nat.add_comm] at hr
    have hmore := Arguments.acceptsMore rest callee 1 follow
    have h := (Expression.accepts first).goal (accepts_note hmore)
      (begins_moreArguments rest callee 1 _ follow)
    exact Descends.of_expression (fun t ht => move_arguments_of_termStarts ht)
      (h u es hr t tokens ht)

theorem Arguments.acceptsMore : ∀ (arguments : Arguments) (callee : Callee) (count : Nat)
    (follow : List Terminal), Accepts [.goal (.moreArguments callee count)]
      (arguments.moreScript count ++ callEndScript callee (count + arguments.length)) follow
  | .nil, callee, count, follow => by
    refine accepts_fixed [.leave .expressionList] [.act (.call callee count)] ?_
      (accepts_note accepts_nil)
    intro t ht
    simp [Goal.move, ht]
  | .cons first rest, callee, count, follow => by
    have hcount : count + (Arguments.cons first rest).length = count + 1 + rest.length := by
      rw [Arguments.length]
      omega
    rw [Arguments.moreScript, hcount]
    simp only [List.append_assoc, List.cons_append, List.nil_append]
    refine accepts_fixed [] [.goal .expression, .act (.countArguments (count + 1)),
      .goal (.moreArguments callee (count + 1))] ?_ ?_
    · intro t ht
      simp [Goal.move, ht]
    · exact (Expression.accepts first).goal
        (accepts_note (Arguments.acceptsMore rest callee (count + 1) follow))
        (begins_moreArguments rest callee (count + 1) _ follow)

end

/-! ## Statements -/

def statementFollow : List Terminal :=
  [.keyword .let_, .keyword .if_, .keyword .while_, .keyword .do_, .keyword .return_,
    .mark .rightBrace]

theorem begins_block (b : Block) {follow : List Terminal} {p : Script}
    (hp : Begins statementFollow follow p) :
    Begins statementFollow follow (b.script ++ p) := by
  cases b with
  | empty => exact hp
  | let_ target value next =>
    simp only [Block.script, List.append_assoc]
    exact (by decide : Terminal.keyword .let_ ∈ statementFollow)
  | if_ condition yes next =>
    simp only [Block.script, List.append_assoc]
    exact (by decide : Terminal.keyword .if_ ∈ statementFollow)
  | ifElse condition yes no next =>
    simp only [Block.script, List.append_assoc]
    exact (by decide : Terminal.keyword .if_ ∈ statementFollow)
  | while_ condition body next =>
    simp only [Block.script, List.append_assoc]
    exact (by decide : Terminal.keyword .while_ ∈ statementFollow)
  | do_ target arguments next =>
    simp only [Block.script, List.append_assoc]
    exact (by decide : Terminal.keyword .do_ ∈ statementFollow)
  | return_ value next =>
    simp only [Block.script, List.append_assoc]
    exact (by decide : Terminal.keyword .return_ ∈ statementFollow)

theorem accepts_letTarget (target : Target) (value : Expression) :
    Accepts [.goal .letTarget] (assignmentScript target value) [.mark .semicolon] := by
  have hvalue : ∀ action, Accepts [.goal .expression, .act action]
      (value.script ++ [.act action]) [.mark .semicolon] := fun action =>
    (Expression.accepts value).goal (accepts_note accepts_nil)
      (by decide : [Terminal.mark .semicolon] ⊆ expressionFollow)
  cases target with
  | var name =>
    simp only [assignmentScript, Target.script, List.cons_append, List.nil_append]
    refine accepts_token [] [.act (.resolve name.token), .goal (.letRest name.token)] ?_
      (accepts_note ?_)
    · simp [Goal.move, oneOf, name.kind_eq]
    refine accepts_fixed [] [.goal .expression, .act (.store name.token)] ?_ (hvalue _)
    intro t ht
    simp [Goal.move, oneOf, ht]
  | element array index =>
    simp only [assignmentScript, Target.script, List.append_assoc, List.cons_append,
      List.nil_append]
    refine accepts_token [] [.act (.resolve array.token), .goal (.letRest array.token)] ?_
      (accepts_note ?_)
    · simp [Goal.move, oneOf, array.kind_eq]
    refine accepts_fixed [] [.goal .expression, .act (.addressElement array.token),
      .mark .rightBracket, .mark .eq, .goal .expression, .act .storeElement] ?_ ?_
    · intro t ht
      simp [Goal.move, ht]
    · exact (Expression.accepts index).goal
        (accepts_note (accepts_only (accepts_only (hvalue _))))
        (by decide : Terminal.mark .rightBracket ∈ expressionFollow)

theorem accepts_result (value : Option Expression) :
    Accepts [.goal .result] (resultScript value) [.mark .semicolon] := by
  cases value with
  | none =>
    refine accepts_pass [.act .pushNoResult] fun t ht => ?_
    rw [List.mem_singleton] at ht
    simp [Goal.move, ht]
  | some value =>
    intro u es hr t tokens ht
    have hne : ∀ s : Token, s.kind ∈ termStarts → Goal.result.move s = expressionMove [] s [] := by
      intro s hs
      have : s.kind ≠ .mark .semicolon := by
        intro he
        rw [he] at hs
        exact absurd hs (by decide)
      simp [Goal.move, this]
    refine Descends.of_expression hne (Expression.accepts value u es hr t tokens ?_)
    exact (by decide : [Terminal.mark .semicolon] ⊆ expressionFollow) ht

theorem accepts_callName (target : CallName) (arguments : Arguments) (follow : List Terminal) :
    Accepts [.goal .callName] (target.script arguments.script arguments.length) follow := by
  obtain ⟨p, hp, hcall⟩ := accepts_callRest (g := .callRest)
    (fun name t ht => by simp [Goal.move, ht]) (fun name t ht => by simp [Goal.move, ht])
    (Arguments.accepts arguments) target follow
  rw [hp]
  refine accepts_token [] [.goal (.callRest target.first.token)] ?_ hcall
  simp [Goal.move, oneOf, target.first.kind_eq]

theorem accepts_braced {block p : Script} {stack : List Item} {follow : List Terminal}
    (hblock : Accepts [.goal .statements] block [.mark .rightBrace])
    (h : Accepts stack p follow) :
    Accepts (.mark .leftBrace :: .enter .statements :: .goal .statements :: .leave .statements ::
      .mark .rightBrace :: stack) (bracedScript block ++ p) follow := by
  simp only [bracedScript, List.append_assoc, List.cons_append, List.nil_append]
  exact accepts_only (accepts_note (hblock.goal (accepts_note (accepts_only h))
    (by decide : Terminal.mark .rightBrace ∈ [Terminal.mark .rightBrace])))

theorem accepts_guarded {condition : Expression} {tested : Action} {block p : Script}
    {stack : List Item} {follow : List Terminal}
    (hblock : Accepts [.goal .statements] block [.mark .rightBrace])
    (h : Accepts stack p follow) :
    Accepts (guardedItems tested ++ stack) (guardedScript condition tested block ++ p) follow := by
  simp only [guardedScript, List.append_assoc, List.cons_append, List.nil_append]
  exact accepts_only ((Expression.accepts condition).goal
    (accepts_only (accepts_note (accepts_braced hblock h))) (begins_mark (by decide)))

theorem Block.accepts (b : Block) :
    Accepts [.goal .statements] b.script [.mark .rightBrace] := by
  induction b with
  | empty =>
    refine accepts_pass [] fun t ht => ?_
    rw [List.mem_singleton] at ht
    simp [Goal.move, statementsMove, ht]
  | let_ target value next ih =>
    simp only [Block.script, List.append_assoc, List.cons_append, List.nil_append]
    refine accepts_fixed [.enter .letStatement]
      [.goal .letTarget, .mark .semicolon, .leave .letStatement, .goal .statements] ?_ ?_
    · intro t ht
      simp [Goal.move, statementsMove, ht]
    · exact (accepts_letTarget target value).goal (accepts_only (accepts_note ih))
        (begins_mark (by decide))
  | if_ condition yes next ihyes ih =>
    simp only [Block.script, List.append_assoc, List.cons_append, List.nil_append]
    refine accepts_fixed [.enter .ifStatement, .act .startIf]
      (guardedItems .branchIf ++ [Item.goal .elseBranch, .leave .ifStatement, .goal .statements]) ?_ ?_
    · intro t ht
      simp [Goal.move, statementsMove, ht]
    -- There is no `else` here, and nothing that can follow a statement is one.
    have helse : Accepts [.goal .elseBranch] [.act .endIf] statementFollow := by
      refine accepts_pass [.act .endIf] fun t ht => ?_
      have : t.kind ≠ .keyword .else_ := by
        intro he
        rw [he] at ht
        exact absurd ht (by decide)
      simp [Goal.move, this]
    have hb := begins_block next (p := [])
      (by decide : [Terminal.mark .rightBrace] ⊆ statementFollow)
    rw [List.append_nil] at hb ⊢
    exact accepts_guarded ihyes (helse.goal (accepts_note ih) hb)
  | ifElse condition yes no next ihyes ihno ih =>
    simp only [Block.script, List.append_assoc, List.cons_append, List.nil_append]
    refine accepts_fixed [.enter .ifStatement, .act .startIf]
      (guardedItems .branchIf ++ [Item.goal .elseBranch, .leave .ifStatement, .goal .statements]) ?_ ?_
    · intro t ht
      simp [Goal.move, statementsMove, ht]
    rw [List.append_nil]
    refine accepts_guarded ihyes (accepts_fixed [.act .elseIf]
      [.mark .leftBrace, .enter .statements, .goal .statements, .leave .statements,
        .mark .rightBrace, .act .endElse] ?_ ?_)
    · intro t ht
      simp [Goal.move, ht]
    · exact accepts_braced ihno (accepts_note (accepts_note ih))
  | while_ condition body next ihbody ih =>
    simp only [Block.script, List.append_assoc, List.cons_append, List.nil_append]
    refine accepts_fixed [.enter .whileStatement, .act .startWhile]
      (guardedItems .testWhile ++
        [Item.act .endWhile, .leave .whileStatement, .goal .statements]) ?_ ?_
    · intro t ht
      simp [Goal.move, statementsMove, ht]
    rw [List.append_nil]
    exact accepts_guarded ihbody (accepts_note (accepts_note ih))
  | do_ target arguments next ih =>
    simp only [Block.script, List.append_assoc, List.cons_append, List.nil_append]
    refine accepts_fixed [.enter .doStatement] [.goal .callName, .mark .semicolon, .act .discard,
      .leave .doStatement, .goal .statements] ?_ ?_
    · intro t ht
      simp [Goal.move, statementsMove, ht]
    · exact (accepts_callName target arguments [.mark .semicolon]).goal
        (accepts_only (accepts_note (accepts_note ih))) (begins_mark (by decide))
  | return_ value next ih =>
    simp only [Block.script, List.append_assoc, List.cons_append, List.nil_append]
    refine accepts_fixed [.enter .returnStatement] [.goal .result, .mark .semicolon,
      .act .leaveSubroutine, .leave .returnStatement, .goal .statements] ?_ ?_
    · intro t ht
      simp [Goal.move, statementsMove, ht]
    · exact (accepts_result value).goal (accepts_only (accepts_note (accepts_note ih)))
        (begins_mark (by decide))

/-! ## Declarations -/

theorem accepts_name {kind : VariableKind} {type : Token} (name : Name) {stack : List Item}
    {p : Script} {follow : List Terminal} (h : Accepts stack p follow) :
    Accepts (.goal (.declaredName kind type) :: stack) (nameScript kind type name ++ p) follow := by
  refine accepts_token [] [.act (.declare kind type name.token)] ?_ (accepts_note h)
  simp [Goal.move, oneOf, name.kind_eq]

theorem accepts_moreNames (kind : VariableKind) (type : Token) (names : List Name) :
    Accepts [.goal (.moreNames kind type)] (moreNamesScript kind type names)
      [.mark .semicolon] := by
  induction names with
  | nil =>
    refine accepts_pass [] fun t ht => ?_
    rw [List.mem_singleton] at ht
    simp [Goal.move, ht]
  | cons name names ih =>
    refine accepts_fixed [] [.goal (.declaredName kind type), .goal (.moreNames kind type)] ?_
      (accepts_name name ih)
    intro t ht
    simp [Goal.move, ht]

theorem accepts_declared {kind : VariableKind} (d : Declared) {stack : List Item} {p : Script}
    {follow : List Terminal} (h : Accepts stack p follow) :
    Accepts (.goal (.declaredType kind) :: stack) (d.script kind ++ p) follow := by
  simp only [Declared.script, List.append_assoc, List.cons_append, List.nil_append]
  refine accepts_token [] [.goal (.declaredName kind d.type.token),
    .goal (.moreNames kind d.type.token), .mark .semicolon] ?_ (accepts_name d.first ?_)
  · simp only [Goal.move, oneOf, if_pos d.type.kind_mem]
  · exact (accepts_moreNames kind d.type.token d.more).goal (accepts_only h)
      (by decide : Terminal.mark .semicolon ∈ [Terminal.mark .semicolon])

theorem accepts_classVars (ds : List ClassVarDec) :
    Accepts [.goal .classVars] (ds.flatMap ClassVarDec.script)
      [.keyword .constructor, .keyword .function, .keyword .method, .mark .rightBrace] := by
  induction ds with
  | nil =>
    refine accepts_pass [] fun t ht => ?_
    simp only [List.mem_cons, List.not_mem_nil, or_false] at ht
    rcases ht with ht | ht | ht | ht <;> simp [Goal.move, ht, VariableKind.ofTerminal?]
  | cons d ds ih =>
    simp only [List.flatMap_cons, ClassVarDec.script, List.append_assoc, List.cons_append,
      List.nil_append]
    refine accepts_fixed [.enter .classVarDec]
      [.goal (.declaredType d.kind), .leave .classVarDec, .goal .classVars] ?_
      (accepts_declared d.declared (accepts_note ih))
    intro t ht
    have hk : VariableKind.ofTerminal? t.kind = some d.kind :=
      VariableKind.ofTerminal?_eq_some_iff.mpr ⟨d.inClass, ht⟩
    simp [Goal.move, hk]

theorem accepts_locals (ds : List Declared) :
    Accepts [.goal .locals] (ds.flatMap localsScript) statementFollow := by
  induction ds with
  | nil =>
    refine accepts_pass [] fun t ht => ?_
    have : t.kind ≠ .keyword .var := by
      intro he
      rw [he] at ht
      exact absurd ht (by decide)
    simp [Goal.move, this]
  | cons d ds ih =>
    simp only [List.flatMap_cons, localsScript, List.append_assoc, List.cons_append,
      List.nil_append]
    refine accepts_fixed [.enter .varDec]
      [.goal (.declaredType .local), .leave .varDec, .goal .locals] ?_
      (accepts_declared d (accepts_note ih))
    intro t ht
    simp [Goal.move, ht]

theorem accepts_moreParameters (ps : List Parameter) :
    Accepts [.goal .moreParameters] (moreParametersScript ps) [.mark .rightParen] := by
  induction ps with
  | nil =>
    refine accepts_pass [] fun t ht => ?_
    rw [List.mem_singleton] at ht
    simp [Goal.move, ht]
  | cons p ps ih =>
    refine accepts_fixed [] [.goal .parameterType] ?_ (accepts_token []
      [.goal (.declaredName .argument p.type.token), .goal .moreParameters] ?_
      (accepts_name p.name ih))
    · intro t ht
      simp [Goal.move, ht]
    · simp only [Goal.move, oneOf, if_pos p.type.kind_mem]

theorem accepts_parameters (ps : List Parameter) :
    Accepts [.goal .parameters] (parametersScript ps) [.mark .rightParen] := by
  cases ps with
  | nil =>
    refine accepts_pass [] fun t ht => ?_
    rw [List.mem_singleton] at ht
    simp [Goal.move, ht]
  | cons p ps =>
    refine accepts_token [] [.goal (.declaredName .argument p.type.token), .goal .moreParameters] ?_
      (accepts_name p.name (accepts_moreParameters ps))
    have hne : p.type.token.kind ≠ .mark .rightParen := by
      intro he
      have hp := p.type.kind_mem
      rw [he] at hp
      exact absurd hp (by decide)
    simp only [Goal.move, oneOf, if_neg hne, if_pos p.type.kind_mem]

theorem accepts_body (s : SubroutineDec) {stack : List Item} {p : Script} {follow : List Terminal}
    (h : Accepts stack p follow) :
    Accepts
      (.mark .leftBrace :: .goal .locals :: .act (.startBody s.kind) :: .enter .statements ::
        .goal .statements :: .leave .statements :: .mark .rightBrace :: .leave .subroutineBody ::
        .act (.endBody s.kind) :: .leave .subroutineDec :: stack)
      (.mark .leftBrace :: (s.locals.flatMap localsScript ++
        (.act (.startBody s.kind) :: .enter .statements :: (s.body.script ++
          (.leave .statements :: .mark .rightBrace :: .leave .subroutineBody ::
            .act (.endBody s.kind) :: .leave .subroutineDec :: p))))) follow := by
  have hbody := s.body.accepts.goal (q := .leave .statements :: .mark .rightBrace :: _)
    (accepts_note (accepts_only (accepts_note (n := .leave .subroutineBody)
      (accepts_note (n := .act (.endBody s.kind)) (accepts_note (n := .leave .subroutineDec) h)))))
    (by decide : Terminal.mark .rightBrace ∈ [Terminal.mark .rightBrace])
  exact accepts_only ((accepts_locals s.locals).goal (accepts_note (accepts_note hbody))
    (begins_block s.body (by decide : Terminal.mark .rightBrace ∈ statementFollow)))

theorem accepts_header (s : SubroutineDec) {stack : List Item} {p : Script}
    {follow : List Terminal} (h : Accepts stack (.mark .leftBrace :: p) follow) :
    Accepts
      (.goal .resultType :: .goal .subroutineName :: .mark .leftParen :: .enter .parameterList ::
        .goal .parameters :: .leave .parameterList :: .mark .rightParen ::
        .enter .subroutineBody :: stack)
      (.token s.result.token :: .token s.name.token :: .act (.nameSubroutine s.name.token) ::
        .mark .leftParen :: .enter .parameterList :: (parametersScript s.parameters ++
          (.leave .parameterList :: .mark .rightParen :: .enter .subroutineBody ::
            .mark .leftBrace :: p))) follow := by
  have hparameters := (accepts_parameters s.parameters).goal
    (q := .leave .parameterList :: .mark .rightParen :: _)
    (accepts_note (accepts_only (accepts_note (n := .enter .subroutineBody) h)))
    (by decide : Terminal.mark .rightParen ∈ [Terminal.mark .rightParen])
  refine accepts_token [] [] ?_ (accepts_token [] [.act (.nameSubroutine s.name.token)] ?_
    (accepts_note (accepts_only (accepts_note hparameters))))
  · simp only [Goal.move, oneOf, if_pos s.result.kind_mem]
  · simp [Goal.move, oneOf, s.name.kind_eq]

theorem accepts_subroutines (ss : List SubroutineDec) :
    Accepts [.goal .subroutines] (ss.flatMap SubroutineDec.script) [.mark .rightBrace] := by
  induction ss with
  | nil =>
    refine accepts_pass [] fun t ht => ?_
    rw [List.mem_singleton] at ht
    simp [Goal.move, ht, SubroutineKind.ofTerminal?]
  | cons s ss ih =>
    simp only [List.flatMap_cons, SubroutineDec.script, List.append_assoc, List.cons_append,
      List.nil_append]
    refine accepts_fixed [.enter .subroutineDec, .act .startSubroutine]
      (subroutineItems s.kind ++ [Item.goal .subroutines]) ?_ ?_
    · intro t ht
      have hk : SubroutineKind.ofTerminal? t.kind = some s.kind :=
        SubroutineKind.ofTerminal?_eq_some_iff.mpr ht
      simp [Goal.move, hk]
    rw [List.append_nil, subroutineItems, List.append_assoc]
    have hhead := accepts_header s (accepts_body s ih)
    by_cases hk : s.kind = .method
    · rw [if_pos hk, if_pos hk]
      exact accepts_note hhead
    · rw [if_neg hk, if_neg hk]
      exact hhead

/-! ## Classes -/

theorem begins_subroutines (ss : List SubroutineDec) :
    Begins [.keyword .constructor, .keyword .function, .keyword .method, .mark .rightBrace]
      [.mark .rightBrace] (ss.flatMap SubroutineDec.script) := by
  cases ss with
  | nil => exact List.subset_cons_of_subset _ (by decide)
  | cons s ss =>
    simp only [List.flatMap_cons, SubroutineDec.script, List.append_assoc]
    change Terminal.keyword s.kind.keyword ∈ _
    cases s.kind <;> decide

/-- The tokens of a class are read without a fault, whatever follows them. -/
theorem descends_class {c : ClassDec} {u : List Token} {es : List Event}
    (h : Reads c.script u es) (rest : List Token) : Descends classItems (u ++ rest) es rest := by
  rw [ClassDec.script] at h
  obtain ⟨v, w, fs, gs, hv, hw, rfl, rfl⟩ := reads_append h
  obtain ⟨t, _, _, ht, rfl, rfl, hlast⟩ := reads_fixed hw
  cases hlast with
  | note hnil =>
    cases hnil
    have hmove : (Goal.only (.mark .rightBrace)).move t = .take [] [] := by
      simp [Goal.move, oneOf, ht]
    have hend : Descends [.mark .rightBrace, .leave .classDec] (t :: rest)
        ([].map .note ++ [.take t, .note (.leave .classDec)]) rest := .take hmove (.note .nil)
    have hfront : Accepts [.enter .classDec, .goal (.only (.keyword .class_)), .goal .className,
        .mark .leftBrace, .goal .classVars, .goal .subroutines]
        (.enter .classDec :: .keyword .class_ :: .token c.name.token ::
          .act (.nameClass c.name.token) :: .mark .leftBrace ::
          (c.variableDecs.flatMap ClassVarDec.script ++ c.subroutines.flatMap SubroutineDec.script))
        [.mark .rightBrace] := by
      refine accepts_note (accepts_only (accepts_token [] [.act (.nameClass c.name.token)] ?_
        (accepts_note (accepts_only ((accepts_classVars c.variableDecs).goal
          (accepts_subroutines c.subroutines) (begins_subroutines c.subroutines))))))
      simp [Goal.move, oneOf, c.name.kind_eq]
    have hdone := hfront v fs (by simpa using hv) t rest (by simpa using ht)
    simpa [classItems] using hdone.append hend

end JackCompiler
