import JackCompiler.Proofs.Syntax.Descent

/-!
# Tokens with other texts

The parser tells tokens apart by their kinds. So when tokens are exchanged for others of
the same kinds, what is read stays the same but for the exchange (`descend_map`).
-/

namespace JackCompiler

variable {f : Token → Token}

/-! ## Exchanging the tokens of what is read -/

def Callee.map (f : Token → Token) : Callee → Callee
  | .own name => .own (f name)
  | .member qualifier name => .member (f qualifier) (f name)

def Action.map (f : Token → Token) : Action → Action
  | .nameClass name => .nameClass (f name)
  | .declare kind type name => .declare kind (f type) (f name)
  | .nameSubroutine name => .nameSubroutine (f name)
  | .pushInteger literal => .pushInteger (f literal)
  | .pushText literal => .pushText (f literal)
  | .resolve name => .resolve (f name)
  | .load name => .load (f name)
  | .store name => .store (f name)
  | .loadElement name => .loadElement (f name)
  | .addressElement name => .addressElement (f name)
  | .pushReceiver callee => .pushReceiver (callee.map f)
  | .call callee arguments => .call (callee.map f) arguments
  | a => a

def Note.map (f : Token → Token) : Note → Note
  | .act a => .act (a.map f)
  | n => n

def Event.map (f : Token → Token) : Event → Event
  | .note n => .note (n.map f)
  | .take t => .take (f t)
  | .refuse expected found => .refuse expected (f found)
  | e => e

def Goal.map (f : Token → Token) : Goal → Goal
  | .declaredName kind type => .declaredName kind (f type)
  | .moreNames kind type => .moreNames kind (f type)
  | .letRest target => .letRest (f target)
  | .callRest name => .callRest (f name)
  | .memberName qualifier => .memberName (f qualifier)
  | .arguments callee => .arguments (callee.map f)
  | .moreArguments callee count => .moreArguments (callee.map f) count
  | .termRest name => .termRest (f name)
  | g => g

def Item.map (f : Token → Token) : Item → Item
  | .goal g => .goal (g.map f)
  | .note n => .note (n.map f)

def Move.map (f : Token → Token) : Move → Move
  | .take before after => .take (before.map (Note.map f)) (after.map (Item.map f))
  | .pass before => .pass (before.map (Note.map f))
  | .refuse before expected => .refuse (before.map (Note.map f)) expected

/-! ## Moves -/

section Moves

variable (hf : ∀ t, (f t).kind = t.kind)

include hf

theorem oneOf_map (kinds : List Terminal) (t : Token) (after : List Item) :
    oneOf kinds (f t) (after.map (Item.map f)) = (oneOf kinds t after).map f := by
  unfold oneOf
  rw [hf]
  split <;> rfl

theorem statementsMove_map (t : Token) : statementsMove (f t) = (statementsMove t).map f := by
  unfold statementsMove
  rw [hf]
  generalize t.kind = kind
  cases kind with
  | keyword k => cases k <;> rfl
  | _ => rfl

theorem termMove_map (outer : List Note) (t : Token) (after : List Item) :
    termMove (outer.map (Note.map f)) (f t) (after.map (Item.map f)) =
      (termMove outer t after).map f := by
  have hbefore : outer.map (Note.map f) ++ [Note.enter .term] =
      (outer ++ [Note.enter .term]).map (Note.map f) := by
    rw [List.map_append]
    rfl
  unfold termMove
  rw [hf, hbefore]
  generalize t.kind = kind
  cases kind with
  | keyword k => cases k <;> rfl
  | mark m => cases m <;> rfl
  | _ => rfl

theorem expressionMove_map (outer : List Note) (t : Token) (after : List Item) :
    expressionMove (outer.map (Note.map f)) (f t) (after.map (Item.map f)) =
      (expressionMove outer t after).map f := by
  have h := termMove_map hf (outer ++ [.enter .expression]) t
    (.goal .operators :: .leave .expression :: after)
  rw [List.map_append] at h
  exact h

theorem move_map (g : Goal) (t : Token) : (g.map f).move (f t) = (g.move t).map f := by
  cases g with
  | only kind => exact oneOf_map hf [kind] t []
  | className => exact oneOf_map hf [.ident] t [.act (.nameClass t)]
  | declaredType kind =>
    exact oneOf_map hf variableTypes t
      [.goal (.declaredName kind t), .goal (.moreNames kind t), .mark .semicolon]
  | declaredName kind type => exact oneOf_map hf [.ident] t [.act (.declare kind type t)]
  | resultType => exact oneOf_map hf resultTypes t []
  | subroutineName => exact oneOf_map hf [.ident] t [.act (.nameSubroutine t)]
  | parameterType =>
    exact oneOf_map hf variableTypes t [.goal (.declaredName .argument t), .goal .moreParameters]
  | letTarget => exact oneOf_map hf [.ident] t [.act (.resolve t), .goal (.letRest t)]
  | callName => exact oneOf_map hf [.ident] t [.goal (.callRest t)]
  | memberName qualifier =>
    exact oneOf_map hf [.ident] t (.act (.pushReceiver (.member qualifier t)) ::
      .mark .leftParen :: argumentItems (.member qualifier t))
  | statements => exact statementsMove_map hf t
  | expression => exact expressionMove_map hf [] t []
  | term => exact termMove_map hf [] t []
  -- Both sides test the kind first, which `f` keeps.
  | parameters =>
    have h := oneOf_map hf variableTypes t
      [.goal (.declaredName .argument t), .goal .moreParameters]
    simp only [Goal.map, Goal.move, hf]
    split
    · rfl
    · exact h
  | letRest target =>
    have h := oneOf_map hf [.mark .eq] t [.goal .expression, .act (.store target)]
    simp only [Goal.map, Goal.move, hf]
    split
    · rfl
    · exact h
  | arguments callee =>
    have h := expressionMove_map hf [] t
      [.act (.countArguments 1), .goal (.moreArguments callee 1)]
    simp only [Goal.map, Goal.move, hf]
    split
    · rfl
    · exact h
  | result =>
    have h := expressionMove_map hf [] t []
    simp only [Goal.map, Goal.move, hf]
    split
    · rfl
    · exact h
  | moreNames | moreParameters | locals | elseBranch =>
    simp only [Goal.map, Goal.move, hf]
    split <;> rfl
  | classVars | operators =>
    simp only [Goal.map, Goal.move, hf]
    split <;> rfl
  | subroutines =>
    simp only [Goal.map, Goal.move, hf]
    cases SubroutineKind.ofTerminal? t.kind with
    | none => rfl
    | some kind => cases kind <;> rfl
  | callRest name | moreArguments callee count | termRest name =>
    simp only [Goal.map, Goal.move, hf]
    generalize t.kind = kind
    cases kind with
    | mark m => cases m <;> rfl
    | _ => rfl

/-! ## Descents -/

theorem descend_map (stack : List Item) (tokens : List Token) :
    descend (stack.map (Item.map f)) (tokens.map f) =
      ((descend stack tokens).1.map (Event.map f), (descend stack tokens).2.map (List.map f)) := by
  fun_induction descend stack tokens with
  | case1 tokens => simp [descend]
  | case2 n stack tokens es rest hd ih =>
    rw [hd] at ih
    rw [List.map_cons, Item.map, descend, ih]
    rfl
  | case3 g stack => simp [descend, Item.map, Event.map]
  | case4 g stack t tokens before after hg es rest hd ih =>
    have hmove : (g.map f).move (f t) =
        .take (before.map (Note.map f)) (after.map (Item.map f)) := by
      rw [move_map hf, hg]
      rfl
    rw [hd, List.map_append] at ih
    rw [List.map_cons, List.map_cons, Item.map, descend, hmove]
    simp only [ih]
    simp [Event.map]
  | case5 g stack t tokens before hg es rest hd ih =>
    have hmove : (g.map f).move (f t) = .pass (before.map (Note.map f)) := by
      rw [move_map hf, hg]
      rfl
    rw [hd, List.map_cons] at ih
    rw [List.map_cons, List.map_cons, Item.map, descend, hmove]
    simp only [ih]
    simp [Event.map]
  | case6 g stack t tokens before expected hg =>
    have hmove : (g.map f).move (f t) = .refuse (before.map (Note.map f)) expected := by
      rw [move_map hf, hg]
      rfl
    rw [List.map_cons, List.map_cons, Item.map, descend, hmove]
    simp [Event.map]

end Moves

end JackCompiler
