import JackCompiler.Proofs.Syntax.Prefixes

/-!
# The kinds of the tokens of actions

Actions keep tokens for their texts: names are identifiers, constants are numbers and
strings. Goals hand tokens on only as such, so that each action of what is read has tokens
of its kinds (`kinded_of_mem_descend`).
-/

namespace JackCompiler

/-! ## What actions and goals may hold -/

def Callee.Kinded : Callee → Prop
  | .own name => name.kind = .ident
  | .member qualifier name => qualifier.kind = .ident ∧ name.kind = .ident

def Action.Kinded : Action → Prop
  | .nameClass name => name.kind = .ident
  | .declare _ type name => type.kind ∈ variableTypes ∧ name.kind = .ident
  | .nameSubroutine name => name.kind = .ident
  | .pushInteger literal => literal.kind = .number
  | .pushText literal => literal.kind = .text
  | .resolve name => name.kind = .ident
  | .load name => name.kind = .ident
  | .store name => name.kind = .ident
  | .loadElement name => name.kind = .ident
  | .addressElement name => name.kind = .ident
  | .pushReceiver callee => callee.Kinded
  | .call callee _ => callee.Kinded
  | _ => True

def Note.Kinded : Note → Prop
  | .act a => a.Kinded
  | _ => True

def Goal.Kinded : Goal → Prop
  | .declaredName _ type => type.kind ∈ variableTypes
  | .moreNames _ type => type.kind ∈ variableTypes
  | .letRest target => target.kind = .ident
  | .callRest name => name.kind = .ident
  | .memberName qualifier => qualifier.kind = .ident
  | .arguments callee => callee.Kinded
  | .moreArguments callee _ => callee.Kinded
  | .termRest name => name.kind = .ident
  | _ => True

def Item.Kinded : Item → Prop
  | .goal g => g.Kinded
  | .note n => n.Kinded

structure Move.Kinded (m : Move) : Prop where
  take : ∀ before after, m = .take before after →
    (∀ n ∈ before, n.Kinded) ∧ ∀ i ∈ after, i.Kinded
  pass : ∀ before, m = .pass before → ∀ n ∈ before, n.Kinded
  refuse : ∀ before expected, m = .refuse before expected → ∀ n ∈ before, n.Kinded

/-! ## Moves -/

namespace Move.Kinded

theorem of_take {before : List Note} {after : List Item} (hbefore : ∀ n ∈ before, n.Kinded)
    (hafter : ∀ i ∈ after, i.Kinded) : (Move.take before after).Kinded := by
  refine ⟨fun _ _ h => ?_, fun _ h => ?_, fun _ _ h => ?_⟩ <;> cases h
  exact ⟨hbefore, hafter⟩

theorem of_pass {before : List Note} (hbefore : ∀ n ∈ before, n.Kinded) :
    (Move.pass before).Kinded := by
  refine ⟨fun _ _ h => ?_, fun _ h => ?_, fun _ _ h => ?_⟩ <;> cases h
  exact hbefore

theorem of_refuse {before : List Note} {expected : List Terminal}
    (hbefore : ∀ n ∈ before, n.Kinded) : (Move.refuse before expected).Kinded := by
  refine ⟨fun _ _ h => ?_, fun _ h => ?_, fun _ _ h => ?_⟩ <;> cases h
  exact hbefore

end Move.Kinded

theorem kinded_oneOf {kinds : List Terminal} {t : Token} {after : List Item}
    (h : t.kind ∈ kinds → ∀ i ∈ after, i.Kinded) : (oneOf kinds t after).Kinded := by
  unfold oneOf
  by_cases ht : t.kind ∈ kinds
  · rw [if_pos ht]
    exact .of_take (by simp) (h ht)
  · rw [if_neg ht]
    exact .of_refuse (by simp)

theorem kinded_statementsMove (t : Token) : (statementsMove t).Kinded := by
  unfold statementsMove
  split
  case h_6 => exact .of_pass (by simp)
  all_goals
    refine .of_take ?_ ?_ <;>
      simp [guardedItems, Item.enter, Item.leave, Item.act, Item.mark, Item.Kinded, Note.Kinded,
        Goal.Kinded, Action.Kinded]

theorem kinded_termMove {outer : List Note} {after : List Item}
    (houter : ∀ n ∈ outer, n.Kinded) (hafter : ∀ i ∈ after, i.Kinded) (t : Token) :
    (termMove outer t after).Kinded := by
  have hbefore : ∀ n ∈ outer ++ [Note.enter .term], n.Kinded :=
    List.forall_mem_append.mpr ⟨houter, by simp [Note.Kinded]⟩
  have hends : ∀ items : List Item, (∀ i ∈ items, i.Kinded) →
      ∀ i ∈ items ++ .leave .term :: after, i.Kinded := fun items hitems =>
    List.forall_mem_append.mpr ⟨hitems, List.forall_mem_cons.mpr ⟨trivial, hafter⟩⟩
  have hone : ∀ {i : Item}, i.Kinded → ∀ j ∈ [i], j.Kinded := fun hi =>
    List.forall_mem_singleton.mpr hi
  unfold termMove
  split
  case h_1 ht | h_2 ht | h_10 ht => exact .of_take hbefore (hends _ (hone ht))
  case h_3 | h_4 | h_5 | h_6 => exact .of_take hbefore (hends _ (hone trivial))
  case h_7 | h_8 | h_9 =>
    exact .of_take hbefore (hends _ (List.forall_mem_cons.mpr ⟨trivial, hone trivial⟩))
  case h_11 => exact .of_refuse hbefore

theorem kinded_expressionMove {outer : List Note} {after : List Item}
    (houter : ∀ n ∈ outer, n.Kinded) (hafter : ∀ i ∈ after, i.Kinded) (t : Token) :
    (expressionMove outer t after).Kinded := by
  refine kinded_termMove (List.forall_mem_append.mpr ⟨houter, by simp [Note.Kinded]⟩) ?_ t
  exact List.forall_mem_cons.mpr ⟨trivial, List.forall_mem_cons.mpr ⟨trivial, hafter⟩⟩

theorem kinded_argumentItems {callee : Callee} (h : callee.Kinded) :
    ∀ i ∈ argumentItems callee, i.Kinded := by
  simpa [argumentItems, Item.enter, Item.Kinded, Note.Kinded, Goal.Kinded] using h

theorem kinded_subroutineItems (kind : SubroutineKind) :
    ∀ i ∈ subroutineItems kind, i.Kinded := by
  cases kind <;>
    simp [subroutineItems, Item.enter, Item.leave, Item.act, Item.mark, Item.Kinded,
      Note.Kinded, Goal.Kinded, Action.Kinded]

theorem kinded_move {g : Goal} (h : g.Kinded) (t : Token) : (g.move t).Kinded := by
  cases g with
  | only | resultType => exact kinded_oneOf (by simp)
  -- A token that is kept, in a note or in a goal, has passed the test of `oneOf` just before.
  | className | subroutineName =>
    refine kinded_oneOf fun ht => ?_
    simpa [Item.act, Item.Kinded, Note.Kinded, Action.Kinded] using ht
  | declaredName kind type =>
    refine kinded_oneOf fun ht => ?_
    have hdeclare : (Action.declare kind type t).Kinded := ⟨h, List.mem_singleton.mp ht⟩
    simpa [Item.act, Item.Kinded, Note.Kinded] using hdeclare
  | declaredType | parameterType =>
    refine kinded_oneOf fun ht => ?_
    simpa [Item.mark, Item.Kinded, Goal.Kinded] using ht
  | letTarget =>
    refine kinded_oneOf fun ht => ?_
    simpa [Item.act, Item.Kinded, Note.Kinded, Action.Kinded, Goal.Kinded] using ht
  | callName =>
    refine kinded_oneOf fun ht => ?_
    simpa [Item.Kinded, Goal.Kinded] using ht
  | memberName qualifier =>
    refine kinded_oneOf fun ht => ?_
    have hcallee : (Callee.member qualifier t).Kinded := ⟨h, List.mem_singleton.mp ht⟩
    exact List.forall_mem_cons.mpr
      ⟨hcallee, List.forall_mem_cons.mpr ⟨trivial, kinded_argumentItems hcallee⟩⟩
  | statements => exact kinded_statementsMove t
  | expression => exact kinded_expressionMove (by simp) (by simp) t
  | term => exact kinded_termMove (by simp) (by simp) t
  | classVars =>
    simp only [Goal.move]
    split
    · exact .of_take (by simp [Note.Kinded])
        (by simp [Item.leave, Item.Kinded, Note.Kinded, Goal.Kinded])
    · exact .of_pass (by simp)
  | moreNames kind type =>
    simp only [Goal.move]
    split
    · refine .of_take (by simp) ?_
      simpa [Item.Kinded, Goal.Kinded] using h
    · exact .of_pass (by simp)
  | subroutines =>
    simp only [Goal.move]
    split
    · exact .of_take (by simp [Note.Kinded, Action.Kinded])
        (List.forall_mem_append.mpr ⟨kinded_subroutineItems _, by simp [Item.Kinded, Goal.Kinded]⟩)
    · exact .of_pass (by simp)
  | parameters =>
    simp only [Goal.move]
    split
    · exact .of_pass (by simp)
    · refine kinded_oneOf fun ht => ?_
      simpa [Item.Kinded, Goal.Kinded] using ht
  | moreParameters | locals =>
    simp only [Goal.move]
    split
    · exact .of_take (by simp [Note.Kinded])
        (by simp [Item.leave, Item.Kinded, Note.Kinded, Goal.Kinded])
    · exact .of_pass (by simp)
  | letRest target =>
    simp only [Goal.move]
    split
    · refine .of_take (by simp) ?_
      simpa [Item.act, Item.mark, Item.Kinded, Note.Kinded, Goal.Kinded, Action.Kinded] using h
    · refine kinded_oneOf fun _ => ?_
      simpa [Item.act, Item.Kinded, Note.Kinded, Goal.Kinded, Action.Kinded] using h
  | elseBranch =>
    simp only [Goal.move]
    split
    · exact .of_take (by simp [Note.Kinded, Action.Kinded])
        (by simp [Item.enter, Item.leave, Item.act, Item.mark, Item.Kinded, Note.Kinded,
          Goal.Kinded, Action.Kinded])
    · exact .of_pass (by simp [Note.Kinded, Action.Kinded])
  -- Here a note is made even if the token is refused.
  | callRest name =>
    have hcallee : (Callee.own name).Kinded := h
    have hbefore : ∀ n ∈ [Note.act (.pushReceiver (.own name))], n.Kinded := by
      simpa [Note.Kinded, Action.Kinded] using hcallee
    simp only [Goal.move]
    split
    · exact .of_take (by simp) (by simpa [Item.Kinded, Goal.Kinded] using h)
    · exact .of_take hbefore (kinded_argumentItems hcallee)
    · exact .of_refuse hbefore
  | arguments callee =>
    have hcallee : callee.Kinded := h
    simp only [Goal.move]
    split
    · refine .of_take (by simp [Note.Kinded]) ?_
      simpa [Item.act, Item.Kinded, Note.Kinded, Action.Kinded] using hcallee
    · refine kinded_expressionMove (by simp) ?_ t
      simpa [Item.act, Item.Kinded, Note.Kinded, Action.Kinded, Goal.Kinded] using hcallee
  | moreArguments callee count =>
    have hcallee : callee.Kinded := h
    simp only [Goal.move]
    split
    · refine .of_take (by simp) ?_
      simpa [Item.act, Item.Kinded, Note.Kinded, Action.Kinded, Goal.Kinded] using hcallee
    · refine .of_take (by simp [Note.Kinded]) ?_
      simpa [Item.act, Item.Kinded, Note.Kinded, Action.Kinded] using hcallee
    · exact .of_refuse (by simp [Note.Kinded])
  | result =>
    simp only [Goal.move]
    split
    · exact .of_pass (by simp [Note.Kinded, Action.Kinded])
    · exact kinded_expressionMove (by simp) (by simp) t
  | operators =>
    simp only [Goal.move]
    split
    · exact .of_take (by simp)
        (by simp [Item.act, Item.Kinded, Note.Kinded, Goal.Kinded, Action.Kinded])
    · exact .of_pass (by simp)
  | termRest name =>
    have hcallee : (Callee.own name).Kinded := h
    have hname : name.kind = .ident := h
    simp only [Goal.move]
    split
    · exact .of_take (by simp) (by simpa [Item.Kinded, Goal.Kinded] using hname)
    · exact .of_take (by simpa [Note.Kinded, Action.Kinded] using hcallee)
        (kinded_argumentItems hcallee)
    · refine .of_take (by simpa [Note.Kinded, Action.Kinded] using hname) ?_
      simpa [Item.act, Item.mark, Item.Kinded, Note.Kinded, Goal.Kinded, Action.Kinded] using hname
    · exact .of_pass (by simpa [Note.Kinded, Action.Kinded] using hname)

/-! ## Descents -/

theorem kinded_of_mem_descend {stack : List Item} {tokens : List Token} {n : Note}
    (hstack : ∀ i ∈ stack, i.Kinded) (hn : .note n ∈ (descend stack tokens).1) : n.Kinded := by
  fun_induction descend stack tokens with
  | case1 | case3 => simp at hn
  | case2 m stack tokens es rest hd ih =>
    obtain ⟨hm, hstack⟩ := List.forall_mem_cons.mp hstack
    rw [hd] at ih
    rcases List.mem_cons.mp hn with hn | hn
    · obtain rfl := Event.note.inj hn
      exact hm
    · exact ih hstack hn
  | case4 g stack t tokens before after hg es rest hd ih =>
    obtain ⟨hgoal, hstack⟩ := List.forall_mem_cons.mp hstack
    obtain ⟨hbefore, hafter⟩ := (kinded_move hgoal t).take _ _ hg
    rw [hd] at ih
    rcases List.mem_append.mp hn with hn | hn
    · exact hbefore n (by simpa using hn)
    · exact ih (List.forall_mem_append.mpr ⟨hafter, hstack⟩) (by simpa using hn)
  | case5 g stack t tokens before hg es rest hd ih =>
    obtain ⟨hgoal, hstack⟩ := List.forall_mem_cons.mp hstack
    have hbefore := (kinded_move hgoal t).pass _ hg
    rw [hd] at ih
    rcases List.mem_append.mp hn with hn | hn
    · exact hbefore n (by simpa using hn)
    · exact ih hstack hn
  | case6 g stack t tokens before expected hg =>
    obtain ⟨hgoal, -⟩ := List.forall_mem_cons.mp hstack
    exact (kinded_move hgoal t).refuse _ _ hg n (by simpa using hn)

theorem kinded_classItems : ∀ i ∈ classItems, i.Kinded := by
  simp [classItems, Item.enter, Item.leave, Item.mark, Item.Kinded, Note.Kinded, Goal.Kinded]

end JackCompiler
