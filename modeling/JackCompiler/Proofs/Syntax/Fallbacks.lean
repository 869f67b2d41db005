import JackCompiler.Proofs.Syntax.Prefixes

/-!
# Branches for which there is no token

The last token is taken by no goal, so a descent never runs out of tokens
(`exhausted_notMem_descend`). Some choices look at a token twice: one of certain kinds is let
through, and then its kind tells the alternative, with a branch left over for a kind that tells
none. A descent that chooses so comes to no such branch (`branchingDescend_eq`).
-/

namespace JackCompiler

/-! ## Tokens that are taken -/

def Terminal.IsFixed : Terminal → Prop
  | .mark _ | .keyword _ => True
  | _ => False

def Item.Fixed : Item → Prop
  | .goal (.only kind) => kind.IsFixed
  | _ => True

theorem fixed_after_termMove {outer before : List Note} {t : Token} {after items : List Item}
    (h : termMove outer t after = .take before items) (hafter : ∀ i ∈ after, i.Fixed) :
    ∀ i ∈ items, i.Fixed := by
  have hleave : ∀ i ∈ Item.leave .term :: after, i.Fixed :=
    List.forall_mem_cons.mpr ⟨trivial, hafter⟩
  unfold termMove at h
  split at h <;> cases h <;> refine List.forall_mem_append.mpr ⟨?_, hleave⟩ <;>
    simp [Item.Fixed, Item.act, Item.mark, Terminal.IsFixed]

theorem fixed_argumentItems (callee : Callee) : ∀ i ∈ argumentItems callee, i.Fixed := by
  simp [argumentItems, Item.enter, Item.Fixed]

theorem fixed_guardedItems (tested : Action) : ∀ i ∈ guardedItems tested, i.Fixed := by
  simp [guardedItems, Item.enter, Item.leave, Item.act, Item.mark, Item.Fixed, Terminal.IsFixed]

theorem fixed_subroutineItems (kind : SubroutineKind) :
    ∀ i ∈ subroutineItems kind, i.Fixed := by
  cases kind <;>
    simp [subroutineItems, Item.enter, Item.leave, Item.act, Item.mark, Item.Fixed,
      Terminal.IsFixed]

theorem fixed_classItems : ∀ i ∈ classItems, i.Fixed := by
  simp [classItems, Item.enter, Item.leave, Item.mark, Item.Fixed, Terminal.IsFixed]

/-- What follows a token awaits no name, no constant and not the end by its kind alone. -/
theorem fixed_after {g : Goal} {t : Token} {before : List Note} {after : List Item}
    (h : g.move t = .take before after) : ∀ i ∈ after, i.Fixed := by
  cases g with
  | only | className | declaredType | declaredName | resultType | subroutineName
  | parameterType | letTarget | callName =>
    obtain ⟨-, -, rfl⟩ := oneOf_eq_take h
    simp [Item.Fixed, Item.act, Item.mark, Terminal.IsFixed]
  | memberName qualifier =>
    obtain ⟨-, -, rfl⟩ := oneOf_eq_take h
    exact List.forall_mem_cons.mpr ⟨trivial, List.forall_mem_cons.mpr
      ⟨trivial, fixed_argumentItems _⟩⟩
  | expression | term =>
    exact fixed_after_termMove h (by simp [Item.Fixed, Item.leave])
  | statements =>
    change statementsMove t = _ at h
    unfold statementsMove at h
    split at h <;> cases h
    -- Conditionals and loops, which go on with a condition and a block.
    case h_2 | h_3 =>
      exact List.forall_mem_append.mpr
        ⟨fixed_guardedItems _, by simp [Item.Fixed, Item.act, Item.leave]⟩
    all_goals simp [Item.Fixed, Item.act, Item.leave, Item.mark, Terminal.IsFixed]
  | subroutines =>
    simp only [Goal.move] at h
    split at h <;> cases h
    exact List.forall_mem_append.mpr ⟨fixed_subroutineItems _, by simp [Item.Fixed]⟩
  | classVars | moreNames | moreParameters | locals | elseBranch | operators | moreArguments =>
    simp only [Goal.move] at h
    split at h <;> cases h <;>
      simp [Item.Fixed, Item.act, Item.enter, Item.leave, Item.mark, Terminal.IsFixed]
  | callRest | termRest =>
    simp only [Goal.move] at h
    split at h <;> cases h
    case h_2 => exact fixed_argumentItems _
    all_goals simp [Item.Fixed, Item.act, Item.mark, Terminal.IsFixed]
  | parameters =>
    simp only [Goal.move] at h
    split at h
    · cases h
    · obtain ⟨-, -, rfl⟩ := oneOf_eq_take h
      simp [Item.Fixed]
  | letRest target =>
    simp only [Goal.move] at h
    split at h
    · cases h
      simp [Item.Fixed, Item.act, Item.mark, Terminal.IsFixed]
    · obtain ⟨-, -, rfl⟩ := oneOf_eq_take h
      simp [Item.Fixed, Item.act]
  | arguments callee =>
    simp only [Goal.move] at h
    split at h
    · cases h
      simp [Item.Fixed, Item.act]
    · exact fixed_after_termMove h (by simp [Item.Fixed, Item.act, Item.leave])
  | result =>
    simp only [Goal.move] at h
    split at h
    · cases h
    · exact fixed_after_termMove h (by simp [Item.Fixed, Item.leave])

/-! ## The last token -/

theorem oneOf_ne_take {kinds : List Terminal} {t : Token} (h : t.kind ∉ kinds)
    (after items : List Item) (before : List Note) : oneOf kinds t after ≠ .take before items := by
  intro htake
  obtain ⟨⟨leaf, rfl⟩, -⟩ := oneOf_eq_take htake
  exact h leaf.kind_mem

theorem termMove_ne_take {t : Token} (h : t.kind = .finish) (outer before : List Note)
    (after items : List Item) : termMove outer t after ≠ .take before items := by
  simp [termMove, h]

theorem kind_ne_finish_of_take {g : Goal} {t : Token} {before : List Note} {after : List Item}
    (hg : (Item.goal g).Fixed) (h : g.move t = .take before after) : t.kind ≠ .finish := by
  intro ht
  have honeOf : ∀ (kinds : List Terminal) (items : List Item), .finish ∉ kinds →
      oneOf kinds t items ≠ .take before after := fun kinds items hkinds =>
    oneOf_ne_take (by rwa [ht]) _ _ _
  cases g with
  | only kind =>
    refine honeOf _ _ ?_ h
    rw [List.mem_singleton]
    rintro rfl
    exact hg
  | className | declaredType | declaredName | resultType | subroutineName | parameterType
  | letTarget | callName | memberName => exact honeOf _ _ (by decide) h
  | expression | term => exact termMove_ne_take ht _ _ _ _ h
  | classVars | subroutines | statements | operators | moreNames | moreParameters | locals
  | elseBranch | callRest | termRest | moreArguments =>
    simp [Goal.move, statementsMove, VariableKind.ofTerminal?, SubroutineKind.ofTerminal?,
      BinaryOp.ofTerminal?, ht] at h
  | parameters | letRest =>
    simp only [Goal.move, ht] at h
    exact honeOf _ _ (by decide) h
  | arguments | result =>
    simp only [Goal.move, ht] at h
    exact termMove_ne_take ht _ _ _ _ h

theorem kind_ne_finish_of_mem_descend {stack : List Item} {tokens : List Token} {t : Token}
    (hstack : ∀ i ∈ stack, i.Fixed) (ht : .take t ∈ (descend stack tokens).1) :
    t.kind ≠ .finish := by
  fun_induction descend stack tokens with
  | case1 | case3 => simp at ht
  | case2 n stack tokens es rest hd ih =>
    rw [hd] at ih
    exact ih (List.forall_mem_cons.mp hstack).2 (by simpa using ht)
  | case4 g stack s tokens before after hg es rest hd ih =>
    obtain ⟨hgoal, hstack⟩ := List.forall_mem_cons.mp hstack
    rw [hd] at ih
    rcases List.mem_append.mp ht with ht | ht
    · simp at ht
    rcases List.mem_cons.mp ht with ht | ht
    · obtain rfl := Event.take.inj ht
      exact kind_ne_finish_of_take hgoal hg
    · exact ih (List.forall_mem_append.mpr ⟨fixed_after hg, hstack⟩) ht
  | case5 g stack s tokens before hg es rest hd ih =>
    rw [hd] at ih
    exact ih (List.forall_mem_cons.mp hstack).2 (by simpa using ht)
  | case6 => simp at ht

/-- A descent does not run out of tokens, the last one being there. -/
theorem exhausted_notMem_descend {stack : List Item} {tokens : List Token}
    (hstack : ∀ i ∈ stack, i.Fixed) (hfinish : ∃ t ∈ tokens, t.kind = .finish) :
    .exhausted ∉ (descend stack tokens).1 := by
  fun_induction descend stack tokens with
  | case1 => exact List.not_mem_nil
  | case2 n stack tokens es rest hd ih =>
    rw [hd] at ih
    simpa using ih (List.forall_mem_cons.mp hstack).2 hfinish
  | case3 =>
    obtain ⟨t, ht, -⟩ := hfinish
    cases ht
  | case4 g stack s tokens before after hg es rest hd ih =>
    obtain ⟨hgoal, hstack⟩ := List.forall_mem_cons.mp hstack
    rw [hd] at ih
    -- The token taken is not the last one, which is thus among those behind it.
    have hrest : ∃ t ∈ tokens, t.kind = .finish := by
      obtain ⟨t, ht, hkind⟩ := hfinish
      rcases List.mem_cons.mp ht with rfl | ht
      · exact absurd hkind (kind_ne_finish_of_take hgoal hg)
      · exact ⟨t, ht, hkind⟩
    simpa using ih (List.forall_mem_append.mpr ⟨fixed_after hg, hstack⟩) hrest
  | case5 g stack s tokens before hg es rest hd ih =>
    rw [hd] at ih
    simpa using ih (List.forall_mem_cons.mp hstack).2 hfinish
  | case6 => simp

/-! ## Choices that are made twice -/

def subroutineStarts : List Terminal :=
  [.keyword .constructor, .keyword .function, .keyword .method]

def operatorMarks : List Terminal :=
  [.mark .plus, .mark .minus, .mark .star, .mark .slash, .mark .amp, .mark .pipe, .mark .lt,
    .mark .gt, .mark .eq]

def statementStarts : List Terminal :=
  [.keyword .let_, .keyword .if_, .keyword .while_, .keyword .do_, .keyword .return_]

/-- The branches for a token that is let through and tells no alternative. -/
inductive Fallback
  | subroutine
  | operator
  | statement
deriving DecidableEq, Repr

/-- What is left to do, if choices are made twice: items, and fallbacks behind tokens that
are taken already. -/
inductive Branch
  | item (item : Item)
  | fallback (fallback : Fallback)

inductive Branching
  | take (before : List Note) (after : List Branch)
  | pass (before : List Note)
  | refuse (before : List Note) (expected : List Terminal)
  | fall (fallback : Fallback)

def Move.branching : Move → Branching
  | .take before after => .take before (after.map .item)
  | .pass before => .pass before
  | .refuse before expected => .refuse before expected

/-- What becomes of the goal when the next token is `t`. A subroutine's keyword and an operator
are taken for their being among certain kinds, and told apart behind that; the keyword of a
statement is told when it is the next token. -/
def Goal.branching (g : Goal) (t : Token) : Branching :=
  match g with
  | .subroutines =>
    if t.kind ∈ subroutineStarts then
      .take [.enter .subroutineDec, .act .startSubroutine]
        (match SubroutineKind.ofTerminal? t.kind with
        | some kind => (subroutineItems kind ++ [Item.goal .subroutines]).map .item
        | none => [.fallback .subroutine])
    else .pass []
  | .operators =>
    if t.kind ∈ operatorMarks then
      .take []
        (.item (.goal .term) ::
          match BinaryOp.ofTerminal? t.kind with
          | some op => [.item (.act (.binary op)), .item (.goal .operators)]
          | none => [.fallback .operator])
    else .pass []
  | .statements =>
    if t.kind ∈ statementStarts then
      match statementsMove t with
      | .take before after => .take before (after.map .item)
      | _ => .fall .statement
    else .pass []
  | _ => (g.move t).branching

theorem mem_subroutineStarts_iff {kind : Terminal} :
    kind ∈ subroutineStarts ↔ (SubroutineKind.ofTerminal? kind).isSome = true := by
  refine ⟨fun h => ?_, fun h => ?_⟩
  · revert kind
    decide
  · unfold SubroutineKind.ofTerminal? at h
    split at h <;> first | decide | cases h

theorem exists_statementsMove {t : Token} (h : t.kind ∈ statementStarts) :
    ∃ before after, statementsMove t = .take before after := by
  simp only [statementStarts, List.mem_cons, List.not_mem_nil, or_false] at h
  rcases h with h | h | h | h | h <;> simp [statementsMove, h]

theorem statementsMove_of_notMem {t : Token} (h : t.kind ∉ statementStarts) :
    statementsMove t = .pass [] := by
  unfold statementsMove
  split
  case h_6 => rfl
  all_goals
    rename_i hkind
    exact absurd (by rw [hkind]; decide) h

theorem mem_operatorMarks_iff {kind : Terminal} :
    kind ∈ operatorMarks ↔ (BinaryOp.ofTerminal? kind).isSome = true := by
  refine ⟨fun h => ?_, fun h => ?_⟩
  · revert kind
    decide
  · unfold BinaryOp.ofTerminal? at h
    split at h <;> first | decide | cases h

/-- The tokens that are let through are those that tell an alternative. -/
theorem Goal.branching_eq (g : Goal) (t : Token) : g.branching t = (g.move t).branching := by
  cases g with
  -- Only these goals test the token before they branch on it. The others branch once.
  | subroutines =>
    simp only [branching, move]
    cases hkind : SubroutineKind.ofTerminal? t.kind with
    | some kind =>
      rw [if_pos (mem_subroutineStarts_iff.mpr (by rw [hkind]; rfl))]
      rfl
    | none =>
      rw [if_neg (mem_subroutineStarts_iff.not.mpr (by simp [hkind]))]
      rfl
  | operators =>
    simp only [branching, move]
    cases hop : BinaryOp.ofTerminal? t.kind with
    | some op =>
      rw [if_pos (mem_operatorMarks_iff.mpr (by rw [hop]; rfl))]
      rfl
    | none =>
      rw [if_neg (mem_operatorMarks_iff.not.mpr (by simp [hop]))]
      rfl
  | statements =>
    simp only [branching, move]
    by_cases ht : t.kind ∈ statementStarts
    · obtain ⟨before, after, hmove⟩ := exists_statementsMove ht
      rw [if_pos ht, hmove]
      rfl
    · rw [if_neg ht, statementsMove_of_notMem ht]
      rfl
  | _ => rfl

/-- The descent with its choices made twice. It ends without a result where a fallback is what
comes next. -/
def branchingDescend :
    List Branch → List Token → Except Fallback (List Event × Option (List Token))
  | [], tokens => .ok ([], some tokens)
  | .fallback f :: _, _ => .error f
  | .item (.note n) :: stack, tokens => do
    let (es, rest) ← branchingDescend stack tokens
    return (.note n :: es, rest)
  | .item (.goal _) :: _, [] => .ok ([.exhausted], none)
  | .item (.goal g) :: stack, t :: tokens =>
    match g.branching t with
    | .take before after => do
      let (es, rest) ← branchingDescend (after ++ stack) tokens
      return (before.map .note ++ .take t :: es, rest)
    | .pass before => do
      let (es, rest) ← branchingDescend stack (t :: tokens)
      return (before.map .note ++ es, rest)
    | .refuse before expected => .ok (before.map .note ++ [.refuse expected t], none)
    | .fall f => .error f
termination_by stack tokens => (tokens.length, stack.length)

/-- A descent that makes its choices twice comes to no fallback, and goes as one that makes
them once. -/
theorem branchingDescend_eq (stack : List Item) (tokens : List Token) :
    branchingDescend (stack.map .item) tokens = .ok (descend stack tokens) := by
  fun_induction descend stack tokens with
  | case1 tokens => rw [List.map_nil, branchingDescend]
  | case2 n stack tokens es rest hd ih =>
    rw [List.map_cons, branchingDescend, ih, hd]
    rfl
  | case3 => rw [List.map_cons, branchingDescend]
  | case4 g stack t tokens before after hg es rest hd ih =>
    rw [List.map_append] at ih
    rw [List.map_cons, branchingDescend, g.branching_eq, hg]
    simp only [Move.branching]
    rw [ih, hd]
    rfl
  | case5 g stack t tokens before hg es rest hd ih =>
    rw [List.map_cons, branchingDescend, g.branching_eq, hg]
    simp only [Move.branching]
    rw [ih, hd]
    rfl
  | case6 g stack t tokens before expected hg =>
    rw [List.map_cons, branchingDescend, g.branching_eq, hg]
    rfl

end JackCompiler
