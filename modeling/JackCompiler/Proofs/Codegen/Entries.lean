import Mathlib.Data.List.TakeWhile
import JackCompiler.Proofs.Codegen.Passes
import JackCompiler.Proofs.Syntax.Continuation

/-!
# Rules entered between two tokens

Between two tokens the rules that are entered are of falling rank, and none of them is left
unless it may be empty. This can be read off the items on the stack: behind one that enters
a rule stands a goal that takes the next token or that is all there is of the rule
(`steady_descend`).
-/

namespace JackCompiler

/-! ## Ranks -/

/-- How many rules can be entered within the rule before it takes a token. -/
def Rule.rank : Rule → Nat
  | .expressionList => 2
  | .expression | .statements => 1
  | _ => 0

theorem Rule.rank_lt (r : Rule) : r.rank < 3 := by
  cases r <;> decide

def emptyRules : List Rule :=
  [.parameterList, .statements, .expressionList]

namespace TraceLine

def entered? : TraceLine → Option Rule
  | .enter rule => some rule
  | _ => none

def taken? : TraceLine → Option Token
  | .leaf token => some token
  | _ => none

/-- The second line may come after the first one with no token between them. -/
def Admits : TraceLine → TraceLine → Prop
  | .enter r, .enter r' => r'.rank < r.rank
  | .enter r, .leave _ => r ∈ emptyRules
  | _, _ => True

instance : (l l' : TraceLine) → Decidable (l.Admits l')
  | .enter r, .enter r' => inferInstanceAs (Decidable (r'.rank < r.rank))
  | .enter r, .leave _ => inferInstanceAs (Decidable (r ∈ emptyRules))
  | .enter _, .leaf _ | .leave _, _ | .leaf _, _ => inferInstanceAs (Decidable True)

end TraceLine

/-! ## Lines between two tokens -/

def untilToken (lines : List TraceLine) : List TraceLine :=
  lines.takeWhile (·.taken?.isNone)

theorem mem_untilToken_append {l : TraceLine} {a b : List TraceLine} (h : l ∈ untilToken (a ++ b)) :
    l ∈ a ∨ l ∈ untilToken b := by
  rw [untilToken, List.takeWhile_append] at h
  split at h
  · exact List.mem_append.mp h
  · exact .inl ((List.takeWhile_prefix _).subset h)

theorem untilToken_leaf (t : Token) (lines : List TraceLine) :
    untilToken (.leaf t :: lines) = [] := rfl

theorem untilToken_cons {l : TraceLine} (h : l.taken? = none) (lines : List TraceLine) :
    untilToken (l :: lines) = l :: untilToken lines := by
  simp [untilToken, h]

theorem untilToken_eq_self {lines : List TraceLine} (h : ∀ l ∈ lines, l.taken? = none) :
    untilToken lines = lines :=
  List.takeWhile_eq_self_iff.mpr fun l hl => by simp [h l hl]

theorem taken?_of_mem_untilToken {lines : List TraceLine} {l : TraceLine}
    (h : l ∈ untilToken lines) : l.taken? = none := by
  simpa using List.mem_takeWhile_imp h

/-- Each line admits those that come after it before the next token. -/
def Steady : List TraceLine → Prop
  | [] => True
  | l :: lines => (∀ l' ∈ untilToken lines, l.Admits l') ∧ Steady lines

theorem steady_leaf {t : Token} {lines : List TraceLine} (h : Steady lines) :
    Steady (.leaf t :: lines) :=
  ⟨fun _ _ => trivial, h⟩

theorem steady_leave {r : Rule} {lines : List TraceLine} (h : Steady lines) :
    Steady (.leave r :: lines) :=
  ⟨fun _ _ => trivial, h⟩

namespace Steady

theorem of_append_left {a b : List TraceLine} (h : Steady (a ++ b)) : Steady a := by
  induction a with
  | nil => trivial
  | cons l a ih =>
    have hsub : untilToken a ⊆ untilToken (a ++ b) := by
      intro l' hl'
      rw [untilToken, List.takeWhile_append]
      split
      · exact List.mem_append_left _ ((List.takeWhile_prefix _).subset hl')
      · exact hl'
    exact ⟨fun l' hl' => h.1 l' (hsub hl'), ih h.2⟩

theorem of_append_right {a b : List TraceLine} (h : Steady (a ++ b)) : Steady b := by
  induction a with
  | nil => exact h
  | cons l a ih => exact ih h.2

theorem of_part {lines part : List TraceLine} (h : Steady lines) (hpart : part <:+: lines) :
    Steady part := by
  obtain ⟨before, behind, rfl⟩ := hpart
  exact h.of_append_left.of_append_right

theorem pairwise {gap : List TraceLine} (h : Steady gap) (hgap : ∀ l ∈ gap, l.taken? = none) :
    gap.Pairwise TraceLine.Admits := by
  induction gap with
  | nil => exact .nil
  | cons l gap ih =>
    have hrest := (List.forall_mem_cons.mp hgap).2
    refine .cons (fun l' hl' => h.1 l' ?_) (ih h.2 hrest)
    rwa [untilToken_eq_self hrest]

end Steady

/-- Lines that admit each other are steady if they are the last ones before a token. -/
theorem steady_append {gap lines : List TraceLine} (hgap : gap.Pairwise TraceLine.Admits)
    (hstart : untilToken lines = []) (hlines : Steady lines) : Steady (gap ++ lines) := by
  induction hgap with
  | nil => exact hlines
  | @cons l gap hl hgap ih =>
    refine ⟨fun l' hl' => ?_, ih⟩
    rcases mem_untilToken_append hl' with hmem | hmem
    · exact hl l' hmem
    · rw [hstart] at hmem
      cases hmem

/-! ## Moves -/

def eventLines (events : List Event) : List TraceLine :=
  events.filterMap Event.line?

def Move.lines : Move → List TraceLine
  | .take before _ | .pass before | .refuse before _ => eventLines (before.map .note)

theorem lines_oneOf (kinds : List Terminal) (t : Token) (after : List Item) :
    (oneOf kinds t after).lines = [] := by
  unfold oneOf
  split <;> rfl

theorem lines_termMove (outer : List Note) (t : Token) (after : List Item) :
    (termMove outer t after).lines = eventLines (outer.map .note) ++ [.enter .term] := by
  unfold termMove
  split <;> simp [Move.lines, eventLines, Event.line?]

theorem lines_expressionMove (t : Token) (after : List Item) :
    (expressionMove [] t after).lines = [.enter .expression, .enter .term] :=
  lines_termMove _ t _

theorem lines_statementsMove (t : Token) :
    (statementsMove t).lines = [] ∨ ∃ r : Rule, r.rank = 0 ∧ (statementsMove t).lines = [.enter r] := by
  unfold statementsMove
  split
  case h_6 => exact .inl rfl
  all_goals exact .inr ⟨_, rfl, rfl⟩

/-- What a goal makes of a token enters few rules: one, an expression with its first term, or
none. Only the end of an argument list is noted before the token behind it. -/
theorem lines_move (g : Goal) (t : Token) :
    (g.move t).lines = [] ∨ (∃ r : Rule, (g.move t).lines = [.enter r]) ∨
      (g.move t).lines = [.leave .expressionList] ∨
      (g.move t).lines = [.enter .expression, .enter .term] := by
  cases g with
  | only | className | declaredType | declaredName | resultType | subroutineName
  | parameterType | letTarget | callName | memberName => exact .inl (lines_oneOf _ t _)
  | expression => exact .inr (.inr (.inr (lines_expressionMove t _)))
  | term => exact .inr (.inl ⟨_, lines_termMove [] t _⟩)
  | statements =>
    rcases lines_statementsMove t with h | ⟨r, -, h⟩
    · exact .inl h
    · exact .inr (.inl ⟨r, h⟩)
  | classVars | subroutines | locals =>
    simp only [Goal.move]
    split
    · exact .inr (.inl ⟨_, rfl⟩)
    · exact .inl rfl
  | moreNames | moreParameters | elseBranch | operators =>
    simp only [Goal.move]
    split <;> exact .inl rfl
  | parameters | letRest =>
    simp only [Goal.move]
    split
    · exact .inl rfl
    · exact .inl (lines_oneOf _ t _)
  | callRest | termRest =>
    simp only [Goal.move]
    split <;> exact .inl rfl
  | moreArguments =>
    simp only [Goal.move]
    split
    · exact .inl rfl
    all_goals exact .inr (.inr (.inl rfl))
  | arguments =>
    simp only [Goal.move]
    split
    · exact .inr (.inr (.inl rfl))
    · exact .inr (.inr (.inr (lines_expressionMove t _)))
  | result =>
    simp only [Goal.move]
    split
    · exact .inl rfl
    · exact .inr (.inr (.inr (lines_expressionMove t _)))

theorem pairwise_lines_move (g : Goal) (t : Token) :
    (g.move t).lines.Pairwise TraceLine.Admits := by
  rcases lines_move g t with h | ⟨r, h⟩ | h | h <;> rw [h]
  · exact .nil
  · exact List.pairwise_singleton _ _
  · exact List.pairwise_singleton _ _
  · exact List.pairwise_pair.mpr (by decide : Rule.term.rank < Rule.expression.rank)

/-- No rule is entered or left on account of a token that belongs to what follows. -/
theorem lines_of_pass {g : Goal} {t : Token} {before : List Note}
    (h : g.move t = .pass before) : (Move.pass before).lines = [] := by
  cases Goal.passes_of_move h <;> rfl

/-! ## What is ahead -/

/-- The lines that doing the items leaves before a token is taken have the property. -/
def Ahead (P : TraceLine → Prop) (stack : List Item) : Prop :=
  ∀ tokens, ∀ l ∈ untilToken (eventLines (descend stack tokens).1), P l

theorem eventLines_append (es fs : List Event) :
    eventLines (es ++ fs) = eventLines es ++ eventLines fs :=
  List.filterMap_append

theorem ahead_leave {P : TraceLine → Prop} {r : Rule} {stack : List Item} (hr : P (.leave r))
    (h : Ahead P stack) : Ahead P (.leave r :: stack) := by
  intro tokens l hl
  rw [Item.leave, descend_note, eventLines_append] at hl
  rcases mem_untilToken_append hl with hl | hl
  · obtain rfl := List.mem_singleton.mp hl
    exact hr
  · exact h tokens l hl

theorem ahead_goal {P : TraceLine → Prop} {g : Goal} {stack : List Item}
    (hlines : ∀ t, ∀ l ∈ (g.move t).lines, P l)
    (hpass : (∃ t before, g.move t = .pass before) → Ahead P stack) :
    Ahead P (.goal g :: stack) := by
  intro tokens l hl
  cases tokens with
  | nil =>
    rw [descend] at hl
    cases hl
  | cons t tokens =>
    have hmove := hlines t
    -- Only a goal that is passed lets what is below it come before the token.
    cases hg : g.move t with
    | take before after =>
      rw [descend_take hg, eventLines_append] at hl
      rw [hg] at hmove
      rcases mem_untilToken_append hl with hl | hl
      · exact hmove l hl
      · cases hl
    | pass before =>
      rw [descend_pass hg, eventLines_append] at hl
      rw [hg] at hmove
      rcases mem_untilToken_append hl with hl | hl
      · exact hmove l hl
      · exact hpass ⟨t, before, hg⟩ (t :: tokens) l hl
    | refuse before expected =>
      rw [descend_refuse hg, eventLines_append] at hl
      rw [hg] at hmove
      rcases mem_untilToken_append hl with hl | hl
      · exact hmove l hl
      · cases hl

theorem ahead_only (P : TraceLine → Prop) (kind : Terminal) (stack : List Item) :
    Ahead P (.goal (.only kind) :: stack) := by
  refine ahead_goal (fun t l hl => ?_) fun ⟨t, before, hpass⟩ => ?_
  · rw [Goal.move, lines_oneOf] at hl
    cases hl
  · exact absurd hpass (oneOf_ne_pass _ _ _ _)

theorem ahead_arguments (callee : Callee) (stack : List Item) :
    Ahead (TraceLine.Admits (.enter .expressionList)) (.goal (.arguments callee) :: stack) := by
  refine ahead_goal (fun t l hl => ?_) fun ⟨t, before, hpass⟩ => ?_
  · simp only [Goal.move] at hl
    split at hl
    · obtain rfl := List.mem_singleton.mp hl
      decide
    · rw [lines_expressionMove, List.mem_pair] at hl
      rcases hl with rfl | rfl <;> decide
  · simp only [Goal.move] at hpass
    split at hpass
    · cases hpass
    · exact absurd hpass (termMove_ne_pass _ _ _ _)

theorem ahead_parameters (stack : List Item) :
    Ahead (TraceLine.Admits (.enter .parameterList))
      (.goal .parameters :: .leave .parameterList :: .mark .rightParen :: stack) := by
  refine ahead_goal (fun t l hl => ?_) fun _ => ahead_leave (by decide) (ahead_only _ _ _)
  simp only [Goal.move] at hl
  split at hl
  · cases hl
  · rw [lines_oneOf] at hl
    cases hl

theorem ahead_statements (stack : List Item) :
    Ahead (TraceLine.Admits (.enter .statements))
      (.goal .statements :: .leave .statements :: .mark .rightBrace :: stack) := by
  refine ahead_goal (fun t l hl => ?_) fun _ => ahead_leave (by decide) (ahead_only _ _ _)
  rw [Goal.move] at hl
  rcases lines_statementsMove t with h | ⟨r, hr, h⟩ <;> rw [h] at hl
  · cases hl
  · obtain rfl := List.mem_singleton.mp hl
    exact Nat.lt_of_le_of_lt (Nat.le_of_eq hr) Nat.one_pos

/-! ## Stacks -/

/-- An item that enters a rule stands before items whose lines the rule admits. -/
def Orderly : List Item → Prop
  | [] => True
  | .note (.enter r) :: stack => Ahead (TraceLine.Admits (.enter r)) stack ∧ Orderly stack
  | _ :: stack => Orderly stack

theorem orderly_block {stack : List Item} (h : Orderly stack) :
    Orderly (.enter .statements :: .goal .statements :: .leave .statements ::
      .mark .rightBrace :: stack) :=
  ⟨ahead_statements stack, h⟩

theorem orderly_argumentItems {stack : List Item} (h : Orderly stack) (callee : Callee) :
    Orderly (argumentItems callee ++ stack) :=
  ⟨ahead_arguments callee stack, h⟩

theorem orderly_guardedItems {stack : List Item} (h : Orderly stack) (tested : Action) :
    Orderly (guardedItems tested ++ stack) :=
  orderly_block h

theorem orderly_subroutineItems {stack : List Item} (h : Orderly stack) (kind : SubroutineKind) :
    Orderly (subroutineItems kind ++ stack) := by
  have hbody : Orderly (.enter .subroutineBody :: .mark .leftBrace :: .goal .locals ::
      .act (.startBody kind) :: .enter .statements :: .goal .statements :: .leave .statements ::
      .mark .rightBrace :: .leave .subroutineBody :: .act (.endBody kind) ::
      .leave .subroutineDec :: stack) :=
    ⟨ahead_only _ _ _, orderly_block h⟩
  cases kind <;> exact ⟨ahead_parameters _, hbody⟩

theorem orderly_classItems : Orderly classItems :=
  ⟨ahead_only _ _ _, trivial⟩

theorem orderly_after_termMove {outer before : List Note} {t : Token} {after items : List Item}
    (h : termMove outer t after = .take before items) {stack : List Item}
    (hafter : Orderly (after ++ stack)) : Orderly (items ++ stack) := by
  unfold termMove at h
  split at h <;> cases h <;> exact hafter

theorem orderly_after {g : Goal} {t : Token} {before : List Note} {after stack : List Item}
    (h : g.move t = .take before after) (hstack : Orderly stack) : Orderly (after ++ stack) := by
  cases g with
  | only | className | declaredType | declaredName | resultType | subroutineName
  | parameterType | letTarget | callName =>
    obtain ⟨-, -, rfl⟩ := oneOf_eq_take h
    exact hstack
  | memberName qualifier =>
    obtain ⟨-, -, rfl⟩ := oneOf_eq_take h
    exact orderly_argumentItems hstack _
  | expression | term => exact orderly_after_termMove h hstack
  | statements =>
    simp only [Goal.move, statementsMove] at h
    split at h <;> cases h
    -- Conditionals and loops, of which the block is a goal of its own.
    case h_2 | h_3 =>
      rw [List.append_assoc]
      refine orderly_guardedItems ?_ _
      exact hstack
    all_goals exact hstack
  | subroutines =>
    simp only [Goal.move] at h
    split at h <;> cases h
    rw [List.append_assoc]
    refine orderly_subroutineItems ?_ _
    exact hstack
  | classVars | moreNames | moreParameters | locals | operators | moreArguments =>
    simp only [Goal.move] at h
    split at h <;> cases h <;> exact hstack
  | elseBranch =>
    simp only [Goal.move] at h
    split at h <;> cases h
    refine orderly_block ?_
    exact hstack
  | callRest | termRest =>
    simp only [Goal.move] at h
    split at h <;> cases h
    case h_2 => exact orderly_argumentItems hstack _
    all_goals exact hstack
  | parameters | letRest =>
    simp only [Goal.move] at h
    split at h
    · cases h <;> exact hstack
    · obtain ⟨-, -, rfl⟩ := oneOf_eq_take h
      exact hstack
  | arguments | result =>
    simp only [Goal.move] at h
    split at h
    · cases h <;> exact hstack
    · exact orderly_after_termMove h hstack

/-! ## Descents -/

theorem steady_descend {stack : List Item} {tokens : List Token} (h : Orderly stack) :
    Steady (eventLines (descend stack tokens).1) := by
  fun_induction descend stack tokens with
  | case1 | case3 => trivial
  | case2 n stack tokens es rest hd ih =>
    rw [hd] at ih
    cases n with
    | act a => exact ih h
    | leave r => exact steady_leave (ih h)
    | enter r =>
      -- what the rule admits concerns lines that are still to come, and `Orderly` tells these
      have hahead := h.1 tokens
      rw [hd] at hahead
      exact ⟨hahead, ih h.2⟩
  | case4 g stack t tokens before after hg es rest hd ih =>
    rw [hd] at ih
    have hbefore := pairwise_lines_move g t
    rw [hg] at hbefore
    rw [eventLines_append]
    exact steady_append hbefore (untilToken_leaf t _) (steady_leaf (ih (orderly_after hg h)))
  | case5 g stack t tokens before hg es rest hd ih =>
    rw [hd] at ih
    have hbefore : eventLines (before.map .note) = [] := lines_of_pass hg
    rw [eventLines_append, hbefore]
    exact ih h
  | case6 g stack t tokens before expected hg =>
    have hbefore := pairwise_lines_move g t
    rw [hg] at hbefore
    rw [eventLines_append]
    exact steady_append hbefore rfl trivial

end JackCompiler
