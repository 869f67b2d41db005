import Mathlib.Order.RelClasses
import JackCompiler.Proofs.Syntax.Descent

/-!
# Descents by calls

A recursive descent has a routine for each goal, which takes tokens, calls other routines and
goes on where these stop. A routine that calls another one before it has taken a token has the
higher rank. So a descent can insist that every call is nearer to the end than the routine that
makes it, with fewer tokens left or as many and a lower rank; it comes to no other call
(`recurse_eq`).
-/

namespace JackCompiler

/-! ## Outcomes of descents -/

/-- The events of a descent, and the tokens left over unless a fault ends it. -/
abbrev Descent := List Event × Option (List Token)

def Descent.behind (es : List Event) (d : Descent) : Descent :=
  (es ++ d.1, d.2)

def Descent.andThen (d : Descent) (next : List Token → Descent) : Descent :=
  match d.2 with
  | none => d
  | some rest => behind d.1 (next rest)

open Descent

theorem behind_behind (es fs : List Event) (d : Descent) :
    behind es (behind fs d) = behind (es ++ fs) d :=
  Prod.ext (List.append_assoc ..).symm rfl

theorem andThen_behind (es : List Event) (d : Descent) (next : List Token → Descent) :
    andThen (behind es d) next = behind es (andThen d next) := by
  obtain ⟨fs, _ | rest⟩ := d
  · rfl
  · exact (behind_behind es fs (next rest)).symm

theorem andThen_andThen (d : Descent) (next next' : List Token → Descent) :
    andThen (andThen d next) next' = andThen d fun rest => andThen (next rest) next' := by
  obtain ⟨es, _ | rest⟩ := d
  · rfl
  · exact andThen_behind es (next rest) next'

/-- What comes of a move, of which `t` is the next token and `tokens` are those behind it. -/
def Move.outcome (t : Token) (tokens : List Token) : Move → Descent
  | .take before after => behind (before.map .note ++ [.take t]) (descend after tokens)
  | .pass before => (before.map .note, some (t :: tokens))
  | .refuse before expected => (before.map .note ++ [.refuse expected t], none)

theorem descend_nil (tokens : List Token) : descend [] tokens = ([], some tokens) := by
  rw [descend]

theorem descend_note_cons (n : Note) (stack : List Item) (tokens : List Token) :
    descend (.note n :: stack) tokens = behind [.note n] (descend stack tokens) := by
  rw [descend]
  rfl

theorem descend_take_cons {g : Goal} {t : Token} {before : List Note} {after : List Item}
    (hg : g.move t = .take before after) (stack : List Item) (tokens : List Token) :
    descend (.goal g :: stack) (t :: tokens) =
      behind (before.map .note ++ [.take t]) (descend (after ++ stack) tokens) := by
  rw [descend, hg, behind, List.append_assoc]
  rfl

theorem descend_pass_cons {g : Goal} {t : Token} {before : List Note}
    (hg : g.move t = .pass before) (stack : List Item) (tokens : List Token) :
    descend (.goal g :: stack) (t :: tokens) =
      behind (before.map .note) (descend stack (t :: tokens)) := by
  rw [descend, hg]
  rfl

theorem descend_refuse_cons {g : Goal} {t : Token} {before : List Note} {expected : List Terminal}
    (hg : g.move t = .refuse before expected) (stack : List Item) (tokens : List Token) :
    descend (.goal g :: stack) (t :: tokens) =
      (before.map .note ++ [.refuse expected t], none) := by
  rw [descend, hg]

/-- Items are done by doing the first ones, then the others on what is left over. -/
theorem descend_append (a b : List Item) (tokens : List Token) :
    descend (a ++ b) tokens = andThen (descend a tokens) (descend b) := by
  fun_induction descend a tokens with
  | case1 tokens => rfl
  | case2 n stack tokens es rest hd ih =>
    rw [List.cons_append, descend_note_cons, ih, hd]
    exact (andThen_behind [.note n] (es, rest) _).symm
  | case3 g stack =>
    rw [List.cons_append, descend]
    rfl
  | case4 g stack t tokens before after hg es rest hd ih =>
    rw [List.cons_append, descend_take_cons hg, ← List.append_assoc, ih, hd,
      ← andThen_behind, behind, List.append_assoc]
    rfl
  | case5 g stack t tokens before hg es rest hd ih =>
    rw [List.cons_append, descend_pass_cons hg, ih, hd, ← andThen_behind]
    rfl
  | case6 g stack t tokens before expected hg =>
    rw [List.cons_append, descend_refuse_cons hg]
    rfl

theorem descend_goal (g : Goal) (stack : List Item) (t : Token) (tokens : List Token) :
    descend (.goal g :: stack) (t :: tokens) =
      andThen ((g.move t).outcome t tokens) (descend stack) := by
  cases hg : g.move t with
  | take before after =>
    rw [descend_take_cons hg, descend_append, ← andThen_behind]
    rfl
  | pass before => exact descend_pass_cons hg stack tokens
  | refuse before expected => exact descend_refuse_cons hg stack tokens

theorem andThen_nil (d : Descent) : andThen d (descend []) = d := by
  obtain ⟨es, _ | rest⟩ := d
  · rfl
  · show behind es (descend [] rest) = _
    rw [descend_nil, behind, List.append_nil]

theorem length_le_of_descend {stack : List Item} {tokens rest : List Token}
    (h : (descend stack tokens).2 = some rest) : rest.length ≤ tokens.length := by
  fun_induction descend stack tokens with
  | case1 tokens =>
    obtain rfl := Option.some.inj h
    exact Nat.le_refl _
  | case2 n stack tokens es left hd ih | case5 g stack t tokens before hg es left hd ih =>
    rw [hd] at ih
    exact ih h
  | case4 g stack t tokens before after hg es left hd ih =>
    rw [hd] at ih
    exact Nat.le_trans (ih h) (Nat.le_succ _)
  | case3 | case6 => cases h

theorem length_le_of_move {m : Move} {t : Token} {tokens rest : List Token}
    (hm : ∀ before, m ≠ .pass before) (h : (m.outcome t tokens).2 = some rest) :
    rest.length ≤ tokens.length := by
  cases m with
  | take before after => exact length_le_of_descend h
  | pass before => exact absurd rfl (hm before)
  | refuse before expected => cases h

/-! ## Routines -/

/-- The routines of a recursive descent: one for each goal, and one for what each goal that is
a loop does over and over. -/
inductive Routine
  | goal (goal : Goal)
  | classVarDec
  | subroutineDec
  | varDec
  | statement
deriving DecidableEq, Repr

inductive Phase
  | note (note : Note)
  | take
  | call (routine : Routine)
  | refuse (expected : List Terminal)
deriving DecidableEq, Repr

def Item.phase : Item → Phase
  | .note n => .note n
  | .goal g => .call (.goal g)

def Move.phases : Move → List Phase
  | .take before after => before.map .note ++ .take :: after.map Item.phase
  | .pass before => before.map .note
  | .refuse before expected => before.map .note ++ [.refuse expected]

/-- One round of a loop: all of its move but the last item, which is to go on. -/
def Move.once : Move → Move
  | .take before after => .take before after.dropLast
  | .pass before => .refuse before []
  | .refuse before expected => .refuse before expected

def loopPhases (body : Routine) (g : Goal) (t : Token) : List Phase :=
  match g.move t with
  | .take _ _ => [.call body, .call (.goal g)]
  | _ => []

namespace Routine

def phases (r : Routine) (t : Token) : List Phase :=
  match r with
  | .classVarDec => (Goal.move .classVars t).once.phases
  | .subroutineDec => (Goal.move .subroutines t).once.phases
  | .varDec => (Goal.move .locals t).once.phases
  | .statement => (Goal.move .statements t).once.phases
  | .goal .classVars => loopPhases .classVarDec .classVars t
  | .goal .subroutines => loopPhases .subroutineDec .subroutines t
  | .goal .locals => loopPhases .varDec .locals t
  | .goal .statements => loopPhases .statement .statements t
  | .goal .expression =>
    [.note (.enter .expression), .call (.goal .term), .call (.goal .operators),
      .note (.leave .expression)]
  | .goal (.arguments callee) =>
    if t.kind = .mark .rightParen then (Goal.move (.arguments callee) t).phases
    else
      [.call (.goal .expression), .note (.act (.countArguments 1)),
        .call (.goal (.moreArguments callee 1))]
  | .goal .result =>
    if t.kind = .mark .semicolon then (Goal.move .result t).phases
    else [.call (.goal .expression)]
  | .goal g => (g.move t).phases

/-- How many calls deep the routine may be before it takes a token. -/
def rank : Routine → Nat
  | .goal (.arguments _) | .goal .result => 2
  | .goal .expression | .goal .classVars | .goal .subroutines | .goal .locals
  | .goal .statements => 1
  | _ => 0

end Routine

/-! ## Calls -/

def Nearer (m m' : Nat × Nat) : Prop :=
  Prod.Lex (· < ·) (· < ·) m m'

instance : DecidableRel Nearer := fun _ _ => decidable_of_iff _ Prod.lex_def.symm

theorem Nearer.lex {m m' : Nat × Nat} (h : Nearer m m') (i j : Nat) :
    Prod.Lex (· < ·) (Prod.Lex (· < ·) (· < ·)) (m.1, m.2, i) (m'.1, m'.2, j) := by
  cases h with
  | left _ _ h => exact .left _ _ h
  | right _ h => exact .right _ (.left _ _ h)

/-- Does the phases of a routine that was called with the measure `limit`, which is the number
of tokens that were left and its rank. A call that is not nearer to the end is not made. -/
def recurse (limit : Nat × Nat) : List Phase → List Token → Except Routine Descent
  | [], tokens => .ok ([], some tokens)
  | .note n :: phases, tokens => (recurse limit phases tokens).map (behind [.note n])
  | _ :: _, [] => .ok ([.exhausted], none)
  | .take :: phases, t :: tokens => (recurse limit phases tokens).map (behind [.take t])
  | .refuse expected :: _, t :: _ => .ok ([.refuse expected t], none)
  | .call r :: phases, t :: tokens =>
    if _ : Nearer (tokens.length + 1, r.rank) limit then
      match recurse (tokens.length + 1, r.rank) (r.phases t) (t :: tokens) with
      | .error r => .error r
      | .ok (es, none) => .ok (es, none)
      | .ok (es, some rest) => (recurse limit phases rest).map (behind es)
    else .error r
termination_by phases => (limit.1, limit.2, phases.length)
decreasing_by
  · exact .right _ (.right _ (Nat.lt_succ_self _))
  · exact .right _ (.right _ (Nat.lt_succ_self _))
  · exact Nearer.lex ‹_› _ _
  · exact .right _ (.right _ (Nat.lt_succ_self _))

variable {limit : Nat × Nat} {phases : List Phase} {t : Token} {tokens : List Token}

theorem recurse_notes (notes : List Note) :
    recurse limit (notes.map .note ++ phases) tokens =
      (recurse limit phases tokens).map (behind (notes.map .note)) := by
  induction notes with
  | nil =>
    cases h : recurse limit phases tokens <;> simp [h, Except.map, behind]
  | cons n notes ih =>
    rw [List.map_cons, List.cons_append, recurse, ih]
    cases recurse limit phases tokens with
    | error r => rfl
    | ok d => exact congrArg Except.ok (behind_behind ..)

theorem recurse_call {r : Routine} {d : Descent} {next : List Token → Descent}
    (hr : Nearer (tokens.length + 1, r.rank) limit)
    (hd : recurse (tokens.length + 1, r.rank) (r.phases t) (t :: tokens) = .ok d)
    (hnext : ∀ rest, d.2 = some rest → recurse limit phases rest = .ok (next rest)) :
    recurse limit (.call r :: phases) (t :: tokens) = .ok (andThen d next) := by
  rw [recurse, dif_pos hr, hd]
  obtain ⟨es, _ | rest⟩ := d
  · rfl
  · simp only
    rw [hnext rest rfl]
    rfl

def Recurs (n : Nat) : Prop :=
  ∀ limit items tokens, tokens.length ≤ n → tokens.length < limit.1 →
    recurse limit (items.map Item.phase) tokens = .ok (descend items tokens)

theorem recurse_move (h : Recurs tokens.length) (hlimit : tokens.length < limit.1) (m : Move) :
    recurse limit m.phases (t :: tokens) = .ok (m.outcome t tokens) := by
  cases m with
  | take before after =>
    rw [Move.phases, recurse_notes, recurse, h limit after tokens (Nat.le_refl _) hlimit]
    exact congrArg Except.ok (behind_behind ..)
  | pass before =>
    have hnotes : recurse limit (before.map .note ++ []) (t :: tokens) = _ := recurse_notes before
    rw [List.append_nil, recurse] at hnotes
    rw [Move.phases, hnotes, Except.map, behind, List.append_nil]
    rfl
  | refuse before expected =>
    rw [Move.phases, recurse_notes, recurse]
    rfl

/-- A loop does what comes of its move, if the last thing that it does is to go on. -/
theorem recurse_loop {body : Routine} {g : Goal} (h : Recurs tokens.length)
    (hbody : body.phases t = (g.move t).once.phases) (hrank : body.rank < (Routine.goal g).rank)
    (hg : g.move t = .pass [] ∨
      ∃ before after, g.move t = .take before after ∧ after.dropLast ++ [.goal g] = after) :
    recurse (tokens.length + 1, (Routine.goal g).rank) (loopPhases body g t) (t :: tokens) =
      .ok ((g.move t).outcome t tokens) := by
  rcases hg with hg | ⟨before, after, hg, hafter⟩
  · rw [loopPhases, hg]
    exact recurse_move h (Nat.lt_succ_self _) (.pass [])
  · have hd : recurse (tokens.length + 1, body.rank) (body.phases t) (t :: tokens) =
        .ok ((Move.take before after.dropLast).outcome t tokens) := by
      rw [hbody, hg]
      exact recurse_move h (Nat.lt_succ_self _) _
    -- the loop goes on with fewer tokens, as what it has done took one
    have hnext : ∀ rest, ((Move.take before after.dropLast).outcome t tokens).2 = some rest →
        recurse (tokens.length + 1, (Routine.goal g).rank) [.call (.goal g)] rest =
          .ok (descend [.goal g] rest) := fun rest hrest => by
      have hlength := length_le_of_move (fun _ => Move.noConfusion) hrest
      exact h _ [.goal g] rest hlength (Nat.lt_succ_of_le hlength)
    have hsplit : descend after tokens =
        andThen (descend after.dropLast tokens) (descend [.goal g]) := by
      rw [← descend_append, hafter]
    rw [loopPhases, hg]
    simp only
    rw [recurse_call (.right _ hrank) hd hnext, Move.outcome, andThen_behind, ← hsplit]
    rfl

/-! ## Expressions -/

theorem outcome_termMove (outer : List Note) (after : List Item) :
    (termMove outer t after).outcome t tokens =
      behind (outer.map .note) (andThen ((Goal.move .term t).outcome t tokens) (descend after)) := by
  have htake (items : List Item) :
      (Move.take (outer ++ [.enter .term]) (items ++ .leave .term :: after)).outcome t tokens =
        behind (outer.map .note) (andThen ((Move.take [.enter .term]
          (items ++ [.leave .term])).outcome t tokens) (descend after)) := by
    have hitems : descend (items ++ .leave .term :: after) tokens =
        andThen (descend (items ++ [.leave .term]) tokens) (descend after) := by
      rw [List.append_cons]
      exact descend_append _ after tokens
    rw [Move.outcome, hitems, Move.outcome, andThen_behind, behind_behind, List.map_append,
      List.append_assoc]
  have hrefuse : (Move.refuse (outer ++ [.enter .term]) termStarts).outcome t tokens =
      behind (outer.map .note) (andThen ((Move.refuse [.enter .term] termStarts).outcome t tokens)
        (descend after)) := by
    simp [Move.outcome, andThen, behind]
  rw [Goal.move, termMove, termMove]
  split
  case h_11 => exact hrefuse
  all_goals exact htake _

theorem outcome_expressionMove (outer : List Note) (after : List Item) :
    (expressionMove outer t after).outcome t tokens = behind (outer.map .note)
      (andThen ((Goal.move .expression t).outcome t tokens) (descend after)) := by
  have hafter : descend (.goal .operators :: .leave .expression :: after) = fun rest =>
      andThen (descend [.goal .operators, .leave .expression] rest) (descend after) :=
    funext fun rest => descend_append [.goal .operators, .leave .expression] after rest
  rw [Goal.move, expressionMove, outcome_termMove, expressionMove, outcome_termMove,
    andThen_behind, andThen_andThen, hafter, behind_behind, List.map_append]
  rfl

theorem recurse_expression (h : Recurs tokens.length) :
    recurse (tokens.length + 1, 1) ((Routine.goal .expression).phases t) (t :: tokens) =
      .ok ((Goal.move .expression t).outcome t tokens) := by
  have hterm : recurse (tokens.length + 1, 0) ((Routine.goal .term).phases t) (t :: tokens) =
      .ok ((Goal.move .term t).outcome t tokens) := recurse_move h (Nat.lt_succ_self _) _
  have hnext : ∀ rest, ((Goal.move .term t).outcome t tokens).2 = some rest →
      recurse (tokens.length + 1, 1) [.call (.goal .operators), .note (.leave .expression)] rest =
        .ok (descend [.goal .operators, .leave .expression] rest) := fun rest hrest => by
    have hlength := length_le_of_move (termMove_ne_pass _ _ _) hrest
    exact h _ [.goal .operators, .leave .expression] rest hlength (Nat.lt_succ_of_le hlength)
  rw [Routine.phases, recurse, recurse_call (.right _ Nat.one_pos) hterm hnext, Goal.move,
    expressionMove, outcome_termMove]
  rfl

/-- A routine that begins with an expression is of higher rank. -/
theorem recurse_call_expression (h : Recurs tokens.length) (after : List Item) :
    recurse (tokens.length + 1, 2) (.call (.goal .expression) :: after.map Item.phase)
      (t :: tokens) = .ok ((expressionMove [] t after).outcome t tokens) := by
  have hnext : ∀ rest, ((Goal.move .expression t).outcome t tokens).2 = some rest →
      recurse (tokens.length + 1, 2) (after.map Item.phase) rest = .ok (descend after rest) :=
    fun rest hrest => by
      have hlength := length_le_of_move (termMove_ne_pass _ _ _) hrest
      exact h _ after rest hlength (Nat.lt_succ_of_le hlength)
  rw [recurse_call (.right _ Nat.one_lt_two) (recurse_expression h) hnext, outcome_expressionMove]
  rfl

/-! ## Descents by calls -/

theorem recurse_routine (h : Recurs tokens.length) (g : Goal) :
    recurse (tokens.length + 1, (Routine.goal g).rank) ((Routine.goal g).phases t)
      (t :: tokens) = .ok ((g.move t).outcome t tokens) := by
  have hmove (m : Move) : recurse (tokens.length + 1, (Routine.goal g).rank) m.phases
      (t :: tokens) = .ok (m.outcome t tokens) := recurse_move h (Nat.lt_succ_self _) m
  cases g with
  | classVars | locals =>
    refine recurse_loop h rfl Nat.one_pos ?_
    rw [Goal.move]
    split
    · exact .inr ⟨_, _, rfl, rfl⟩
    · exact .inl rfl
  | subroutines =>
    refine recurse_loop h rfl Nat.one_pos ?_
    rw [Goal.move]
    split
    · exact .inr ⟨_, _, rfl, by rw [List.dropLast_concat]⟩
    · exact .inl rfl
  | statements =>
    refine recurse_loop h rfl Nat.one_pos ?_
    rw [Goal.move, statementsMove]
    split
    case h_6 => exact .inl rfl
    all_goals exact .inr ⟨_, _, rfl, rfl⟩
  | expression => exact recurse_expression h
  -- The parenthesis that closes the list is looked for before the expression is called.
  | arguments callee =>
    rw [Routine.phases]
    split
    · exact hmove _
    · next ht =>
      rw [Goal.move, if_neg ht]
      exact recurse_call_expression h [.act (.countArguments 1), .goal (.moreArguments callee 1)]
  | result =>
    rw [Routine.phases]
    split
    · exact hmove _
    · next ht =>
      rw [Goal.move, if_neg ht]
      exact recurse_call_expression h []
  | _ => exact hmove _

theorem recurs (n : Nat) : Recurs n := by
  -- On the number of tokens left, since a call is made with fewer tokens or of a lower rank.
  induction n using Nat.strongRecOn with
  | _ n ihn =>
  intro limit items
  induction items with
  | nil =>
    intro tokens _ _
    rw [descend_nil, List.map_nil, recurse]
  | cons item items ih =>
    intro tokens hn hlimit
    cases item with
    | note n =>
      rw [descend_note_cons, List.map_cons, Item.phase, recurse, ih tokens hn hlimit]
      rfl
    | goal g =>
      cases tokens with
      | nil =>
        rw [descend, List.map_cons, Item.phase, recurse]
        simp
      | cons t tokens =>
        have hd := recurse_routine (t := t) (ihn tokens.length hn) g
        rw [descend_goal]
        refine recurse_call (.left _ _ hlimit) hd fun rest hrest => ?_
        have hlength : rest.length ≤ (t :: tokens).length := by
          rw [← andThen_nil ((g.move t).outcome t tokens), ← descend_goal] at hrest
          exact length_le_of_descend hrest
        exact ih rest (Nat.le_trans hlength hn) (Nat.lt_of_le_of_lt hlength hlimit)

/-- A descent by calls comes to no call that is not nearer to the end than the routine that makes
it, and does what the items do. -/
theorem recurse_eq (items : List Item) (tokens : List Token) :
    recurse (tokens.length + 1, 0) (items.map Item.phase) tokens = .ok (descend items tokens) :=
  recurs tokens.length _ items tokens (Nat.le_refl _) (Nat.lt_succ_self _)

end JackCompiler
