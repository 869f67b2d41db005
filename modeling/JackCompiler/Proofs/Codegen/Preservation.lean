import Mathlib.Data.List.Forall2
import JackCompiler.Proofs.Codegen.Computation

/-!
# Subroutines keep their meaning

The code of a subroutine's statements comes to what the statements come to: the machine
ends as they do, and goes on for ever just if they do.
-/

namespace JackCompiler

open Machine

variable {World : Type} {w : Callees World} {body : List Instruction}

/-! ## Following a run -/

/-- From the configuration, the machine comes to what the statements have come to, `code`
being what is behind them. If nothing has come of them so far, it can make so many steps. -/
def Follows (w : Callees World) (body : List Instruction) (n : Nat) (stack : List UInt16)
    (code : List Instruction) (c : Config World) : Option (Ending World) → Prop
  | some ending => ∃ d, Reaches w body c d ∧ Ends w code stack d ending
  | none => CanRun w body n c

namespace Follows

variable {n : Nat} {stack : List UInt16} {code mid : List Instruction} {c d : Config World}
  {result : Option (Ending World)}

theorem here (s : Store World) (scratch : Scratch) :
    Follows w body n stack code ⟨code, ⟨stack, s, scratch⟩⟩ (some (.next s)) :=
  ⟨_, .refl _, .next s scratch⟩

theorem of_reaches (h : Reaches w body c d) (hd : Follows w body n stack code d result) :
    Follows w body n stack code c result := by
  cases result with
  | none => exact CanRun.of_reaches h hd
  | some ending =>
    obtain ⟨e, he, hends⟩ := hd
    exact ⟨e, h.trans he, hends⟩

theorem of_step (h : Machine.step w body c = some d) (hd : Follows w body n stack code d result) :
    Follows w body (n + 1) stack code c result := by
  cases result with
  | none => exact CanRun.of_step h hd
  | some ending => exact hd.of_reaches (.of_step h)

theorem mono {m : Nat} (h : Follows w body n stack code c result) (hmn : m ≤ n) :
    Follows w body m stack code c result := by
  cases result with
  | none => exact CanRun.mono h hmn
  | some ending => exact h

theorem andThen {next : Store World → Option (Ending World)}
    (h : Follows w body n stack mid c result)
    (hnext : ∀ s scratch, Follows w body n stack code ⟨mid, ⟨stack, s, scratch⟩⟩ (next s)) :
    Follows w body n stack code c (Ending.andThen next result) := by
  cases result with
  | none => exact h
  | some ending =>
    obtain ⟨d, hd, hends⟩ := h
    cases hends with
    | next s scratch => exact (hnext s scratch).of_reaches hd
    | returned rest value s scratch => exact ⟨_, hd, .returned rest value s scratch⟩
    | lost rest s hcount hlost => exact ⟨_, hd, .lost rest s hcount hlost⟩

end Follows

theorem Computes.follows {α : Type} {n : Nat} {p q code : List Instruction}
    {before stack : List UInt16} {m : Eval World α} {after : α → List UInt16}
    {next : α → Store World → Option (Ending World)} (h : Computes w p before m after)
    (hnext : ∀ a s scratch, Follows w body n stack code ⟨q, ⟨after a, s, scratch⟩⟩ (next a s))
    (s : Store World) (scratch : Scratch) :
    Follows w body n stack code ⟨p ++ q, ⟨before, s, scratch⟩⟩ (m.andThen next s) := by
  have hm := h body q s scratch
  rw [Eval.andThen]
  cases hs : m s with
  | error call =>
    rw [hs] at hm
    obtain ⟨d, hd, hlost⟩ := hm
    exact ⟨d, hd, hlost code stack⟩
  | ok result =>
    rw [hs] at hm
    obtain ⟨scratch', hreach⟩ := hm
    exact .of_reaches hreach (hnext result.1 result.2 scratch')

/-! ## Statements -/

section

variable {o : Options} {names : Names} {n : Nat} {stack : List UInt16}

-- The negation of the test is the step that each round makes.
theorem loop_follows {test : Eval World UInt16} {run : Store World → Option (Ending World)}
    {start stop : String} {p q code : List Instruction}
    (hbody : (body.filterMap Instruction.label?).Nodup)
    (hstart : .label start :: (p ++ .operate .not :: .ifGoto stop ::
      (q ++ .goto start :: .label stop :: code)) <:+ body)
    (hstop : .label stop :: code <:+ body)
    (htest : Computes w p stack test fun value => value :: stack)
    (hrun : ∀ s scratch, Follows w body n stack (.goto start :: .label stop :: code)
      ⟨q ++ .goto start :: .label stop :: code, ⟨stack, s, scratch⟩⟩ (run s))
    (rounds : Nat) (hrounds : rounds ≤ n) (s : Store World) (scratch : Scratch) :
    Follows w body rounds stack code
      ⟨p ++ .operate .not :: .ifGoto stop :: (q ++ .goto start :: .label stop :: code),
        ⟨stack, s, scratch⟩⟩ (loop test run rounds s) := by
  induction rounds generalizing s scratch with
  | zero => rfl
  | succ rounds ih =>
    refine htest.follows (fun value s scratch => .of_step rfl ?_) s scratch
    by_cases hvalue : ~~~value = 0
    · rw [if_pos hvalue]
      refine .of_reaches (.of_step (if_pos hvalue)) ?_
      refine ((hrun s scratch).mono (Nat.le_of_succ_le hrounds)).andThen fun s scratch => ?_
      exact (ih (Nat.le_of_succ_le hrounds) s scratch).of_reaches
        (.of_step (step_goto hbody hstart _ _))
    · rw [if_neg hvalue]
      exact .of_reaches (.of_step (step_ifGoto hbody hstop _ hvalue stack s scratch))
        (.here s scratch)

theorem reaches_branch {yes no : String} {p q : List Instruction}
    (hbody : (body.filterMap Instruction.label?).Nodup) (hyes : .label yes :: p <:+ body)
    (hno : .label no :: q <:+ body) (value : UInt16) (s : Store World) (scratch : Scratch) :
    Reaches w body
      ⟨.ifGoto yes :: .goto no :: .label yes :: p, ⟨value :: stack, s, scratch⟩⟩
      ⟨if value ≠ 0 then p else q, ⟨stack, s, scratch⟩⟩ := by
  by_cases hvalue : value = 0
  · rw [if_neg (not_not_intro hvalue)]
    exact .head (if_pos hvalue) (.of_step (step_goto hbody hno _ _))
  · rw [if_pos hvalue]
    exact .of_step (step_ifGoto hbody hyes _ hvalue stack s scratch)

theorem suffix_of_cons {i : Instruction} {q : List Instruction} (h : i :: q <:+ body) :
    q <:+ body :=
  (List.suffix_cons i q).trans h

theorem suffix_of_append {p q : List Instruction} (h : p ++ q <:+ body) : q <:+ body :=
  (List.suffix_append p q).trans h

-- In the cases with jumps, the code is followed down to each label, since a jump goes to
-- what is behind the label in the body.
theorem Block.follows (scope : String) (b : Block) (i j : Nat) (q : List Instruction)
    (hbody : (body.filterMap Instruction.label?).Nodup)
    (hq : b.code names scope i j ++ q <:+ body)
    (hu : ∀ use ∈ b.uses, use.Allowed o names) (hc : ∀ call ∈ b.calls, call.Countable names)
    (s : Store World) (scratch : Scratch) :
    Follows w body n stack q ⟨b.code names scope i j ++ q, ⟨stack, s, scratch⟩⟩
      (b.run w names n s) := by
  induction b generalizing i j q s scratch with
  | empty => exact .here s scratch
  | let_ target value next ih =>
    obtain ⟨hu, hunext⟩ := List.forall_mem_append.mp hu
    obtain ⟨hc, hcnext⟩ := List.forall_mem_append.mp hc
    rw [code, List.append_assoc] at hq ⊢
    refine (computes_assignment target value stack hu hc).follows (fun _ s scratch => ?_) s scratch
    exact ih i j q (suffix_of_append hq) hunext hcnext s scratch
  | if_ condition yes next ihyes ih =>
    simp only [uses, calls, List.forall_mem_append] at hu hc
    simp only [code, List.append_assoc, List.cons_append, List.nil_append] at hq ⊢
    have hyes := suffix_of_cons (suffix_of_cons (suffix_of_append hq))
    have hno := suffix_of_append (suffix_of_cons hyes)
    refine (condition.computes stack hu.1.1 hc.1.1).follows (fun value s scratch => ?_) s scratch
    refine .of_reaches (reaches_branch hbody hyes hno value s scratch) ?_
    by_cases hvalue : value ≠ 0
    · rw [if_pos hvalue, if_pos hvalue]
      have hfollows := ihyes _ _ _ (suffix_of_cons hyes) hu.1.2 hc.1.2 s scratch
      refine hfollows.andThen fun s scratch => .of_reaches (.of_step rfl) ?_
      exact ih _ _ q (suffix_of_cons hno) hu.2 hc.2 s scratch
    · rw [if_neg hvalue, if_neg hvalue]
      exact ih _ _ q (suffix_of_cons hno) hu.2 hc.2 s scratch
  | ifElse condition yes no next ihyes ihno ih =>
    simp only [uses, calls, List.forall_mem_append] at hu hc
    simp only [code, List.append_assoc, List.cons_append, List.nil_append] at hq ⊢
    have hyes := suffix_of_cons (suffix_of_cons (suffix_of_append hq))
    have hno := suffix_of_cons (suffix_of_append (suffix_of_cons hyes))
    have hend := suffix_of_append (suffix_of_cons hno)
    refine (condition.computes stack hu.1.1.1 hc.1.1.1).follows (fun value s scratch => ?_)
      s scratch
    refine .of_reaches (reaches_branch hbody hyes hno value s scratch) ?_
    by_cases hvalue : value ≠ 0
    · rw [if_pos hvalue, if_pos hvalue]
      have hfollows := ihyes _ _ _ (suffix_of_cons hyes) hu.1.1.2 hc.1.1.2 s scratch
      refine hfollows.andThen fun s scratch => ?_
      refine .of_reaches (.of_step (step_goto hbody hend _ _)) ?_
      exact ih _ _ q (suffix_of_cons hend) hu.2 hc.2 s scratch
    · rw [if_neg hvalue, if_neg hvalue]
      have hfollows := ihno _ _ _ (suffix_of_cons hno) hu.1.2 hc.1.2 s scratch
      refine hfollows.andThen fun s scratch => .of_reaches (.of_step rfl) ?_
      exact ih _ _ q (suffix_of_cons hend) hu.2 hc.2 s scratch
  | while_ condition inner next ihinner ih =>
    simp only [uses, calls, List.forall_mem_append] at hu hc
    simp only [code, List.append_assoc, List.cons_append, List.nil_append] at hq ⊢
    have hinner := suffix_of_cons (suffix_of_cons (suffix_of_append (suffix_of_cons hq)))
    have hstop := suffix_of_cons (suffix_of_append hinner)
    have hloop := loop_follows hbody hq hstop (condition.computes stack hu.1.1 hc.1.1)
      (fun s scratch => ihinner _ _ _ hinner hu.1.2 hc.1.2 s scratch) n (Nat.le_refl n) s scratch
    refine .of_reaches (.of_step rfl) (hloop.andThen fun s scratch => ?_)
    exact ih _ _ q (suffix_of_cons hstop) hu.2 hc.2 s scratch
  | do_ target arguments next ih =>
    rw [code, List.append_assoc, List.append_assoc] at hq ⊢
    obtain ⟨hu, hunext⟩ := List.forall_mem_append.mp hu
    obtain ⟨hc, hcnext⟩ := List.forall_mem_append.mp hc
    refine ((Term.call target arguments).computes stack hu hc).follows
      (fun value s scratch => .of_reaches (.of_step rfl) ?_) s scratch
    exact ih i j q (suffix_of_cons (suffix_of_append hq)) hunext hcnext s _
  | return_ value next ih =>
    rw [code, List.append_assoc, List.append_assoc] at hq ⊢
    obtain ⟨hu, -⟩ := List.forall_mem_append.mp hu
    obtain ⟨hc, -⟩ := List.forall_mem_append.mp hc
    refine (computes_result value stack hu hc).follows (fun value s scratch => ?_) s scratch
    exact ⟨_, .refl _, .returned _ value s scratch⟩

end

/-! ## Classes -/

end JackCompiler
