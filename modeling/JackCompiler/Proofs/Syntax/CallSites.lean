import JackCompiler.Proofs.Syntax.Script

/-!
# Calls in scripts

Each call of a tree is a part of the tree's script, with as many arguments as it has there.
-/

namespace JackCompiler

/-- A call of so many arguments is part of the script. -/
def CallSite.Stands (site : CallSite) (p : Script) : Prop :=
  ∃ arguments : Arguments, arguments.length = site.count ∧
    site.target.script arguments.script site.count <:+: p

theorem CallSite.Stands.mono {site : CallSite} {p q : Script} (h : site.Stands p)
    (hpq : p <:+: q) : site.Stands q := by
  obtain ⟨arguments, hcount, hp⟩ := h
  exact ⟨arguments, hcount, hp.trans hpq⟩

theorem CallSite.stands_of_mem_append {sites sites' : List CallSite} {p q r : Script}
    (hp : ∀ site ∈ sites, site.Stands p) (hq : ∀ site ∈ sites', site.Stands q)
    (hpr : p <:+: r) (hqr : q <:+: r) : ∀ site ∈ sites ++ sites', site.Stands r := by
  intro site hsite
  rcases List.mem_append.mp hsite with h | h
  · exact (hp site h).mono hpr
  · exact (hq site h).mono hqr

theorem CallName.stands {arguments : Arguments}
    (h : ∀ site ∈ arguments.calls, site.Stands arguments.script) (target : CallName) :
    ∀ site ∈ (⟨target, arguments.length⟩ : CallSite) :: arguments.calls,
      site.Stands (target.script arguments.script arguments.length) := by
  rw [List.forall_mem_cons]
  refine ⟨⟨arguments, rfl, List.infix_refl _⟩, fun site hsite => ?_⟩
  exact (h site hsite).mono (List.infix_append _ _ _)

mutual

theorem Term.stands : ∀ e : Term, ∀ site ∈ e.calls, site.Stands e.script
  | .integer _ | .text _ | .word _ | .var _ => List.forall_mem_nil _
  | .unary _ operand => fun site hsite =>
    (operand.stands site hsite).mono (List.infix_append _ _ _)
  | .group inner => fun site hsite => (inner.stands site hsite).mono (List.infix_append _ _ _)
  | .element _ index => fun site hsite => (index.stands site hsite).mono (List.infix_append _ _ _)
  | .call target arguments => fun site hsite =>
    (target.stands arguments.stands site hsite).mono (List.infix_append _ _ _)

theorem Expression.stands : ∀ e : Expression, ∀ site ∈ e.calls, site.Stands e.script
  | .mk first rest => by
    refine CallSite.stands_of_mem_append first.stands rest.stands ?_ ?_
    · exact ⟨[.enter .expression], rest.script ++ [.leave .expression], by simp [Expression.script]⟩
    · exact List.infix_append _ _ _

theorem Operations.stands : ∀ e : Operations, ∀ site ∈ e.calls, site.Stands e.script
  | .nil => List.forall_mem_nil _
  | .cons op operand rest => by
    refine CallSite.stands_of_mem_append operand.stands rest.stands ?_
      (List.suffix_append _ _).isInfix
    exact ⟨[.mark op.mark], .act (.binary op) :: rest.script, by simp [Operations.script]⟩

theorem Arguments.stands : ∀ e : Arguments, ∀ site ∈ e.calls, site.Stands e.script
  | .nil => List.forall_mem_nil _
  | .cons first rest => CallSite.stands_of_mem_append first.stands (rest.stands_more 1)
      ((List.prefix_append _ _).trans (List.prefix_append _ _)).isInfix
      (List.suffix_append _ _).isInfix

theorem Arguments.stands_more : ∀ (e : Arguments) (count : Nat),
    ∀ site ∈ e.calls, site.Stands (e.moreScript count)
  | .nil, _ => List.forall_mem_nil _
  | .cons first rest, count => by
    refine CallSite.stands_of_mem_append first.stands (rest.stands_more (count + 1)) ?_
      (List.suffix_append _ _).isInfix
    exact ⟨[.mark .comma], .act (.countArguments (count + 1)) :: rest.moreScript (count + 1),
      by simp [Arguments.moreScript]⟩

end

theorem stands_assignment (target : Target) (value : Expression) :
    ∀ site ∈ target.calls ++ value.calls, site.Stands (assignmentScript target value) := by
  have htarget : ∀ site ∈ target.calls, site.Stands target.script := by
    cases target with
    | var name => exact List.forall_mem_nil _
    | element array index => exact fun site hsite =>
        (index.stands site hsite).mono (List.infix_append _ _ _)
  refine CallSite.stands_of_mem_append htarget value.stands ?_ (List.infix_append _ _ _)
  exact ⟨[], .mark .eq :: (value.script ++ [.act target.stored]), by simp [assignmentScript]⟩

theorem stands_guarded (condition : Expression) (tested : Action) {sites : List CallSite}
    {block : Script} (h : ∀ site ∈ sites, site.Stands block) :
    ∀ site ∈ condition.calls ++ sites, site.Stands (guardedScript condition tested block) := by
  refine CallSite.stands_of_mem_append condition.stands h ?_ ?_
  · exact ⟨[.mark .leftParen], .mark .rightParen :: .act tested :: bracedScript block,
      by simp [guardedScript]⟩
  · exact (List.infix_append _ _ _).trans (List.suffix_append _ _).isInfix

theorem stands_statement {sites sites' : List CallSite} {p next : Script} (before after : Script)
    (hp : ∀ site ∈ sites, site.Stands p) (hnext : ∀ site ∈ sites', site.Stands next) :
    ∀ site ∈ sites ++ sites', site.Stands (before ++ p ++ after ++ next) := by
  refine CallSite.stands_of_mem_append hp hnext ?_ (List.suffix_append _ _).isInfix
  exact (List.infix_append _ _ _).trans (List.prefix_append _ _).isInfix

theorem Block.stands (b : Block) : ∀ site ∈ b.calls, site.Stands b.script := by
  induction b with
  | empty => exact List.forall_mem_nil _
  | let_ target value next ih => exact stands_statement _ _ (stands_assignment target value) ih
  | if_ condition yes next ihyes ih =>
    exact stands_statement _ _ (stands_guarded condition .branchIf ihyes) ih
  | ifElse condition yes no next ihyes ihno ih =>
    have hno : ∀ site ∈ no.calls, site.Stands (bracedScript no.script) := fun site hsite =>
      (ihno site hsite).mono (List.infix_append _ _ _)
    have hboth : ∀ site ∈ condition.calls ++ yes.calls ++ no.calls,
        site.Stands (guardedScript condition .branchIf yes.script ++
          ([Part.act .elseIf, .keyword .else_] ++ bracedScript no.script)) :=
      CallSite.stands_of_mem_append (stands_guarded condition .branchIf ihyes) hno
        (List.prefix_append _ _).isInfix
        ((List.suffix_append _ _).trans (List.suffix_append _ _)).isInfix
    have h := stands_statement [.enter .ifStatement, .act .startIf, .keyword .if_]
      [.act .endElse, .leave .ifStatement] hboth ih
    simpa [Block.script, Block.calls] using h
  | while_ condition body next ihbody ih =>
    exact stands_statement _ _ (stands_guarded condition .testWhile ihbody) ih
  | do_ target arguments next ih =>
    exact stands_statement _ _ (target.stands arguments.stands) ih
  | return_ value next ih =>
    have hvalue : ∀ site ∈ resultCalls value, site.Stands (resultScript value) := by
      cases value with
      | some value => exact value.stands
      | none => exact List.forall_mem_nil _
    exact stands_statement _ _ hvalue ih

end JackCompiler
