import JackCompiler.Proofs.Codegen.Acceptance

/-!
# What is emitted where

A part of a body is compiled in the course of compiling the class, with what is known by
then. In a body the names mean the same at every place, so a part emits its code wherever
it stands (`ClassDec.emits_of_yields`).
-/

namespace JackCompiler

/-! ## Actions of a body -/

/-- The action can be one of a body: it declares nothing, and begins and ends nothing but
statements. -/
def Action.inBody : Action → Bool
  | .nameClass _ => false
  | .declare _ _ _ => false
  | .startSubroutine => false
  | .receiveObject => false
  | .nameSubroutine _ => false
  | .startBody _ => false
  | .endBody _ => false
  | _ => true

theorem names_perform {o : Options} {c d : Context} {a : Action} {effects : List Effect}
    (ha : a.inBody = true) (h : perform o c a = .ok (d, effects)) : d.names = c.names := by
  cases a with
  | nameClass | declare | startSubroutine | receiveObject | nameSubroutine | startBody
  | endBody => cases ha
  | resolve | load | store | loadElement | addressElement | pushReceiver | pushText
  | countArguments | call =>
    obtain ⟨_, -, hpure⟩ := bind_eq_ok_iff.mp h
    cases hpure
    rfl
  | pushInteger literal =>
    simp only [perform] at h
    split at h <;> cases h
    rfl
  | _ =>
    cases h
    rfl

theorem names_performAll {o : Options} {as : List Action} (has : ∀ a ∈ as, a.inBody = true)
    {c d : Context} {p : List Instruction} (h : performAll o c as = .ok (d, p)) :
    d.names = c.names := by
  induction as generalizing c p with
  | nil =>
    obtain ⟨rfl, -⟩ := performAll_nil_iff.mp h
    rfl
  | cons a as ih =>
    rw [List.forall_mem_cons] at has
    obtain ⟨e, effects, q, ha, hq, -⟩ := performAll_cons_iff.mp h
    exact (ih has.2 hq).trans (names_perform has.1 ha)

abbrev Script.InBody (p : Script) : Prop :=
  ∀ a ∈ p.actions, a.inBody = true

theorem CallName.inBody {arguments : Script} (h : arguments.InBody) (target : CallName)
    (count : Nat) : (target.script arguments count).InBody := by
  simp only [Script.InBody, script, callEndScript, Script.actions_append, List.forall_mem_append,
    Script.actions_nameScript]
  exact ⟨⟨⟨List.forall_mem_nil _, List.forall_mem_singleton.mpr rfl⟩, h⟩,
    List.forall_mem_singleton.mpr rfl⟩

mutual

theorem Term.inBody : ∀ e : Term, e.script.InBody
  | .integer _ => List.forall_mem_singleton.mpr rfl
  | .text _ => List.forall_mem_singleton.mpr rfl
  | .word _ => List.forall_mem_singleton.mpr rfl
  | .unary op operand => by
    have h := operand.inBody
    simpa [Script.InBody, Term.script, or_imp, forall_and, Action.inBody] using h
  | .group inner => by
    have h := inner.inBody
    simpa [Script.InBody, Term.script] using h
  | .var _ => List.forall_mem_singleton.mpr rfl
  | .element _ index => by
    have h := index.inBody
    simpa [Script.InBody, Term.script, or_imp, forall_and, Action.inBody] using h
  | .call target arguments => by
    have h := target.inBody arguments.inBody arguments.length
    simpa [Script.InBody, Term.script] using h

theorem Expression.inBody : ∀ e : Expression, e.script.InBody
  | .mk first rest => by
    have h := List.forall_mem_append.mpr ⟨first.inBody, rest.inBody⟩
    simpa [Script.InBody, Expression.script] using h

theorem Operations.inBody : ∀ e : Operations, e.script.InBody
  | .nil => List.forall_mem_nil _
  | .cons op operand rest => by
    have h := List.forall_mem_append.mpr ⟨operand.inBody, rest.inBody⟩
    simpa [Script.InBody, Operations.script, or_imp, forall_and, Action.inBody] using h

theorem Arguments.inBody : ∀ e : Arguments, e.script.InBody
  | .nil => List.forall_mem_nil _
  | .cons first rest => by
    have h := List.forall_mem_append.mpr ⟨first.inBody, rest.inBody_more 1⟩
    simpa [Script.InBody, Arguments.script, or_imp, forall_and, Action.inBody] using h

theorem Arguments.inBody_more : ∀ (e : Arguments) (count : Nat), (e.moreScript count).InBody
  | .nil, _ => List.forall_mem_nil _
  | .cons first rest, count => by
    have h := List.forall_mem_append.mpr ⟨first.inBody, rest.inBody_more (count + 1)⟩
    simpa [Script.InBody, Arguments.moreScript, or_imp, forall_and, Action.inBody] using h

end

theorem inBody_assignment (target : Target) (value : Expression) :
    (assignmentScript target value).InBody := by
  have hvalue := value.inBody
  cases target with
  | var name =>
    simpa [Script.InBody, assignmentScript, Target.script, Target.stored, or_imp, forall_and,
      Action.inBody] using hvalue
  | element array index =>
    have h := List.forall_mem_append.mpr ⟨index.inBody, hvalue⟩
    simpa [Script.InBody, assignmentScript, Target.script, Target.stored, or_imp, forall_and,
      Action.inBody] using h

theorem inBody_guarded {block : Script} (h : block.InBody) (condition : Expression)
    {tested : Action} (ht : tested.inBody = true) :
    (guardedScript condition tested block).InBody := by
  have hboth := List.forall_mem_append.mpr ⟨condition.inBody, h⟩
  simpa [Script.InBody, guardedScript, bracedScript, or_imp, forall_and, ht] using hboth

theorem Block.inBody (b : Block) : b.script.InBody := by
  induction b with
  | empty => exact List.forall_mem_nil _
  | let_ target value next ih =>
    have h := List.forall_mem_append.mpr ⟨inBody_assignment target value, ih⟩
    simpa [Script.InBody, script] using h
  | if_ condition yes next ihyes ih =>
    have hyes : (guardedScript condition .branchIf yes.script).InBody :=
      inBody_guarded ihyes condition rfl
    have h := List.forall_mem_append.mpr ⟨hyes, ih⟩
    simpa [Script.InBody, script, or_imp, forall_and, Action.inBody] using h
  | ifElse condition yes no next ihyes ihno ih =>
    have hyes : (guardedScript condition .branchIf yes.script).InBody :=
      inBody_guarded ihyes condition rfl
    have h := List.forall_mem_append.mpr ⟨List.forall_mem_append.mpr ⟨hyes, ihno⟩, ih⟩
    simpa [Script.InBody, script, bracedScript, or_imp, forall_and, Action.inBody] using h
  | while_ condition body next ihbody ih =>
    have hbody : (guardedScript condition .testWhile body.script).InBody :=
      inBody_guarded ihbody condition rfl
    have h := List.forall_mem_append.mpr ⟨hbody, ih⟩
    simpa [Script.InBody, script, or_imp, forall_and, Action.inBody] using h
  | do_ target arguments next ih =>
    have h := List.forall_mem_append.mpr
      ⟨target.inBody arguments.inBody arguments.length, ih⟩
    simpa [Script.InBody, script, or_imp, forall_and, Action.inBody] using h
  | return_ value next ih =>
    have hvalue : (resultScript value).InBody := by
      cases value with
      | some value => exact value.inBody
      | none => exact List.forall_mem_singleton.mpr rfl
    have h := List.forall_mem_append.mpr ⟨hvalue, ih⟩
    simpa [Script.InBody, script, or_imp, forall_and, Action.inBody] using h

/-! ## The way to a body -/

namespace ClassDec

variable (tree : ClassDec) (o : Options) (s : SubroutineDec)

def opening (ss : List SubroutineDec) : Script :=
  headScript tree.name tree.variableDecs ++ ss.flatMap SubroutineDec.script ++ s.opening

/-- The compiler knows `c` when it comes to the statements of the subroutine. -/
def Enters (c : Context) : Prop :=
  ∃ ss rest code, tree.subroutines = ss ++ s :: rest ∧
    performAll o (.initial o) (tree.opening s ss).actions = .ok (c, code)

/-- For the part `x` of the body, which stands behind `p`, the compiler emits the code. It
is the part of the block behind what has been emitted for `p`. -/
def Emits (b : CodeBlock) (p x : Script) (code : List Instruction) : Prop :=
  ∃ c d e before after, tree.Enters o s c ∧ performAll o c p.actions = .ok (d, before) ∧
    performAll o d x.actions = .ok (e, code) ∧
    b.body = tree.setup o s ++ before ++ code ++ after

variable {tree o s}

theorem exists_enters (hstatic : tree.Static o) (hcount : tree.Countable)
    (hs : s ∈ tree.subroutines) : ∃ c, tree.Enters o s c ∧ tree.AtBody o s c := by
  obtain ⟨ss, rest, hss⟩ := List.append_of_mem hs
  -- The class that has only the subroutines before `s` is compiled in the same way up to there.
  let front : ClassDec := { tree with subroutines := ss }
  have hmem : ∀ t ∈ ss, t ∈ tree.subroutines := fun t ht => hss ▸ List.mem_append_left _ ht
  have hfront : front.Static o := static_iff.mpr ⟨hstatic.outer, fun t ht =>
    ⟨hstatic.inner (hmem t ht), hstatic.body (hmem t ht)⟩⟩
  have hcounts : front.Countable := fun t ht => hcount t (hmem t ht)
  have hhead := (front.performs o).append fun c _ _ hc => performs_head s hc hstatic.outer
  have hstart := hhead.append (S := front.AtBody o s) fun c _ _ hc =>
    hc.performs_startBody (.nil hc)
  have hactions : (tree.opening s ss).actions =
      front.script.actions ++
        (.startSubroutine :: ((if s.kind = .method then [.receiveObject] else []) ++
          .nameSubroutine s.name.token :: ((parametersScript s.parameters).actions ++
          Script.actions (s.locals.flatMap localsScript)))) ++ [.startBody s.kind] := by
    simp [opening, s.actions_opening, front, script_eq, endScript]
  rw [← hactions] at hstart
  obtain ⟨c, hc, hbody⟩ := hstart.exists_ok ⟨⟨hfront, hstatic.inner hs⟩, trivial⟩
    ⟨⟨hcounts, trivial⟩, trivial⟩
  have hknows := hbody.knows
  exact ⟨c, ⟨ss, rest, _, hss, hc⟩, ⟨hknows.className, hknows.policy, hknows.scopes⟩,
    hbody.subroutine, hbody.ifs, hbody.whiles⟩

/-- Any part of the body emits some code, knowing what names mean in the subroutine. -/
theorem exists_emits (hstatic : tree.Static o) (hcount : tree.Countable)
    (hs : s ∈ tree.subroutines) {p x q : Script} (hx : s.body.script = p ++ x ++ q) :
    ∃ d e code, d.names = tree.names s ∧ performAll o d x.actions = .ok (e, code) ∧
      tree.Emits o s (tree.block o s) p x code := by
  obtain ⟨c, hc, hbody⟩ := exists_enters hstatic hcount hs
  have hyields := s.body.yields o c
  rw [hbody.names_eq, hbody.labelScope_eq, hbody.ifs, hbody.whiles] at hyields
  have hrun := hyields.performed (hbody.names_eq ▸ hstatic.body hs) (hcount s hs)
  have hin := s.body.inBody
  simp only [Script.InBody, hx, Script.actions_append, List.forall_mem_append] at hin
  simp only [hx, Script.actions_append] at hrun
  obtain ⟨e, _, after, hpx, -, hcode⟩ := performAll_append_iff.mp hrun
  obtain ⟨d, before, code, hp, hcode', rfl⟩ := performAll_append_iff.mp hpx
  refine ⟨d, e, code, (names_performAll hin.1.1 hp).trans hbody.names_eq, hcode', ?_⟩
  refine ⟨c, d, e, before, after, hc, hp, hcode', ?_⟩
  show tree.setup o s ++ tree.bodyCode o s = _
  rw [bodyCode, hcode]
  simp only [List.append_assoc]

theorem emits_of_yields (hstatic : tree.Static o) (hcount : tree.Countable)
    (hs : s ∈ tree.subroutines) {p x q : Script} (hx : s.body.script = p ++ x ++ q)
    (code : Names → List Instruction) {us : List Use} {R : Names → Prop}
    (h : ∀ c, Yields o c x.actions us (R c.names) (code c.names) c) :
    tree.Emits o s (tree.block o s) p x (code (tree.names s)) ∧ R (tree.names s) := by
  obtain ⟨d, e, r, hd, hr, hemits⟩ := exists_emits hstatic hcount hs hx
  obtain ⟨⟨-, hR⟩, rfl⟩ := (h d).performs.iff_and_eq.mp ⟨e, hr⟩
  rw [hd] at hemits hR
  exact ⟨hemits, hR⟩

end ClassDec

end JackCompiler
