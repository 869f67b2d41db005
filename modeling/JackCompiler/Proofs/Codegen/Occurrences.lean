import JackCompiler.Proofs.Codegen.Generation
import JackCompiler.Proofs.Codegen.Words

/-!
# What the names of a subroutine stand for

Each name in a subroutine stands in one position, for a variable or for something else
(`SubroutineDec.occurrences`). The tokens of its script are those of the positions, in order, and
the actions use each token as its position says (`SubroutineDec.plays`).
-/

namespace JackCompiler

/-! ## Positions -/

inductive Role
  /-- Where a variable is declared, read, stored into or indexed, or qualifies a call. -/
  | variable
  | type
  /-- The name of a subroutine that is declared, or called without a qualifier. -/
  | subroutine
  | member
  | constant
deriving DecidableEq, Repr

structure Occurrence where
  role : Role
  token : Token
deriving DecidableEq, Repr

def Name.as (role : Role) (name : Name) : Occurrence :=
  ⟨role, name.token⟩

def CallName.occurrences : CallName → List Occurrence
  | .own name => [Name.as .subroutine name]
  | .member qualifier name => [Name.as .variable qualifier, Name.as .member name]

mutual

def Term.occurrences : Term → List Occurrence
  | .integer literal => [⟨.constant, literal.token⟩]
  | .text literal => [⟨.constant, literal.token⟩]
  | .word _ => []
  | .unary _ operand => operand.occurrences
  | .group inner => inner.occurrences
  | .var name => [Name.as .variable name]
  | .element array index => Name.as .variable array :: index.occurrences
  | .call target arguments => target.occurrences ++ arguments.occurrences

def Expression.occurrences : Expression → List Occurrence
  | .mk first rest => first.occurrences ++ rest.occurrences

def Operations.occurrences : Operations → List Occurrence
  | .nil => []
  | .cons _ operand rest => operand.occurrences ++ rest.occurrences

def Arguments.occurrences : Arguments → List Occurrence
  | .nil => []
  | .cons first rest => first.occurrences ++ rest.occurrences

end

def Target.occurrences : Target → List Occurrence
  | .var name => [Name.as .variable name]
  | .element array index => Name.as .variable array :: index.occurrences

def resultOccurrences : Option Expression → List Occurrence
  | some value => value.occurrences
  | none => []

def Block.occurrences : Block → List Occurrence
  | .empty => []
  | .let_ target value next => target.occurrences ++ value.occurrences ++ next.occurrences
  | .if_ condition yes next => condition.occurrences ++ yes.occurrences ++ next.occurrences
  | .ifElse condition yes no next =>
    condition.occurrences ++ yes.occurrences ++ no.occurrences ++ next.occurrences
  | .while_ condition body next => condition.occurrences ++ body.occurrences ++ next.occurrences
  | .do_ target arguments next =>
    target.occurrences ++ arguments.occurrences ++ next.occurrences
  | .return_ value next => resultOccurrences value ++ next.occurrences

def Declared.occurrences (d : Declared) : List Occurrence :=
  ⟨.type, d.type.token⟩ :: (d.first :: d.more).map (Name.as .variable)

def Parameter.occurrences (p : Parameter) : List Occurrence :=
  [⟨.type, p.type.token⟩, Name.as .variable p.name]

def SubroutineDec.occurrences (s : SubroutineDec) : List Occurrence :=
  [⟨.type, s.result.token⟩, Name.as .subroutine s.name] ++
  s.parameters.flatMap Parameter.occurrences ++ s.locals.flatMap Declared.occurrences ++
  s.body.occurrences

def headOccurrences (name : Name) (vars : List ClassVarDec) : List Occurrence :=
  Name.as .type name :: vars.flatMap fun d => d.declared.occurrences

def ClassDec.occurrences (c : ClassDec) : List Occurrence :=
  headOccurrences c.name c.variableDecs ++ c.subroutines.flatMap SubroutineDec.occurrences

/-! ## Variables are called by identifiers -/

def Occurrence.Fits (o : Occurrence) : Prop :=
  o.role = .variable → o.token.kind = .ident

theorem Name.fits_as (role : Role) (name : Name) : (Name.as role name).Fits :=
  fun _ => List.mem_singleton.mp name.kind_mem

theorem fits_of_ne {role : Role} (h : role ≠ .variable) (t : Token) : Occurrence.Fits ⟨role, t⟩ :=
  fun hrole => absurd hrole h

theorem CallName.fits (target : CallName) : ∀ o ∈ target.occurrences, o.Fits := by
  cases target with
  | own name => exact List.forall_mem_singleton.mpr (name.fits_as _)
  | member qualifier name =>
    exact List.forall_mem_cons.mpr
      ⟨qualifier.fits_as _, List.forall_mem_singleton.mpr (name.fits_as _)⟩

mutual

theorem Term.fits : ∀ e : Term, ∀ o ∈ e.occurrences, o.Fits
  | .integer literal => List.forall_mem_singleton.mpr (fits_of_ne (by decide) _)
  | .text literal => List.forall_mem_singleton.mpr (fits_of_ne (by decide) _)
  | .word _ => List.forall_mem_nil _
  | .unary _ operand => operand.fits
  | .group inner => inner.fits
  | .var name => List.forall_mem_singleton.mpr (name.fits_as _)
  | .element array index => List.forall_mem_cons.mpr ⟨array.fits_as _, index.fits⟩
  | .call target arguments => List.forall_mem_append.mpr ⟨target.fits, arguments.fits⟩

theorem Expression.fits : ∀ e : Expression, ∀ o ∈ e.occurrences, o.Fits
  | .mk first rest => List.forall_mem_append.mpr ⟨first.fits, rest.fits⟩

theorem Operations.fits : ∀ e : Operations, ∀ o ∈ e.occurrences, o.Fits
  | .nil => List.forall_mem_nil _
  | .cons _ operand rest => List.forall_mem_append.mpr ⟨operand.fits, rest.fits⟩

theorem Arguments.fits : ∀ e : Arguments, ∀ o ∈ e.occurrences, o.Fits
  | .nil => List.forall_mem_nil _
  | .cons first rest => List.forall_mem_append.mpr ⟨first.fits, rest.fits⟩

end

theorem Target.fits (target : Target) : ∀ o ∈ target.occurrences, o.Fits := by
  cases target with
  | var name => exact List.forall_mem_singleton.mpr (name.fits_as _)
  | element array index => exact List.forall_mem_cons.mpr ⟨array.fits_as _, index.fits⟩

theorem fits_result (value : Option Expression) : ∀ o ∈ resultOccurrences value, o.Fits := by
  cases value with
  | some value => exact value.fits
  | none => exact List.forall_mem_nil _

theorem Block.fits (b : Block) : ∀ o ∈ b.occurrences, o.Fits := by
  induction b with
  | empty => exact List.forall_mem_nil _
  | let_ target value next ih =>
    exact List.forall_mem_append.mpr ⟨List.forall_mem_append.mpr ⟨target.fits, value.fits⟩, ih⟩
  | if_ condition yes next ihyes ih | while_ condition yes next ihyes ih =>
    exact List.forall_mem_append.mpr ⟨List.forall_mem_append.mpr ⟨condition.fits, ihyes⟩, ih⟩
  | ifElse condition yes no next ihyes ihno ih =>
    have hyes := List.forall_mem_append.mpr ⟨condition.fits, ihyes⟩
    exact List.forall_mem_append.mpr ⟨List.forall_mem_append.mpr ⟨hyes, ihno⟩, ih⟩
  | do_ target arguments next ih =>
    exact List.forall_mem_append.mpr ⟨List.forall_mem_append.mpr ⟨target.fits, arguments.fits⟩, ih⟩
  | return_ value next ih => exact List.forall_mem_append.mpr ⟨fits_result value, ih⟩

theorem Declared.fits (d : Declared) : ∀ o ∈ d.occurrences, o.Fits :=
  List.forall_mem_cons.mpr
    ⟨fits_of_ne (by decide) _, List.forall_mem_map.mpr fun name _ => name.fits_as _⟩

theorem Parameter.fits (p : Parameter) : ∀ o ∈ p.occurrences, o.Fits :=
  List.forall_mem_cons.mpr
    ⟨fits_of_ne (by decide) _, List.forall_mem_singleton.mpr (p.name.fits_as _)⟩

theorem SubroutineDec.fits (s : SubroutineDec) : ∀ o ∈ s.occurrences, o.Fits := by
  have hhead : ∀ o ∈ [⟨.type, s.result.token⟩, Name.as .subroutine s.name], o.Fits :=
    List.forall_mem_cons.mpr
      ⟨fits_of_ne (by decide) _, List.forall_mem_singleton.mpr (s.name.fits_as _)⟩
  simp only [occurrences, List.forall_mem_append, List.forall_mem_flatMap]
  exact ⟨⟨⟨hhead, fun p _ => p.fits⟩, fun d _ => d.fits⟩, s.body.fits⟩

/-! ## Tokens of scripts -/

def Part.token? : Part → Option Token
  | .token t => some t
  | _ => none

namespace Script

/-- The tokens of the script that are not fixed. -/
def tokens (p : Script) : List Token :=
  p.filterMap Part.token?

@[simp] theorem tokens_nil : tokens [] = [] := rfl

@[simp] theorem tokens_append (p q : Script) : tokens (p ++ q) = p.tokens ++ q.tokens :=
  List.filterMap_append

@[simp] theorem tokens_act (a : Action) (p : Script) : tokens (.act a :: p) = p.tokens := rfl

@[simp] theorem tokens_enter (r : Rule) (p : Script) : tokens (.enter r :: p) = p.tokens := rfl

@[simp] theorem tokens_leave (r : Rule) (p : Script) : tokens (.leave r :: p) = p.tokens := rfl

@[simp] theorem tokens_mark (m : Mark) (p : Script) : tokens (.mark m :: p) = p.tokens := rfl

@[simp] theorem tokens_keyword (k : Keyword) (p : Script) :
    tokens (.keyword k :: p) = p.tokens := rfl

@[simp] theorem tokens_token (t : Token) (p : Script) :
    tokens (.token t :: p) = t :: p.tokens := rfl

theorem tokens_flatMap {α : Type} {f : α → Script} {g : α → List Occurrence}
    (h : ∀ x, (f x).tokens = (g x).map Occurrence.token) (xs : List α) :
    tokens (xs.flatMap f) = (xs.flatMap g).map Occurrence.token := by
  induction xs with
  | nil => rfl
  | cons x xs ih =>
    rw [List.flatMap_cons, List.flatMap_cons, tokens_append, List.map_append, h, ih]

end Script

theorem Reads.sublist_tokens {p : Script} {u : List Token} {es : List Event}
    (h : Reads p u es) : p.tokens.Sublist u := by
  induction h with
  | nil => exact .slnil
  | note _ ih => exact ih
  | fixed _ ih => exact ih.cons _
  | token _ ih => exact ih.cons_cons _

/-! ## The tokens in the positions -/

theorem CallName.tokens_script (target : CallName) (arguments : Script) (count : Nat) :
    (target.script arguments count).tokens =
      target.occurrences.map Occurrence.token ++ arguments.tokens := by
  cases target <;> simp [script, nameScript, callEndScript, occurrences, Name.as]

mutual

theorem Term.tokens_script : ∀ e : Term, e.script.tokens = e.occurrences.map Occurrence.token
  | .integer _ => rfl
  | .text _ => rfl
  | .word _ => rfl
  | .unary _ operand => by simp [Term.script, Term.occurrences, operand.tokens_script]
  | .group inner => by simp [Term.script, Term.occurrences, inner.tokens_script]
  | .var _ => rfl
  | .element _ index => by simp [Term.script, Term.occurrences, Name.as, index.tokens_script]
  | .call target arguments => by
    simp [Term.script, Term.occurrences, target.tokens_script, arguments.tokens_script]

theorem Expression.tokens_script :
    ∀ e : Expression, e.script.tokens = e.occurrences.map Occurrence.token
  | .mk first rest => by
    simp [Expression.script, Expression.occurrences, first.tokens_script, rest.tokens_script]

theorem Operations.tokens_script :
    ∀ e : Operations, e.script.tokens = e.occurrences.map Occurrence.token
  | .nil => rfl
  | .cons _ operand rest => by
    simp [Operations.script, Operations.occurrences, operand.tokens_script, rest.tokens_script]

theorem Arguments.tokens_script :
    ∀ e : Arguments, e.script.tokens = e.occurrences.map Occurrence.token
  | .nil => rfl
  | .cons first rest => by
    simp [Arguments.script, Arguments.occurrences, first.tokens_script, rest.tokens_moreScript]

theorem Arguments.tokens_moreScript :
    ∀ (e : Arguments) (count : Nat),
      (e.moreScript count).tokens = e.occurrences.map Occurrence.token
  | .nil, _ => rfl
  | .cons first rest, count => by
    simp [Arguments.moreScript, Arguments.occurrences, first.tokens_script,
      rest.tokens_moreScript]

end

theorem Target.tokens_script (target : Target) :
    target.script.tokens = target.occurrences.map Occurrence.token := by
  cases target <;> simp [script, occurrences, Name.as, Expression.tokens_script]

theorem tokens_guardedScript (condition : Expression) (tested : Action) (block : Script) :
    (guardedScript condition tested block).tokens =
      condition.occurrences.map Occurrence.token ++ block.tokens := by
  simp [guardedScript, bracedScript, condition.tokens_script]

theorem tokens_resultScript (value : Option Expression) :
    (resultScript value).tokens = (resultOccurrences value).map Occurrence.token := by
  cases value with
  | none => rfl
  | some value => exact value.tokens_script

theorem Block.tokens_script (b : Block) :
    b.script.tokens = b.occurrences.map Occurrence.token := by
  induction b with
  | empty => rfl
  | let_ target value next ih =>
    simp [script, occurrences, assignmentScript, target.tokens_script, value.tokens_script, ih]
  | if_ condition yes next ihyes ih | while_ condition yes next ihyes ih =>
    simp [script, occurrences, tokens_guardedScript, ihyes, ih]
  | ifElse condition yes no next ihyes ihno ih =>
    simp [script, occurrences, tokens_guardedScript, bracedScript, ihyes, ihno, ih]
  | do_ target arguments next ih =>
    simp [script, occurrences, target.tokens_script, arguments.tokens_script, ih]
  | return_ value next ih => simp [script, occurrences, tokens_resultScript, ih]

theorem Declared.tokens_script (kind : VariableKind) (d : Declared) :
    (d.script kind).tokens = d.occurrences.map Occurrence.token := by
  have hmore : (moreNamesScript kind d.type.token d.more).tokens =
      (d.more.flatMap fun name => [Name.as .variable name]).map Occurrence.token :=
    Script.tokens_flatMap (fun _ => rfl) d.more
  rw [← List.map_eq_flatMap] at hmore
  simp [script, nameScript, occurrences, Name.as, hmore]

theorem Parameter.tokens_script (p : Parameter) :
    p.script.tokens = p.occurrences.map Occurrence.token := rfl

theorem tokens_parametersScript (ps : List Parameter) :
    (parametersScript ps).tokens =
      (ps.flatMap Parameter.occurrences).map Occurrence.token := by
  cases ps with
  | nil => rfl
  | cons p ps =>
    have hmore := Script.tokens_flatMap (f := fun p => .mark .comma :: p.script)
      Parameter.tokens_script ps
    rw [parametersScript, Script.tokens_append, p.tokens_script, moreParametersScript, hmore]
    simp

theorem tokens_localsScript (d : Declared) :
    (localsScript d).tokens = d.occurrences.map Occurrence.token := by
  simp [localsScript, d.tokens_script]

theorem SubroutineDec.tokens_script (s : SubroutineDec) :
    s.script.tokens = s.occurrences.map Occurrence.token := by
  have hobject : Script.tokens (if s.kind = .method then [.act .receiveObject] else []) = [] := by
    split <;> rfl
  have hlocals := Script.tokens_flatMap tokens_localsScript s.locals
  simp [script, occurrences, Name.as, hobject, tokens_parametersScript, hlocals,
    s.body.tokens_script]

theorem ClassVarDec.tokens_script (d : ClassVarDec) :
    d.script.tokens = d.declared.occurrences.map Occurrence.token := by
  simp [script, d.declared.tokens_script]

theorem ClassDec.tokens_script (c : ClassDec) :
    c.script.tokens = c.occurrences.map Occurrence.token := by
  have hvariables := Script.tokens_flatMap ClassVarDec.tokens_script c.variableDecs
  have hsubroutines := Script.tokens_flatMap SubroutineDec.tokens_script c.subroutines
  simp [script, occurrences, headOccurrences, Name.as, hvariables, hsubroutines]

/-! ## The positions of the tokens of actions -/

def Callee.occurrences : Callee → List Occurrence
  | .own name => [⟨.subroutine, name⟩]
  | .member qualifier name => [⟨.variable, qualifier⟩, ⟨.member, name⟩]

def Action.occurrences : Action → List Occurrence
  | .nameClass name => [⟨.type, name⟩]
  | .declare _ type name => [⟨.type, type⟩, ⟨.variable, name⟩]
  | .nameSubroutine name => [⟨.subroutine, name⟩]
  | .pushInteger literal => [⟨.constant, literal⟩]
  | .pushText literal => [⟨.constant, literal⟩]
  | .resolve name => [⟨.variable, name⟩]
  | .load name => [⟨.variable, name⟩]
  | .store name => [⟨.variable, name⟩]
  | .loadElement name => [⟨.variable, name⟩]
  | .addressElement name => [⟨.variable, name⟩]
  | .pushReceiver callee => callee.occurrences
  | .call callee _ => callee.occurrences
  | _ => []

/-- The actions of the script use tokens as they occur in the list. -/
def Script.Plays (p : Script) (os : List Occurrence) : Prop :=
  ∀ a ∈ p.actions, a.occurrences ⊆ os

namespace Script

variable {os : List Occurrence}

@[simp] theorem plays_nil : Plays [] os :=
  List.forall_mem_nil _

@[simp] theorem plays_append_iff (p q : Script) :
    Plays (p ++ q) os ↔ p.Plays os ∧ q.Plays os := by
  rw [Plays, actions_append, List.forall_mem_append]
  exact Iff.rfl

@[simp] theorem plays_act_iff (a : Action) (p : Script) :
    Plays (.act a :: p) os ↔ a.occurrences ⊆ os ∧ p.Plays os :=
  List.forall_mem_cons

@[simp] theorem plays_enter_iff (r : Rule) (p : Script) :
    Plays (.enter r :: p) os ↔ p.Plays os := Iff.rfl

@[simp] theorem plays_leave_iff (r : Rule) (p : Script) :
    Plays (.leave r :: p) os ↔ p.Plays os := Iff.rfl

@[simp] theorem plays_mark_iff (m : Mark) (p : Script) :
    Plays (.mark m :: p) os ↔ p.Plays os := Iff.rfl

@[simp] theorem plays_keyword_iff (k : Keyword) (p : Script) :
    Plays (.keyword k :: p) os ↔ p.Plays os := Iff.rfl

@[simp] theorem plays_token_iff (t : Token) (p : Script) :
    Plays (.token t :: p) os ↔ p.Plays os := Iff.rfl

theorem plays_flatMap {α : Type} {f : α → Script} {g : α → List Occurrence} {xs : List α}
    (h : ∀ x, g x ⊆ os → (f x).Plays os) (hos : xs.flatMap g ⊆ os) :
    Plays (xs.flatMap f) os := by
  induction xs with
  | nil => exact plays_nil
  | cons x xs ih =>
    rw [List.flatMap_cons, List.append_subset] at hos
    rw [List.flatMap_cons, plays_append_iff]
    exact ⟨h x hos.1, ih hos.2⟩

end Script

section

variable {os : List Occurrence}

theorem CallName.occurrences_callee (target : CallName) :
    target.callee.occurrences = target.occurrences := by
  cases target <;> rfl

theorem CallName.plays {target : CallName} {arguments : Script} (h : target.occurrences ⊆ os)
    (harguments : arguments.Plays os) (count : Nat) :
    (target.script arguments count).Plays os := by
  have hname : target.nameScript.Plays os := by cases target <;> simp [nameScript]
  simp [script, callEndScript, Action.occurrences, target.occurrences_callee, h, harguments,
    hname]

mutual

theorem Term.plays : ∀ e : Term, e.occurrences ⊆ os → e.script.Plays os
  | .integer _, h => by simpa [Term.script, Term.occurrences, Action.occurrences] using h
  | .text _, h => by simpa [Term.script, Term.occurrences, Action.occurrences] using h
  | .word _, _ => by simp [Term.script, Action.occurrences]
  | .unary _ operand, h => by
    simpa [Term.script, Action.occurrences] using operand.plays h
  | .group inner, h => by simpa [Term.script] using inner.plays h
  | .var _, h => by simpa [Term.script, Term.occurrences, Name.as, Action.occurrences] using h
  | .element _ index, h => by
    obtain ⟨harray, hindex⟩ := List.cons_subset.mp h
    simpa [Term.script, Name.as, Action.occurrences, index.plays hindex] using harray
  | .call target arguments, h => by
    obtain ⟨htarget, harguments⟩ := List.append_subset.mp h
    simpa [Term.script] using CallName.plays htarget (arguments.plays harguments) _

theorem Expression.plays : ∀ e : Expression, e.occurrences ⊆ os → e.script.Plays os
  | .mk first rest, h => by
    obtain ⟨hfirst, hrest⟩ := List.append_subset.mp h
    simpa [Expression.script] using ⟨first.plays hfirst, rest.plays hrest⟩

theorem Operations.plays : ∀ e : Operations, e.occurrences ⊆ os → e.script.Plays os
  | .nil, _ => Script.plays_nil
  | .cons _ operand rest, h => by
    obtain ⟨hoperand, hrest⟩ := List.append_subset.mp h
    simpa [Operations.script, Action.occurrences] using
      ⟨operand.plays hoperand, rest.plays hrest⟩

theorem Arguments.plays : ∀ e : Arguments, e.occurrences ⊆ os → e.script.Plays os
  | .nil, _ => Script.plays_nil
  | .cons first rest, h => by
    obtain ⟨hfirst, hrest⟩ := List.append_subset.mp h
    simpa [Arguments.script, Action.occurrences] using
      ⟨first.plays hfirst, rest.playsMore 1 hrest⟩

theorem Arguments.playsMore :
    ∀ (e : Arguments) (count : Nat), e.occurrences ⊆ os → (e.moreScript count).Plays os
  | .nil, _, _ => Script.plays_nil
  | .cons first rest, count, h => by
    obtain ⟨hfirst, hrest⟩ := List.append_subset.mp h
    simpa [Arguments.moreScript, Action.occurrences] using
      ⟨first.plays hfirst, rest.playsMore (count + 1) hrest⟩

end

theorem plays_assignment {target : Target} {value : Expression}
    (htarget : target.occurrences ⊆ os) (hvalue : value.occurrences ⊆ os) :
    (assignmentScript target value).Plays os := by
  have hplays := value.plays hvalue
  cases target with
  | var name =>
    simpa [assignmentScript, Target.script, Target.stored, Target.occurrences, Name.as,
      Action.occurrences, hplays] using htarget
  | element array index =>
    obtain ⟨harray, hindex⟩ := List.cons_subset.mp htarget
    simpa [assignmentScript, Target.script, Target.stored, Name.as, Action.occurrences, hplays,
      index.plays hindex] using harray

theorem plays_guarded {condition : Expression} {tested : Action} {block : Script}
    (hcondition : condition.occurrences ⊆ os) (htested : tested.occurrences ⊆ os)
    (hblock : block.Plays os) : (guardedScript condition tested block).Plays os := by
  simp [guardedScript, bracedScript, condition.plays hcondition, htested, hblock]

theorem Block.plays {b : Block} (h : b.occurrences ⊆ os) : b.script.Plays os := by
  induction b with
  | empty => exact Script.plays_nil
  | let_ target value next ih =>
    simp only [occurrences, List.append_subset] at h
    simpa [script] using ⟨plays_assignment h.1.1 h.1.2, ih h.2⟩
  | if_ condition yes next ihyes ih =>
    simp only [occurrences, List.append_subset] at h
    have hguarded : (guardedScript condition .branchIf yes.script).Plays os :=
      plays_guarded h.1.1 (List.nil_subset _) (ihyes h.1.2)
    simpa [script, Action.occurrences] using ⟨hguarded, ih h.2⟩
  | ifElse condition yes no next ihyes ihno ih =>
    simp only [occurrences, List.append_subset] at h
    have hguarded : (guardedScript condition .branchIf yes.script).Plays os :=
      plays_guarded h.1.1.1 (List.nil_subset _) (ihyes h.1.1.2)
    simpa [script, bracedScript, Action.occurrences] using ⟨hguarded, ihno h.1.2, ih h.2⟩
  | while_ condition body next ihbody ih =>
    simp only [occurrences, List.append_subset] at h
    have hguarded : (guardedScript condition .testWhile body.script).Plays os :=
      plays_guarded h.1.1 (List.nil_subset _) (ihbody h.1.2)
    simpa [script, Action.occurrences] using ⟨hguarded, ih h.2⟩
  | do_ target arguments next ih =>
    simp only [occurrences, List.append_subset] at h
    simpa [script, Action.occurrences] using
      ⟨CallName.plays h.1.1 (arguments.plays h.1.2) _, ih h.2⟩
  | return_ value next ih =>
    obtain ⟨hvalue, hnext⟩ := List.append_subset.mp h
    have hresult : (resultScript value).Plays os := by
      cases value with
      | none => simp [resultScript, Action.occurrences]
      | some value => exact value.plays hvalue
    simpa [script, Action.occurrences] using ⟨hresult, ih hnext⟩

theorem Declared.plays (kind : VariableKind) {d : Declared} (h : d.occurrences ⊆ os) :
    (d.script kind).Plays os := by
  obtain ⟨htype, hnames⟩ := List.cons_subset.mp h
  obtain ⟨hfirst, hmore⟩ := List.cons_subset.mp hnames
  have hname : ∀ name : Name, Name.as .variable name ∈ os →
      (nameScript kind d.type.token name).Plays os := fun name hmem => by
    simpa [nameScript, Name.as, Action.occurrences, htype] using hmem
  have hall : (moreNamesScript kind d.type.token d.more).Plays os := by
    refine Script.plays_flatMap (g := fun name => [Name.as .variable name]) (fun name hmem => ?_) ?_
    · rw [Script.plays_mark_iff]
      exact hname name (hmem List.mem_cons_self)
    · rwa [← List.map_eq_flatMap]
  simpa [script] using ⟨hname d.first hfirst, hall⟩

theorem Parameter.plays {p : Parameter} (h : p.occurrences ⊆ os) : p.script.Plays os := by
  simpa [script, nameScript, Action.occurrences, occurrences, Name.as] using h

theorem plays_parameters {ps : List Parameter} (h : ps.flatMap Parameter.occurrences ⊆ os) :
    (parametersScript ps).Plays os := by
  cases ps with
  | nil => exact Script.plays_nil
  | cons p ps =>
    obtain ⟨hfirst, hmore⟩ := List.append_subset.mp h
    refine (Script.plays_append_iff _ _).mpr ⟨p.plays hfirst, ?_⟩
    refine Script.plays_flatMap (fun q hq => ?_) hmore
    rw [Script.plays_mark_iff]
    exact q.plays hq

theorem plays_locals {ds : List Declared} (h : ds.flatMap Declared.occurrences ⊆ os) :
    Script.Plays (ds.flatMap localsScript) os := by
  refine Script.plays_flatMap (fun d hd => ?_) h
  simpa [localsScript] using d.plays .local hd

theorem SubroutineDec.plays {s : SubroutineDec} (h : s.occurrences ⊆ os) : s.script.Plays os := by
  simp only [occurrences, List.append_subset] at h
  obtain ⟨⟨⟨hhead, hparameters⟩, hlocals⟩, hbody⟩ := h
  have hname : Name.as .subroutine s.name ∈ os := hhead (List.mem_cons_of_mem _ List.mem_cons_self)
  have hobject : Script.Plays (if s.kind = .method then [.act .receiveObject] else []) os := by
    split <;> simp [Action.occurrences]
  simpa [script, Action.occurrences, hobject, plays_parameters hparameters,
    plays_locals hlocals, Block.plays hbody, Name.as] using hname

theorem plays_header {name : Name} {vars : List ClassVarDec}
    (h : headOccurrences name vars ⊆ os) : (headScript name vars).Plays os := by
  obtain ⟨hname, hvars⟩ := List.cons_subset.mp h
  have hvariables : Script.Plays (vars.flatMap ClassVarDec.script) os := by
    refine Script.plays_flatMap (fun d hd => ?_) hvars
    simpa [ClassVarDec.script] using d.declared.plays d.kind hd
  simpa [headScript, Action.occurrences, Name.as, hvariables] using hname

end

end JackCompiler
