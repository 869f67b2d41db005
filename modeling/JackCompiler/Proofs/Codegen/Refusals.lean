import JackCompiler.Proofs.Codegen.Outcomes
import JackCompiler.Proofs.Codegen.Runs
import JackCompiler.Proofs.Syntax.Prefixes
import JackCompiler.Proofs.Token.Layout

/-!
# Unexpected tokens

A compilation that meets an unexpected token has read a prefix of a class up to it. With
that token no class goes on, and with each of the terminals that the fault names some
class does (`unexpected_is_first`).
-/

namespace JackCompiler

/-! ## The faults of actions -/

/-- The fault is about a name or a constant, not about how tokens follow each other. -/
def Fault.IsSemantic {Place : Type} : Fault Place → Prop
  | .undefined _ _ | .duplicate _ _ | .unknownCallee _ _ | .integerOutOfRange _ _
  | .stringTooLong _ _ | .charOutOfRange _ _ | .tooMany _ _ => True
  | _ => False

theorem Fault.isSemantic_map {α β : Type} {f : α → β} {fault : Fault α} :
    (fault.map f).IsSemantic ↔ fault.IsSemantic := by
  cases fault <;> exact Iff.rfl

theorem isSemantic_declare {c : Context} {name type : String} {kind : VariableKind}
    {fault : Fault Nat} (h : c.declare name type kind = .error fault) : fault.IsSemantic := by
  rcases bind_eq_error_iff.mp h with hdeclare | ⟨result, -, hpure⟩
  · unfold Scopes.declare at hdeclare
    simp only at hdeclare
    split at hdeclare
    · cases hdeclare
      trivial
    · split at hdeclare <;> cases hdeclare
      trivial
  · cases hpure

theorem isSemantic_textCode {literal : Token} {fault : Fault Nat}
    (h : textCode? literal = .error fault) : fault.IsSemantic := by
  simp only [textCode?] at h
  split at h
  · split at h <;> cases h
    trivial
  · cases h
    trivial

/-- The number of arguments, or of these and a receiver, can be too great for a word. -/
def Action.Overflows : Action → Prop
  | .countArguments n => 65535 < n
  | .call _ n => 65535 < n + 1
  | _ => False

theorem perform_eq_error {o : Options} {c : Context} {a : Action} {fault : Fault Nat}
    (h : perform o c a = .error fault) :
    fault.IsSemantic ∨ fault = .overflow ∧ a.Overflows := by
  cases a with
  | declare | receiveObject =>
    rcases bind_eq_error_iff.mp h with hdeclare | ⟨d, -, hpure⟩
    · exact .inl (isSemantic_declare hdeclare)
    · cases hpure
  | resolve | load | store | loadElement | addressElement =>
    rcases bind_eq_error_iff.mp h with hresolve | ⟨v, -, hpure⟩
    · obtain rfl := resolve_eq_error hresolve
      exact .inl trivial
    · cases hpure
  | pushReceiver =>
    rcases bind_eq_error_iff.mp h with hreceiver | ⟨code, -, hpure⟩
    · obtain ⟨_, _, -, rfl⟩ := receiverCode_eq_error hreceiver
      exact .inl trivial
    · cases hpure
  | pushText =>
    rcases bind_eq_error_iff.mp h with htext | ⟨code, -, hpure⟩
    · exact .inl (isSemantic_textCode htext)
    · cases hpure
  | pushInteger literal =>
    simp only [perform] at h
    split at h <;> cases h
    exact .inl trivial
  | countArguments =>
    rcases bind_eq_error_iff.mp h with hcount | ⟨w, -, hpure⟩
    · exact .inr (argumentCount_eq_error hcount)
    · cases hpure
  | call =>
    rcases bind_eq_error_iff.mp h with hcall | ⟨w, -, hpure⟩
    · exact .inr (callCode_eq_error hcall)
    · cases hpure
  | _ => cases h

/-! ## The refusal behind the fault -/

theorem perform_ne_unexpected {o : Options} {c : Context} {a : Action}
    {expected : List Terminal} {found : Token} {place : Nat} :
    perform o c a ≠ .error (.unexpected expected found place) := by
  intro h
  rcases perform_eq_error h with hsemantic | ⟨hoverflow, -⟩
  · exact hsemantic
  · cases hoverflow

theorem refuse_mem_of_unexpected {o : Options} {c : Context} {es : List Event}
    {expected : List Terminal} {found : Token} {place : Nat}
    (h : (generateFrom o #[] c es).fault = some (.unexpected expected found place)) :
    .refuse expected found ∈ es ∧ place = found.span.index := by
  induction es generalizing c with
  | nil => cases h
  | cons e es ih =>
    rw [generateFrom] at h
    cases hs : step o c e with
    | error fault =>
      rw [hs] at h
      obtain rfl := Option.some.inj h
      cases e with
      | refuse expected' found' =>
        cases hs
        exact ⟨List.mem_cons_self, rfl⟩
      | note n =>
        cases n with
        | act a => exact absurd hs perform_ne_unexpected
        | enter | leave => cases hs
      | look | take | exhausted => cases hs
    | ok result =>
      rw [hs] at h
      simp only at h
      rw [fault_generateFrom] at h
      obtain ⟨hmem, hplace⟩ := ih h
      exact ⟨List.mem_cons_of_mem _ hmem, hplace⟩

theorem stalls_of_unexpected {o : Options} {source : String} {expected : List Terminal}
    {found : Token} {place : Nat}
    (h : (history o source).fault = some (.unexpected expected found place)) :
    ∃ u rest, tokenize source = u ++ found :: rest ∧ Stalls classItems u found expected ∧
      place = found.span.index := by
  obtain ⟨hmem, hplace⟩ := refuse_mem_of_unexpected h
  have hcore := (mem_coreEvents_of_isFault (e := .refuse expected found) rfl).mpr hmem
  rw [core_parse] at hcore
  obtain ⟨u, rest, htokens, hstalls⟩ := stalls_of_refuse_mem hcore
  exact ⟨u, rest, htokens, hstalls, hplace⟩

/-! ## Compilations -/

/-- The fault names the first token that no class goes on with, and terminals with each of
which some class does. -/
theorem unexpected_is_first {o : Options} {source : String} {expected : List Terminal}
    {found : Token} {place : Position}
    (h : compile o source = .error (.unexpected expected found place)) :
    place = found.span.position source.toList ∧ found ∈ tokenize source ∧
      ∀ u rest, tokenize source = u ++ found :: rest →
        Viable (u.map Token.kind) ∧ ¬ Viable (u.map Token.kind ++ [found.kind]) ∧
        expected ≠ [] ∧ found.kind ∉ expected ∧
        ∀ kind ∈ expected, Viable (u.map Token.kind ++ [kind]) := by
  obtain ⟨fault, hfault, he⟩ := compile_eq_error_iff.mp h
  obtain ⟨index, rfl, rfl⟩ : ∃ index, fault = .unexpected expected found index ∧
      place = Position.ofOffset source.toList index := by
    cases fault with
    | unexpected expected' found' index =>
      obtain ⟨rfl, rfl, rfl⟩ := Fault.unexpected.inj he
      exact ⟨index, rfl, rfl⟩
    | _ => cases he
  obtain ⟨u, rest, htokens, hstalls, rfl⟩ := stalls_of_unexpected hfault
  have hnodup := nodup_tokenize source
  rw [htokens] at hnodup ⊢
  obtain ⟨hu, hrest⟩ : found ∉ u ∧ found ∉ rest := by
    rw [List.nodup_middle, List.nodup_cons] at hnodup
    simpa using hnodup.1
  refine ⟨rfl, by simp, fun u' rest' he => ?_⟩
  obtain ⟨rfl, -, -⟩ := (List.append_cons_inj_of_notMem hu hrest).mp he
  exact ⟨hstalls.viable_read, hstalls.not_viable, hstalls.expected_ne_nil, hstalls.kind_notMem,
    fun kind hkind => hstalls.viable hkind⟩

def openSource : String :=
  "class A \x7b function void f( \x7b"

def strayBrace : Token :=
  ⟨.mark .leftBrace, ⟨27, 1⟩, "\x7b"⟩

theorem unexpected_is_first_openSource :
    compile {} openSource = .error (.unexpected variableTypes strayBrace ⟨1, 28⟩) ∧
      ∀ kind ∈ variableTypes, Viable ([.keyword .class_, .ident, .mark .leftBrace,
        .keyword .function, .keyword .void, .ident, .mark .leftParen] ++ [kind]) := by
  have hcompile : compile {} openSource =
      .error (.unexpected variableTypes strayBrace ⟨1, 28⟩) :=
    compile_eq_error_iff.mpr
      ⟨.unexpected variableTypes strayBrace 27, by decide +kernel, by decide +kernel⟩
  have htokens : tokenize openSource = (tokenize openSource).take 7 ++
      strayBrace :: (tokenize openSource).drop 8 := by decide +kernel
  have hkinds : ((tokenize openSource).take 7).map Token.kind = [.keyword .class_, .ident,
      .mark .leftBrace, .keyword .function, .keyword .void, .ident, .mark .leftParen] := by
    decide +kernel
  obtain ⟨-, -, hfirst⟩ := unexpected_is_first hcompile
  rw [← hkinds]
  exact ⟨hcompile, (hfirst _ _ htokens).2.2.2.2⟩

end JackCompiler
