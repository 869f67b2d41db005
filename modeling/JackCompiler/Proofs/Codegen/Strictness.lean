import JackCompiler.Proofs.Codegen.Runs

/-!
# Strict compilations

A strict compilation knows what a lenient one knows, but for the policy of its scopes,
until it meets one of the two faults of its own. So what it accepts is compiled alike
without strictness, and naming more classes as known loses nothing (`strict_conservative`).
-/

namespace JackCompiler

/-! ## The options compared -/

namespace Options

def lenient (o : Options) : Options :=
  { o with strict := false }

def strictWith (o : Options) (known : List String) : Options :=
  { o with strict := true, knownClasses := known }

theorem lenient_eq {o : Options} (h : o.strict = false) : o.lenient = o := by
  obtain ⟨strict, trace, qualifyLabels, objectSetup, knownClasses⟩ := o
  subst h
  rfl

end Options

def Fault.isStrict {Place : Type} : Fault Place → Bool
  | .duplicate _ _ => true
  | .unknownCallee _ _ => true
  | _ => false

theorem Fault.isStrict_map {α β : Type} (f : α → β) (fault : Fault α) :
    (fault.map f).isStrict = fault.isStrict := by
  cases fault <;> rfl

/-! ## Scopes -/

/-- The scopes, from now on with names that may be declared again. -/
def Scopes.relax (s : Scopes) : Scopes :=
  { s with policy := .replace }

theorem Scopes.setOwner_relax (s : Scopes) (kind : VariableKind) (scope : Scope) :
    s.relax.setOwner kind scope = (s.setOwner kind scope).relax := by
  unfold setOwner
  split <;> rfl

theorem Scopes.declare_relax (s : Scopes) (name type : String) (kind : VariableKind) :
    (∃ fault, (s.declare name type kind : Except (Fault Nat) _) = .error fault ∧
      fault.isStrict = true) ∨
    (s.relax.declare name type kind : Except (Fault Nat) _) =
      (s.declare name type kind).map (Prod.map id relax) := by
  have howner : s.relax.owner kind = s.owner kind := rfl
  unfold declare
  by_cases hdup : s.policy = .reject ∧ ((s.owner kind).find? name).isSome = true
  · exact .inl ⟨.duplicate name kind, if_pos hdup, rfl⟩
  · have hpolicy : s.relax.policy ≠ .reject := DuplicatePolicy.noConfusion
    refine .inr ?_
    simp only [if_neg hdup, hpolicy, false_and, if_false, howner]
    cases (s.owner kind).declare? name type kind with
    | none => rfl
    | some result => exact congrArg (fun t => Except.ok (result.1, t)) (s.setOwner_relax kind _)

/-- What is known stays lenient: no name is refused, also later. -/
def StaysLenient {α : Type} (scopes : α → Scopes) : Except (Fault Nat) α → Prop
  | .ok result => (scopes result).policy = .replace
  | .error fault => fault.isStrict = false

theorem Scopes.declare_replace {s : Scopes} (h : s.policy = .replace) (name type : String)
    (kind : VariableKind) : StaysLenient Prod.snd (s.declare name type kind) := by
  have hfree : s.policy ≠ .reject := by simp [h]
  unfold declare
  simp only [hfree, false_and, if_false]
  cases (s.owner kind).declare? name type kind with
  | none => exact rfl
  | some result =>
    show (s.setOwner kind result.2).policy = .replace
    unfold setOwner
    split <;> exact h

/-! ## Steps -/

def Context.relax (c : Context) : Context :=
  { c with scopes := c.scopes.relax }

theorem Context.declare_relax (c : Context) (name type : String) (kind : VariableKind) :
    (∃ fault, c.declare name type kind = .error fault ∧ fault.isStrict = true) ∨
      c.relax.declare name type kind = (c.declare name type kind).map relax := by
  unfold declare
  rcases c.scopes.declare_relax name type kind with ⟨fault, hd, hstrict⟩ | hd
  · exact .inl ⟨fault, by rw [hd]; rfl, hstrict⟩
  · refine .inr ?_
    have hrelax : c.relax.scopes = c.scopes.relax := rfl
    rw [hrelax, hd]
    cases (c.scopes.declare name type kind : Except (Fault Nat) _) <;> rfl

section Steps

variable (o : Options) (known : List String) (c : Context)

theorem receiverCode_relax (callee : Callee) :
    (∃ fault, receiverCode (o.strictWith known) c callee = .error fault ∧
      fault.isStrict = true) ∨
    receiverCode o.lenient c.relax callee = receiverCode (o.strictWith known) c callee := by
  cases callee with
  | own name => exact .inr rfl
  | member qualifier name =>
    have hfind : c.relax.scopes.find? qualifier.lexeme = c.scopes.find? qualifier.lexeme := rfl
    simp only [receiverCode, hfind]
    cases c.scopes.find? qualifier.lexeme with
    | some v => exact .inr rfl
    | none =>
      by_cases hmay : c.mayCall (o.strictWith known) qualifier.lexeme = true
      · refine .inr ?_
        simp only [if_pos hmay]
        rfl
      · refine .inl ⟨.unknownCallee qualifier.lexeme qualifier.span.index, ?_, rfl⟩
        simp only [if_neg hmay]

theorem perform_relax (a : Action) :
    (∃ fault, perform (o.strictWith known) c a = .error fault ∧ fault.isStrict = true) ∨
      perform o.lenient c.relax a =
        (perform (o.strictWith known) c a).map (Prod.map Context.relax id) := by
  -- Strict compilations differ in declarations and in receivers. All else is the same on both
  -- sides.
  cases a with
  | declare kind type name =>
    simp only [perform]
    rcases c.declare_relax name.lexeme type.lexeme kind with ⟨fault, hd, hstrict⟩ | hd
    · exact .inl ⟨fault, by rw [hd]; rfl, hstrict⟩
    · rw [hd]
      cases c.declare name.lexeme type.lexeme kind <;> exact .inr rfl
  | receiveObject =>
    simp only [perform]
    rcases c.declare_relax "this" c.className .argument with ⟨fault, hd, hstrict⟩ | hd
    · exact .inl ⟨fault, by rw [hd]; rfl, hstrict⟩
    · have hclass : c.relax.className = c.className := rfl
      rw [hclass, hd]
      cases c.declare "this" c.className .argument <;> exact .inr rfl
  | pushReceiver callee =>
    simp only [perform]
    rcases receiverCode_relax o known c callee with ⟨fault, hr, hstrict⟩ | hr
    · exact .inl ⟨fault, by rw [hr]; rfl, hstrict⟩
    · rw [hr]
      cases receiverCode (o.strictWith known) c callee <;> exact .inr rfl
  | resolve name | load name | store name | loadElement name | addressElement name =>
    have hresolve : c.relax.resolve name = c.resolve name := rfl
    simp only [perform, hresolve]
    cases c.resolve name <;> exact .inr rfl
  | pushInteger literal =>
    simp only [perform]
    cases integerValue? literal.lexeme <;> exact .inr rfl
  | pushText literal =>
    simp only [perform]
    cases textCode? literal <;> exact .inr rfl
  | countArguments n =>
    simp only [perform]
    cases argumentCount n <;> exact .inr rfl
  | call callee n =>
    have hcall : callCode c.relax n callee = callCode c n callee := rfl
    simp only [perform, hcall]
    cases callCode c n callee <;> exact .inr rfl
  | _ => exact .inr rfl

theorem step_relax (e : Event) :
    (∃ fault, step (o.strictWith known) c e = .error fault ∧ fault.isStrict = true) ∨
      step o.lenient c.relax e =
        (step (o.strictWith known) c e).map (Prod.map Context.relax id) := by
  cases e with
  | note n =>
    cases n with
    | act a => exact perform_relax o known c a
    | enter | leave => exact .inr rfl
  | look | take | refuse | exhausted => exact .inr rfl

end Steps

theorem perform_knownClasses (o : Options) {known known' : List String} (h : known ⊆ known')
    (c : Context) (a : Action) :
    (∃ fault, perform (o.strictWith known) c a = .error fault ∧ fault.isStrict = true) ∨
      perform (o.strictWith known') c a = perform (o.strictWith known) c a := by
  cases a with
  | pushReceiver callee =>
    cases callee with
    | own name => exact .inr rfl
    | member qualifier name =>
      simp only [perform, receiverCode]
      cases c.scopes.find? qualifier.lexeme with
      | some v => exact .inr rfl
      | none =>
        by_cases hmay : c.mayCall (o.strictWith known) qualifier.lexeme = true
        · have hmay' : c.mayCall (o.strictWith known') qualifier.lexeme = true := by
            rw [mayCall_iff] at hmay ⊢
            exact fun hstrict => (hmay hstrict).imp id fun hknown => h hknown
          refine .inr ?_
          simp only [if_pos hmay, if_pos hmay']
        · refine .inl ⟨.unknownCallee qualifier.lexeme qualifier.span.index, ?_, rfl⟩
          simp only [if_neg hmay]
          rfl
  | _ => exact .inr rfl

theorem step_knownClasses (o : Options) {known known' : List String} (h : known ⊆ known')
    (c : Context) (e : Event) :
    (∃ fault, step (o.strictWith known) c e = .error fault ∧ fault.isStrict = true) ∨
      step (o.strictWith known') c e =
        (step (o.strictWith known) c e).map (Prod.map id id) := by
  have hid : ∀ r : Except (Fault Nat) (Context × List Effect), r.map (Prod.map id id) = r := by
    intro r
    cases r <;> rfl
  rw [hid]
  cases e with
  | note n =>
    cases n with
    | act a => exact perform_knownClasses o h c a
    | enter | leave => exact .inr rfl
  | look | take | refuse | exhausted => exact .inr rfl

/-! ## Lenient runs -/

section Lenient

variable {o : Options} {c : Context}

theorem Context.declare_staysLenient (hc : c.scopes.policy = .replace) (name type : String)
    (kind : VariableKind) : StaysLenient scopes (c.declare name type kind) := by
  have hd := Scopes.declare_replace hc name type kind
  unfold declare
  cases h : (c.scopes.declare name type kind : Except (Fault Nat) _) <;> rw [h] at hd <;> exact hd

theorem perform_staysLenient (ho : o.strict = false) (hc : c.scopes.policy = .replace)
    (a : Action) : StaysLenient (fun result => result.1.scopes) (perform o c a) := by
  cases a with
  | declare kind type name =>
    have hd := Context.declare_staysLenient hc name.lexeme type.lexeme kind
    simp only [perform]
    cases h : c.declare name.lexeme type.lexeme kind <;> rw [h] at hd <;> exact hd
  | receiveObject =>
    have hd := Context.declare_staysLenient hc "this" c.className .argument
    simp only [perform]
    cases h : c.declare "this" c.className .argument <;> rw [h] at hd <;> exact hd
  | pushReceiver callee =>
    cases callee with
    | own name => exact hc
    | member qualifier name =>
      have hmay : c.mayCall o qualifier.lexeme = true := by simp [Context.mayCall, ho]
      simp only [perform, receiverCode, if_pos hmay]
      cases c.scopes.find? qualifier.lexeme <;> exact hc
  | resolve name | load name | store name | loadElement name | addressElement name =>
    simp only [perform, Context.resolve]
    cases c.scopes.find? name.lexeme with
    | none => exact rfl
    | some v => exact hc
  | pushInteger literal =>
    simp only [perform]
    cases integerValue? literal.lexeme with
    | none => exact rfl
    | some n => exact hc
  | pushText literal =>
    simp only [perform, textCode?]
    split
    · cases firstWide? literal.span.index literal.lexeme.toList with
      | none => exact hc
      | some found => exact rfl
    · exact rfl
  | countArguments n =>
    simp only [perform]
    rcases argumentCount_cases n with ⟨w, hn⟩ | hn <;> rw [hn]
    · exact hc
    · exact rfl
  | call callee n =>
    simp only [perform]
    rcases callCode_cases c n callee with ⟨name, w, hn⟩ | hn <;> rw [hn]
    · exact hc
    · exact rfl
  | _ => exact hc

theorem step_staysLenient (ho : o.strict = false) (hc : c.scopes.policy = .replace) (e : Event) :
    StaysLenient (fun result => result.1.scopes) (step o c e) := by
  cases e with
  | note n =>
    cases n with
    | act a => exact perform_staysLenient ho hc a
    | enter | leave => exact hc
  | look | take => exact hc
  | refuse | exhausted => exact rfl

theorem isStrict_fault_generateFrom (ho : o.strict = false) (done : Array Effect)
    (hc : c.scopes.policy = .replace) (es : List Event) {fault : Fault Nat}
    (h : (generateFrom o done c es).fault = some fault) : fault.isStrict = false := by
  induction es generalizing done c with
  | nil => cases h
  | cons e es ih =>
    have hstep := step_staysLenient ho hc e
    rw [generateFrom] at h
    cases hs : step o c e with
    | error fault' =>
      rw [hs] at h hstep
      cases h
      exact hstep
    | ok result =>
      rw [hs] at h hstep
      exact ih _ hstep h

end Lenient

/-! ## Compilations -/

theorem history_strictWith (o : Options) (known : List String) (source : String) :
    (∃ fault, (history (o.strictWith known) source).fault = some fault ∧
      fault.isStrict = true) ∨
    history o.lenient source = history (o.strictWith known) source :=
  generateFrom_lockstep (step_relax o known) #[] (.initial (o.strictWith known)) _

theorem history_knownClasses (o : Options) {known known' : List String} (h : known ⊆ known')
    (source : String) :
    (∃ fault, (history (o.strictWith known) source).fault = some fault ∧
      fault.isStrict = true) ∨
    history (o.strictWith known') source = history (o.strictWith known) source :=
  generateFrom_lockstep (step_knownClasses o h) #[] (.initial (o.strictWith known)) _

theorem strict_conservative {o : Options} (ho : o.strict = false) (known : List String)
    (source : String) :
    (∀ out, compile (o.strictWith known) source = .ok out → compile o source = .ok out) ∧
    (∀ fault, compile (o.strictWith known) source = .error fault → fault.isStrict = false →
      compile o source = .error fault) ∧
    (∀ fault, compile o source = .error fault → fault.isStrict = false) ∧
    ∀ known' out, known ⊆ known' → compile (o.strictWith known) source = .ok out →
      compile (o.strictWith known') source = .ok out := by
  have hlenient : (∃ fault, (history (o.strictWith known) source).fault = some fault ∧
        fault.isStrict = true) ∨
      compile o source = compile (o.strictWith known) source := by
    have h := history_strictWith o known source
    rw [Options.lenient_eq ho] at h
    exact h.imp id (compile_congr rfl)
  -- The strict run has ended in a strict fault, or has gone as the lenient one.
  refine ⟨fun out hout => ?_, fun fault hfault hother => ?_, fun fault hfault => ?_,
    fun known' out hknown hout => ?_⟩
  · rcases hlenient with ⟨f, hf, -⟩ | heq
    · rw [(compile_eq_ok_iff.mp hout).1.1] at hf
      cases hf
    · rw [heq, hout]
  · rcases hlenient with ⟨f, hf, hstrict⟩ | heq
    · obtain ⟨f', hf', rfl⟩ := compile_eq_error_iff.mp hfault
      rw [hf] at hf'
      cases hf'
      rw [Fault.isStrict_map, hstrict] at hother
      cases hother
    · rw [heq, hfault]
  · obtain ⟨f, hf, rfl⟩ := compile_eq_error_iff.mp hfault
    rw [Fault.isStrict_map]
    have hpolicy : (Context.initial o).scopes.policy = .replace := by
      show o.duplicates = .replace
      simp [Options.duplicates, ho]
    exact isStrict_fault_generateFrom ho #[] hpolicy _ hf
  · rcases history_knownClasses o hknown source with ⟨f, hf, -⟩ | heq
    · rw [(compile_eq_ok_iff.mp hout).1.1] at hf
      cases hf
    · rw [← hout]
      exact compile_congr rfl heq

theorem strict_conservative_loopSource :
    ({} : Options).strict = false ∧
      ∃ out, compile (({} : Options).strictWith []) loopSource = .ok out ∧
        compile {} loopSource = .ok out := by
  obtain ⟨out, hout⟩ : ∃ out, compile (({} : Options).strictWith []) loopSource = .ok out := by
    rw [exists_compile_iff]
    decide +kernel
  exact ⟨rfl, out, hout, (strict_conservative rfl [] loopSource).1 out hout⟩

end JackCompiler
