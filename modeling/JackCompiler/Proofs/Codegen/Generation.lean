import JackCompiler.Proofs.Codegen.Actions
import JackCompiler.Proofs.Codegen.Static

/-!
# Trees are compiled to their code

The actions of a tree can be carried out just if its static conditions hold, and then
they emit the code of the tree.
-/

namespace JackCompiler

/-! ## Knowledge -/

def Context.names (c : Context) : Names :=
  ⟨c.className, c.scopes.find?⟩

def Context.labelScope (c : Context) (o : Options) : String :=
  if o.qualifyLabels then c.subroutine ++ "$" else ""

theorem Context.label_eq (c : Context) (o : Options) (role : LabelRole) :
    c.label o role = labelText (c.labelScope o) role c.number := by
  unfold Context.label labelText Context.labelScope
  split
  · rw [String.append_assoc]
  · rw [String.empty_append]

/-! ## What becomes of actions -/

/-- What does not hold if the fault is met: `R` if too many arguments are counted, else `P`. -/
def Fault.Denies (P R : Prop) : Fault Nat → Prop
  | .overflow => ¬ R
  | _ => ¬ P

theorem Fault.Denies.imp {P R P' R' : Prop} {fault : Fault Nat} (h : fault.Denies P R)
    (hP : P' → P) (hR : R' → R) : fault.Denies P' R' := by
  cases fault with
  | overflow => exact mt hR h
  | _ => exact mt hP h

/-- The actions can be carried out just if `P` and `R` hold. They then emit the code and lead to
knowledge of which `Q` holds. -/
def Performs (o : Options) (c : Context) (as : List Action) (P R : Prop) (Q : Context → Prop)
    (code : List Instruction) : Prop :=
  ((P ∧ R) ∧ ∃ d, performAll o c as = .ok (d, code) ∧ Q d) ∨
    ∃ fault, performAll o c as = .error fault ∧ fault.Denies P R

theorem performAll_singleton_iff {o : Options} {c d : Context} {a : Action}
    {p : List Instruction} :
    performAll o c [a] = .ok (d, p) ↔
      ∃ effects, perform o c a = .ok (d, effects) ∧ effects.filterMap Effect.instruction? = p := by
  rw [performAll_cons_iff]
  refine ⟨fun h => ?_, fun h => ?_⟩
  · obtain ⟨_, effects, _, ha, hnil, rfl⟩ := h
    obtain ⟨rfl, rfl⟩ := performAll_nil_iff.mp hnil
    exact ⟨effects, ha, (List.append_nil _).symm⟩
  · obtain ⟨effects, ha, rfl⟩ := h
    exact ⟨d, effects, [], ha, rfl, (List.append_nil _).symm⟩

theorem performAll_singleton_error {o : Options} {c : Context} {a : Action} {fault : Fault Nat}
    (h : perform o c a = .error fault) : performAll o c [a] = .error fault :=
  performAll_cons_error_iff.mpr (.inl h)

namespace Performs

variable {o : Options} {c : Context} {as bs : List Action} {P R P' R' : Prop}
  {Q S : Context → Prop} {p q : List Instruction}

theorem iff_and_eq (h : Performs o c as P R Q p) :
    (∃ d, performAll o c as = .ok (d, q)) ↔ (P ∧ R) ∧ q = p := by
  rcases h with ⟨hP, d, hd, -⟩ | ⟨fault, hfault, hdenies⟩
  · refine ⟨fun hq => ?_, fun hq => ⟨d, by rw [hd, hq.2]⟩⟩
    obtain ⟨e, he⟩ := hq
    rw [hd] at he
    exact ⟨hP, (Prod.mk.inj (Except.ok.inj he)).2.symm⟩
  · refine iff_of_false (fun hq => ?_) fun hq => ?_
    · obtain ⟨d, hd⟩ := hq
      rw [hfault] at hd
      cases hd
    · cases fault with
      | overflow => exact hdenies hq.1.2
      | _ => exact hdenies hq.1.1

theorem exists_ok (h : Performs o c as P R Q p) (hP : P) (hR : R) :
    ∃ d, performAll o c as = .ok (d, p) ∧ Q d := by
  rcases h with ⟨-, h⟩ | ⟨fault, -, hdenies⟩
  · exact h
  · cases fault with
    | overflow => exact absurd hR hdenies
    | _ => exact absurd hP hdenies

theorem denies (h : Performs o c as P R Q p) {fault : Fault Nat}
    (hfault : performAll o c as = .error fault) : fault.Denies P R := by
  rcases h with ⟨-, d, hd, -⟩ | ⟨fault', hfault', hdenies⟩
  · rw [hd] at hfault
    cases hfault
  · obtain rfl := Except.error.inj (hfault'.symm.trans hfault)
    exact hdenies

theorem append (ha : Performs o c as P R Q p)
    (hb : ∀ d, P → R → Q d → Performs o d bs P' R' S q) :
    Performs o c (as ++ bs) (P ∧ P') (R ∧ R') S (p ++ q) := by
  rcases ha with ⟨⟨hP, hR⟩, d, hd, hQ⟩ | ⟨fault, hfault, hdenies⟩
  · rcases hb d hP hR hQ with ⟨⟨hP', hR'⟩, e, he, hS⟩ | ⟨fault, hfault, hdenies⟩
    · exact .inl ⟨⟨⟨hP, hP'⟩, hR, hR'⟩, e, performAll_append_iff.mpr ⟨d, p, q, hd, he, rfl⟩, hS⟩
    · exact .inr ⟨fault, performAll_append_error_iff.mpr (.inr ⟨d, p, hd, hfault⟩),
        hdenies.imp And.right And.right⟩
  · exact .inr ⟨fault, performAll_append_error_iff.mpr (.inl hfault),
      hdenies.imp And.left And.left⟩

theorem mono (h : Performs o c as P R Q p) (hP : P ↔ P') (hR : R ↔ R')
    (hQ : ∀ d, P → Q d → S d) : Performs o c as P' R' S p := by
  rcases h with ⟨⟨hp, hr⟩, d, hd, hq⟩ | ⟨fault, hfault, hdenies⟩
  · exact .inl ⟨⟨hP.mp hp, hR.mp hr⟩, d, hd, hQ d hp hq⟩
  · exact .inr ⟨fault, hfault, hdenies.imp hP.mpr hR.mpr⟩

theorem nil (hQ : Q c) : Performs o c [] True True Q [] :=
  .inl ⟨⟨trivial, trivial⟩, c, rfl, hQ⟩

theorem cons {a : Action} {d : Context} {effects : List Effect}
    (ha : perform o c a = .ok (d, effects)) (hb : Performs o d bs P R Q q) :
    Performs o c (a :: bs) P R Q (effects.filterMap Effect.instruction? ++ q) := by
  rcases hb with ⟨hP, e, he, hQ⟩ | ⟨fault, hfault, hdenies⟩
  · exact .inl ⟨hP, e, performAll_cons_iff.mpr ⟨d, effects, q, ha, he, rfl⟩, hQ⟩
  · exact .inr ⟨fault, performAll_cons_error_iff.mpr (.inr ⟨d, effects, ha, hfault⟩), hdenies⟩

theorem silent {a : Action} {d : Context} (ha : perform o c a = .ok (d, []))
    (hb : Performs o d bs P R Q q) : Performs o c (a :: bs) P R Q q :=
  cons ha hb

end Performs

/-- The actions can be carried out just if the tokens are used as they may be and `R` holds. They
then lead to the knowledge `d`, in which names mean what they did. -/
structure Yields (o : Options) (c : Context) (as : List Action) (uses : List Use) (R : Prop)
    (code : List Instruction) (d : Context) : Prop where
  names : d.names = c.names
  performs : Performs o c as (∀ use ∈ uses, use.Allowed o c.names) R (· = d) code

namespace Yields

variable {o : Options} {c d : Context} {R R' : Prop}

theorem performed {as : List Action} {us : List Use} {p : List Instruction}
    (h : Yields o c as us R p d) (hus : ∀ use ∈ us, use.Allowed o c.names) (hR : R) :
    performAll o c as = .ok (d, p) := by
  obtain ⟨e, he, rfl⟩ := h.performs.exists_ok hus hR
  exact he

theorem context_eq {as : List Action} {us : List Use} {p q : List Instruction} {e : Context}
    (h : Yields o c as us R p d) (he : performAll o c as = .ok (e, q)) : e = d := by
  rcases h.performs with ⟨-, d', hd, rfl⟩ | ⟨fault, hfault, -⟩
  · exact (Prod.mk.inj (Except.ok.inj (he.symm.trans hd))).1
  · rw [hfault] at he
    cases he

theorem nil (o : Options) (c : Context) : Yields o c [] [] True [] c :=
  ⟨rfl, .inl ⟨⟨by simp, trivial⟩, c, rfl, rfl⟩⟩

theorem append {e : Context} {as bs : List Action} {us vs : List Use} {p q : List Instruction}
    (ha : Yields o c as us R p d) (hb : Yields o d bs vs R' q e) :
    Yields o c (as ++ bs) (us ++ vs) (R ∧ R') (p ++ q) e := by
  refine ⟨hb.names.trans ha.names, ?_⟩
  have h := ha.performs.append fun d' _ _ hd' => by
    rw [hd']
    exact hb.performs
  rw [ha.names] at h
  exact h.mono List.forall_mem_append.symm Iff.rfl fun _ _ h => h

theorem imp {as : List Action} {us : List Use} {p : List Instruction}
    (h : Yields o c as us R p d) (vs : List Use) (huses : ∀ use, use ∈ us ↔ use ∈ vs)
    (hR : R ↔ R') : Yields o c as vs R' p d := by
  refine ⟨h.names, h.performs.mono ?_ hR fun _ _ h => h⟩
  simp only [huses]

theorem of_no_calls {as : List Action} {us : List Use} {p : List Instruction} {names : Names}
    (h : Yields o c as us True p d) : Yields o c as us (AllCountable names []) p d :=
  h.imp us (fun _ => Iff.rfl) (iff_of_true trivial (allCountable_nil names))

theorem filterMap_emit (code : List Instruction) :
    (code.map Effect.emit).filterMap Effect.instruction? = code := by
  rw [List.filterMap_map]
  exact List.filterMap_some

theorem emit {a : Action} {code : List Instruction} (hd : d.names = c.names)
    (h : perform o c a = .ok (d, code.map .emit)) : Yields o c [a] [] True code d := by
  refine ⟨hd, .inl ⟨⟨by simp, trivial⟩, d, ?_, rfl⟩⟩
  exact performAll_singleton_iff.mpr ⟨_, h, filterMap_emit code⟩

theorem check {a : Action} {use : Use} {code : List Instruction}
    (hok : use.Allowed o c.names → perform o c a = .ok (c, code.map .emit))
    (hfault : ¬ use.Allowed o c.names →
      ∃ fault, perform o c a = .error fault ∧ fault ≠ .overflow) :
    Yields o c [a] [use] True code c := by
  refine ⟨rfl, ?_⟩
  by_cases hu : use.Allowed o c.names
  · exact (emit rfl (hok hu)).performs.mono (by simp [hu]) Iff.rfl fun _ _ h => h
  · obtain ⟨fault, hf, hne⟩ := hfault hu
    refine .inr ⟨fault, performAll_singleton_error hf, ?_⟩
    cases fault with
    | overflow => exact absurd rfl hne
    | _ => exact fun h => hu (List.forall_mem_singleton.mp h)

theorem count {a : Action} {code : List Instruction}
    (hok : R → perform o c a = .ok (c, code.map .emit))
    (hfault : ¬ R → perform o c a = .error .overflow) : Yields o c [a] [] R code c := by
  refine ⟨rfl, ?_⟩
  by_cases hR : R
  · exact (emit rfl (hok hR)).performs.mono Iff.rfl (by simp [hR]) fun _ _ h => h
  · exact .inr ⟨.overflow, performAll_singleton_error (hfault hR), hR⟩

end Yields

/-! ## Single actions -/

section Single

variable (o : Options) (c : Context)

theorem yields_resolved {a : Action} (name : Token) (code : Variable → List Instruction)
    (ha : perform o c a = (do let v ← c.resolve name; return (c, (code v).map .emit))) :
    Yields o c [a] [.storage name] True (c.names.access name code) c := by
  have hfind : c.names.find? name.lexeme = c.scopes.find? name.lexeme := rfl
  refine .check (fun hu => ?_) (fun hu => ?_)
  · obtain ⟨v, hv⟩ := Option.isSome_iff_exists.mp hu
    rw [Names.access, hv, ha, Context.resolve, ← hfind, hv]
    rfl
  · have hv : c.names.find? name.lexeme = none := by
      simpa [Use.Allowed] using hu
    refine ⟨.undefined name.lexeme name.span.index, ?_, by simp⟩
    rw [ha, Context.resolve, ← hfind, hv]
    rfl

theorem yields_resolve (name : Token) :
    Yields o c [.resolve name] [.storage name] True [] c := by
  have h := yields_resolved o c (a := .resolve name) name (fun _ => []) rfl
  have hcode : c.names.access name (fun _ => []) = [] := by
    rw [Names.access]
    split <;> rfl
  rwa [hcode] at h

theorem yields_pushInteger (literal : Token) :
    Yields o c [.pushInteger literal] [.integer literal] True
      [pushConstant (UInt16.ofNat (digitsValue literal.lexeme.toList))] c := by
  refine .check (fun hu => ?_) (fun hu => ?_)
  · have hv : integerValue? literal.lexeme =
        some (UInt16.ofNat (digitsValue literal.lexeme.toList)) := if_pos hu
    simp only [perform, hv]
    rfl
  · have hv : integerValue? literal.lexeme = none := if_neg hu
    exact ⟨.integerOutOfRange literal.lexeme literal.span.index, by simp only [perform, hv],
      by simp⟩

theorem firstWide?_eq_none_iff {offset : Nat} {text : List Char} :
    firstWide? offset text = none ↔ ∀ ch ∈ text, ch.toNat ≤ 32767 := by
  induction text generalizing offset with
  | nil => simp [firstWide?]
  | cons ch text ih =>
    rw [firstWide?, List.forall_mem_cons, ← ih]
    by_cases h : ch.toNat ≤ maxConstant
    · rw [if_pos h]
      exact (and_iff_right h).symm
    · rw [if_neg h]
      exact iff_of_false (by simp) fun hn => h hn.1

theorem yields_pushText (literal : Token) :
    Yields o c [.pushText literal] [.text literal] True (textCode literal.lexeme.toList) c := by
  refine .check (fun hu => ?_) (fun hu => ?_)
  · have hcode : textCode? literal = .ok (textCode literal.lexeme.toList) := by
      rw [textCode?]
      refine (if_pos hu.1).trans ?_
      rw [firstWide?_eq_none_iff.mpr hu.2]
    simp only [perform, hcode]
    rfl
  · have hcode : ∃ fault, textCode? literal = .error fault ∧ fault ≠ .overflow := by
      simp only [textCode?]
      split
      · rename_i hlength
        cases hw : firstWide? literal.span.index literal.lexeme.toList with
        | none => exact absurd ⟨hlength, firstWide?_eq_none_iff.mp hw⟩ hu
        | some found => exact ⟨_, rfl, by simp⟩
      · exact ⟨_, rfl, by simp⟩
    obtain ⟨fault, hfault, hne⟩ := hcode
    exact ⟨fault, by simp only [perform, hfault]; rfl, hne⟩

theorem mayCall_iff (name : String) :
    c.mayCall o name = true ↔ (o.strict = true → name = c.className ∨ name ∈ o.knownClasses) := by
  cases h : o.strict <;> simp [Context.mayCall, h]

theorem yields_pushReceiver (target : CallName) :
    Yields o c [.pushReceiver target.callee] target.uses True (c.names.receiver target) c := by
  cases target with
  | own name => exact .emit rfl rfl
  | member qualifier name =>
    have hfind : c.names.find? qualifier.token.lexeme =
        c.scopes.find? qualifier.token.lexeme := rfl
    cases hv : c.scopes.find? qualifier.token.lexeme with
    | some v =>
      refine .check (fun _ => ?_) (fun hu => absurd (.inl ?_) hu)
      · simp only [perform, CallName.callee, receiverCode, hv, Names.receiver, Names.access, hfind]
        rfl
      · rw [hfind, hv]
        rfl
    | none =>
      -- The qualifier is no variable's, so that the use is allowed just if the class may be called.
      have hmay : Use.Allowed o c.names (.qualifier qualifier.token) ↔
          c.mayCall o qualifier.token.lexeme = true := by
        rw [mayCall_iff, Use.Allowed, hfind, hv]
        exact or_iff_right (by simp)
      refine .check (fun hu => ?_) (fun hu => ?_)
      · simp only [perform, CallName.callee, receiverCode, hv, if_pos (hmay.mp hu),
          Names.receiver, Names.access, hfind]
        rfl
      · rw [hmay] at hu
        refine ⟨.unknownCallee qualifier.token.lexeme qualifier.token.span.index, ?_, by simp⟩
        simp only [perform, CallName.callee, receiverCode, hv, if_neg hu]
        rfl

theorem yields_countArguments (n : Nat) :
    Yields o c [.countArguments n] [] (n ≤ 65535) [] c := by
  refine .count (fun hn => ?_) fun hn => ?_
  · rw [perform, argumentCount, dif_pos (Nat.lt_succ_of_le hn)]
    rfl
  · rw [perform, argumentCount, dif_neg fun h => hn (Nat.le_of_lt_succ h)]
    rfl

theorem callCode_eq (target : CallName) (count : Nat) :
    callCode c count target.callee = (argumentCount (count + c.names.receivers target)).map
      (.call (c.names.calleeName target)) := by
  cases target with
  | own name => rfl
  | member qualifier name =>
    have hfind : c.names.find? qualifier.token.lexeme =
        c.scopes.find? qualifier.token.lexeme := rfl
    cases hv : c.scopes.find? qualifier.token.lexeme <;>
      simp [callCode, CallName.callee, Names.calleeName, Names.receivers, hfind, hv]

theorem yields_call (target : CallName) (count : Nat) :
    Yields o c [.call target.callee count] [] (CallSite.Countable c.names ⟨target, count⟩)
      (c.names.call target count) c := by
  refine .count (fun hn => ?_) fun hn => ?_
  · have hlt := Nat.lt_succ_of_le hn
    rw [perform, callCode_eq, argumentCount, dif_pos hlt, Names.call, dif_pos hlt]
    rfl
  · rw [perform, callCode_eq, argumentCount, dif_neg fun h => hn (Nat.le_of_lt_succ h)]
    rfl

end Single

/-! ## Actions of scripts -/

namespace Script

@[simp] theorem actions_nil : actions [] = [] := rfl

@[simp] theorem actions_append (p q : Script) : actions (p ++ q) = p.actions ++ q.actions :=
  List.filterMap_append

@[simp] theorem actions_act (a : Action) (p : Script) :
    actions (.act a :: p) = a :: p.actions := rfl

@[simp] theorem actions_enter (r : Rule) (p : Script) : actions (.enter r :: p) = p.actions := rfl

@[simp] theorem actions_leave (r : Rule) (p : Script) : actions (.leave r :: p) = p.actions := rfl

@[simp] theorem actions_mark (m : Mark) (p : Script) : actions (.mark m :: p) = p.actions := rfl

@[simp] theorem actions_keyword (k : Keyword) (p : Script) :
    actions (.keyword k :: p) = p.actions := rfl

@[simp] theorem actions_token (t : Token) (p : Script) :
    actions (.token t :: p) = p.actions := rfl

@[simp] theorem actions_nameScript (target : CallName) : actions target.nameScript = [] := by
  cases target <;> rfl

end Script

/-! ## Expressions -/

theorem CallName.yields {o : Options} {c : Context} (target : CallName) {arguments : Script}
    (count : Nat) {us : List Use} {calls : List CallSite} {p : List Instruction}
    (h : Yields o c arguments.actions us (AllCountable c.names calls ∧ count ≤ 65535) p c) :
    Yields o c (target.script arguments count).actions (target.uses ++ us)
      (AllCountable c.names (⟨target, count⟩ :: calls))
      (c.names.receiver target ++ p ++ c.names.call target count) c := by
  have hcalls : AllCountable c.names (⟨target, count⟩ :: calls) ↔
      (True ∧ AllCountable c.names calls ∧ count ≤ 65535) ∧
        CallSite.Countable c.names ⟨target, count⟩ := by
    rw [allCountable_cons, true_and]
    refine ⟨fun h => ⟨⟨h.2, ?_⟩, h.1⟩, fun h => ⟨h.2, h.1.1⟩⟩
    exact Nat.le_trans (Nat.le_add_right _ _) h.1
  have h := ((yields_pushReceiver o c target).append h).append (yields_call o c target count)
  rw [hcalls]
  simpa [CallName.script, callEndScript] using h

mutual

theorem Term.yields (o : Options) (c : Context) : ∀ e : Term,
    Yields o c e.script.actions e.uses (AllCountable c.names e.calls) (e.code c.names) c
  | .integer literal => (yields_pushInteger o c literal.token).of_no_calls
  | .text literal => (yields_pushText o c literal.token).of_no_calls
  | .word word => (Yields.emit rfl rfl).of_no_calls
  | .unary op operand => by
    have hop : Yields o c [.unary op] [] True (unaryCode op) c := .emit rfl rfl
    have h := (operand.yields o c).append hop
    simpa [Term.script, Term.uses, Term.calls, Term.code] using h
  | .group inner => by
    have h := inner.yields o c
    simpa [Term.script, Term.uses, Term.calls, Term.code] using h
  | .var name => (yields_resolved o c name.token (fun v => [loadCode v]) rfl).of_no_calls
  | .element array index => by
    have hload : Yields o c [.loadElement array.token] [.storage array.token] True
        (c.names.access array.token loadElementCode) c :=
      yields_resolved o c array.token loadElementCode rfl
    have h := (yields_resolve o c array.token).append ((index.yields o c).append hload)
    simpa [Term.script, Term.uses, Term.calls, Term.code] using
      h.imp (.storage array.token :: index.uses) (fun use => by grind) Iff.rfl
  | .call target arguments => by
    have h := target.yields arguments.length (arguments.yields o c)
    simpa [Term.script, Term.uses, Term.calls, Term.code] using h

theorem Expression.yields (o : Options) (c : Context) : ∀ e : Expression,
    Yields o c e.script.actions e.uses (AllCountable c.names e.calls) (e.code c.names) c
  | .mk first rest => by
    have h := (first.yields o c).append (rest.yields o c)
    simpa [Expression.script, Expression.uses, Expression.calls, Expression.code] using h

theorem Operations.yields (o : Options) (c : Context) : ∀ e : Operations,
    Yields o c e.script.actions e.uses (AllCountable c.names e.calls) (e.code c.names) c
  | .nil => (Yields.nil o c).of_no_calls
  | .cons op operand rest => by
    have hop : Yields o c [.binary op] [] True (binaryCode op) c := .emit rfl rfl
    have h := ((operand.yields o c).append hop).append (rest.yields o c)
    simpa [Operations.script, Operations.uses, Operations.calls, Operations.code] using h

theorem Arguments.yields (o : Options) (c : Context) : ∀ e : Arguments,
    Yields o c e.script.actions e.uses (AllCountable c.names e.calls ∧ e.length ≤ 65535)
      (e.code c.names) c
  | .nil => (Yields.nil o c).imp [] (fun _ => Iff.rfl) (by simp [Arguments.calls, Arguments.length])
  | .cons first rest => by
    have h := (first.yields o c).append (rest.yieldsMore o c 1)
    simpa [Arguments.script, Arguments.uses, Arguments.calls, Arguments.length, Arguments.code,
      and_assoc, Nat.add_comm] using h

theorem Arguments.yieldsMore (o : Options) (c : Context) : ∀ (e : Arguments) (count : Nat),
    Yields o c (.countArguments count :: (e.moreScript count).actions) e.uses
      (AllCountable c.names e.calls ∧ count + e.length ≤ 65535) (e.code c.names) c
  | .nil, count =>
    (yields_countArguments o c count).imp [] (fun _ => Iff.rfl)
      (by simp [Arguments.calls, Arguments.length])
  | .cons first rest, count => by
    have h := (yields_countArguments o c count).append
      ((first.yields o c).append (rest.yieldsMore o c (count + 1)))
    have hcount : (count ≤ 65535 ∧ AllCountable c.names first.calls ∧
          AllCountable c.names rest.calls ∧ count + 1 + rest.length ≤ 65535) ↔
        (AllCountable c.names first.calls ∧ AllCountable c.names rest.calls) ∧
          count + (rest.length + 1) ≤ 65535 := by
      refine ⟨fun h => ⟨⟨h.2.1, h.2.2.1⟩, ?_⟩, fun h => ⟨?_, h.1.1, h.1.2, ?_⟩⟩ <;> omega
    simpa [Arguments.moreScript, Arguments.uses, Arguments.calls, Arguments.length,
      Arguments.code, hcount] using h

end

/-! ## Statements -/

theorem Target.yields (o : Options) (c : Context) (target : Target) :
    Yields o c target.script.actions target.uses (AllCountable c.names target.calls)
      (target.code c.names) c := by
  cases target with
  | var name => exact (yields_resolve o c name.token).of_no_calls
  | element array index =>
    have haddress : Yields o c [.addressElement array.token] [.storage array.token] True
        (c.names.access array.token addressCode) c :=
      yields_resolved o c array.token addressCode rfl
    have h := (yields_resolve o c array.token).append ((index.yields o c).append haddress)
    simpa [Target.script, Target.uses, Target.calls, Target.code] using
      h.imp (.storage array.token :: index.uses) (fun use => by grind) Iff.rfl

theorem Target.yields_stored (o : Options) (c : Context) (target : Target) :
    ∃ us, (∀ use ∈ us, use ∈ target.uses) ∧
      Yields o c [target.stored] us True (target.storeCode c.names) c := by
  cases target with
  | var name =>
    refine ⟨[.storage name.token], fun use hu => hu, ?_⟩
    exact yields_resolved o c name.token (fun v => [JackCompiler.storeCode v]) rfl
  | element array index => exact ⟨[], by simp, .emit rfl rfl⟩

theorem assignment_yields (o : Options) (c : Context) (target : Target) (value : Expression) :
    Yields o c (assignmentScript target value).actions (target.uses ++ value.uses)
      (AllCountable c.names target.calls ∧ AllCountable c.names value.calls)
      (target.code c.names ++ value.code c.names ++ target.storeCode c.names) c := by
  obtain ⟨us, hus, hstored⟩ := target.yields_stored o c
  have h := ((target.yields o c).append (value.yields o c)).append hstored
  simpa [assignmentScript] using
    h.imp (target.uses ++ value.uses) (fun use => by grind) Iff.rfl

theorem result_yields (o : Options) (c : Context) (value : Option Expression) :
    Yields o c (resultScript value).actions (resultUses value)
      (AllCountable c.names (resultCalls value)) (resultCode c.names value) c := by
  cases value with
  | some value => exact value.yields o c
  | none => exact (Yields.emit rfl rfl).of_no_calls

theorem guarded_yields {o : Options} {c d : Context} (condition : Expression) {tested : Action}
    {block : Script} {us : List Use} {R : Prop} {p q : List Instruction}
    (htested : Yields o c [tested] [] True q c) (hblock : Yields o c block.actions us R p d) :
    Yields o c (guardedScript condition tested block).actions (condition.uses ++ us)
      (AllCountable c.names condition.calls ∧ R) (condition.code c.names ++ q ++ p) d := by
  have h := ((condition.yields o c).append htested).append hblock
  simpa [guardedScript, bracedScript] using h

namespace Context

def after (c : Context) (b : Block) : Context :=
  { c with ifs := c.ifs + b.ifs, whiles := c.whiles + b.whiles }

def enterIf (c : Context) : Context :=
  { c with ifs := c.ifs + 1, nesting := c.ifs :: c.nesting }

def enterWhile (c : Context) : Context :=
  { c with whiles := c.whiles + 1, nesting := c.whiles :: c.nesting }

def leave (c : Context) : Context :=
  { c with nesting := c.nesting.tail }

@[simp] theorem after_names (c : Context) (b : Block) : (c.after b).names = c.names := rfl

@[simp] theorem enterIf_names (c : Context) : c.enterIf.names = c.names := rfl

@[simp] theorem enterWhile_names (c : Context) : c.enterWhile.names = c.names := rfl

@[simp] theorem leave_names (c : Context) : c.leave.names = c.names := rfl

@[simp] theorem after_labelScope (c : Context) (b : Block) (o : Options) :
    (c.after b).labelScope o = c.labelScope o := rfl

@[simp] theorem enterIf_labelScope (c : Context) (o : Options) :
    c.enterIf.labelScope o = c.labelScope o := rfl

@[simp] theorem enterWhile_labelScope (c : Context) (o : Options) :
    c.enterWhile.labelScope o = c.labelScope o := rfl

@[simp] theorem leave_labelScope (c : Context) (o : Options) :
    c.leave.labelScope o = c.labelScope o := rfl

@[simp] theorem after_number (c : Context) (b : Block) : (c.after b).number = c.number := rfl

@[simp] theorem enterIf_number (c : Context) : c.enterIf.number = c.ifs := rfl

@[simp] theorem enterWhile_number (c : Context) : c.enterWhile.number = c.whiles := rfl

@[simp] theorem after_ifs (c : Context) (b : Block) : (c.after b).ifs = c.ifs + b.ifs := rfl

@[simp] theorem enterIf_ifs (c : Context) : c.enterIf.ifs = c.ifs + 1 := rfl

@[simp] theorem enterWhile_ifs (c : Context) : c.enterWhile.ifs = c.ifs := rfl

@[simp] theorem leave_ifs (c : Context) : c.leave.ifs = c.ifs := rfl

@[simp] theorem after_whiles (c : Context) (b : Block) :
    (c.after b).whiles = c.whiles + b.whiles := rfl

@[simp] theorem enterIf_whiles (c : Context) : c.enterIf.whiles = c.whiles := rfl

@[simp] theorem enterWhile_whiles (c : Context) : c.enterWhile.whiles = c.whiles + 1 := rfl

@[simp] theorem leave_whiles (c : Context) : c.leave.whiles = c.whiles := rfl

end Context

section Jumps

variable (o : Options) (c : Context)

theorem yields_branchIf :
    Yields o c [.branchIf] [] True
      [.ifGoto (labelText (c.labelScope o) .ifTrue c.number),
        .goto (labelText (c.labelScope o) .ifFalse c.number),
        .label (labelText (c.labelScope o) .ifTrue c.number)] c :=
  .emit rfl (by simp only [perform, Context.label_eq]; rfl)

theorem yields_elseIf :
    Yields o c [.elseIf] [] True
      [.goto (labelText (c.labelScope o) .ifEnd c.number),
        .label (labelText (c.labelScope o) .ifFalse c.number)] c :=
  .emit rfl (by simp only [perform, Context.label_eq]; rfl)

theorem yields_endIf :
    Yields o c [.endIf] [] True [.label (labelText (c.labelScope o) .ifFalse c.number)] c.leave :=
  .emit rfl (by simp only [perform, Context.label_eq]; rfl)

theorem yields_endElse :
    Yields o c [.endElse] [] True [.label (labelText (c.labelScope o) .ifEnd c.number)] c.leave :=
  .emit rfl (by simp only [perform, Context.label_eq]; rfl)

theorem yields_startWhile :
    Yields o c [.startWhile] [] True [.label (labelText (c.labelScope o) .whileExp c.whiles)]
      c.enterWhile :=
  .emit rfl (by simp only [perform, Context.label_eq]; rfl)

theorem yields_testWhile :
    Yields o c [.testWhile] [] True
      [.operate .not, .ifGoto (labelText (c.labelScope o) .whileEnd c.number)] c :=
  .emit rfl (by simp only [perform, Context.label_eq]; rfl)

theorem yields_endWhile :
    Yields o c [.endWhile] [] True
      [.goto (labelText (c.labelScope o) .whileExp c.number),
        .label (labelText (c.labelScope o) .whileEnd c.number)] c.leave :=
  .emit rfl (by simp only [perform, Context.label_eq]; rfl)

end Jumps

/-- A block numbers its conditionals and loops on from those before it. -/
theorem Block.yields (o : Options) (b : Block) (c : Context) :
    Yields o c b.script.actions b.uses (AllCountable c.names b.calls)
      (b.code c.names (c.labelScope o) c.ifs c.whiles) (c.after b) := by
  induction b generalizing c with
  | empty => exact (Yields.nil o c).of_no_calls
  | let_ target value next ih =>
    have h := (assignment_yields o c target value).append (ih c)
    show Yields o c _ _ _ _ (c.after next)
    simpa [Block.script, Block.uses, Block.calls, Block.code, and_assoc] using h
  | if_ condition yes next ihyes ih =>
    have hstart : Yields o c [.startIf] [] True [] c.enterIf := .emit rfl rfl
    have hguarded := guarded_yields condition (yields_branchIf o c.enterIf) (ihyes c.enterIf)
    have h := ((hstart.append hguarded).append
      (yields_endIf o (c.enterIf.after yes))).append (ih (c.enterIf.after yes).leave)
    -- The counts go on from what the branch has used up.
    have hafter : c.after (.if_ condition yes next) = (c.enterIf.after yes).leave.after next := by
      simp [Context.after, Context.enterIf, Context.leave, Block.ifs, Block.whiles]
      omega
    rw [hafter]
    simpa [Block.script, Block.uses, Block.calls, Block.code, and_assoc] using h
  | ifElse condition yes no next ihyes ihno ih =>
    have hstart : Yields o c [.startIf] [] True [] c.enterIf := .emit rfl rfl
    have hguarded := guarded_yields condition (yields_branchIf o c.enterIf) (ihyes c.enterIf)
    have helse := ((hguarded.append (yields_elseIf o (c.enterIf.after yes))).append
      (ihno (c.enterIf.after yes))).append (yields_endElse o ((c.enterIf.after yes).after no))
    have h := (hstart.append helse).append (ih ((c.enterIf.after yes).after no).leave)
    have hafter : c.after (.ifElse condition yes no next) =
        ((c.enterIf.after yes).after no).leave.after next := by
      simp [Context.after, Context.enterIf, Context.leave, Block.ifs, Block.whiles]
      omega
    rw [hafter]
    simpa [Block.script, Block.uses, Block.calls, Block.code, and_assoc, bracedScript] using h
  | while_ condition body next ihbody ih =>
    have hguarded := guarded_yields condition (yields_testWhile o c.enterWhile)
      (ihbody c.enterWhile)
    have h := (((yields_startWhile o c).append hguarded).append
      (yields_endWhile o (c.enterWhile.after body))).append (ih (c.enterWhile.after body).leave)
    have hafter : c.after (.while_ condition body next) =
        (c.enterWhile.after body).leave.after next := by
      simp [Context.after, Context.enterWhile, Context.leave, Block.ifs, Block.whiles]
      omega
    rw [hafter]
    simpa [Block.script, Block.uses, Block.calls, Block.code, and_assoc] using h
  | do_ target arguments next ih =>
    have hdiscard : Yields o c [.discard] [] True [.pop .temp 0] c := .emit rfl rfl
    have hcall := target.yields arguments.length (arguments.yields o c)
    have h := (hcall.append hdiscard).append (ih c)
    show Yields o c _ _ _ _ (c.after next)
    simpa [Block.script, Block.uses, Block.calls, Block.code, and_assoc] using h
  | return_ value next ih =>
    have hleave : Yields o c [.leaveSubroutine] [] True [.return] c := .emit rfl rfl
    have h := ((result_yields o c value).append hleave).append (ih c)
    show Yields o c _ _ _ _ (c.after next)
    simpa [Block.script, Block.uses, Block.calls, Block.code, and_assoc] using h

end JackCompiler
