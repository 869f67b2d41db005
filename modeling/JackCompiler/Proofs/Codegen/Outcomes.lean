import JackCompiler.Proofs.Codegen.Classes
import JackCompiler.Proofs.Syntax.Retexting
import JackCompiler.Proofs.Token.Lines

/-!
# Faults of actions

The actions of a class that is read without a fault end in the fault of the compilation,
if any does. Where the fault is depends on where the tokens are and on nothing else
(`performAll_move`).
-/

namespace JackCompiler

/-! ## The first action that cannot be carried out -/

theorem generateFrom_error_iff {o : Options} {c : Context} {es : List Event} {fault : Fault Nat}
    (hes : ∀ e ∈ es, e.isFault = false) :
    (generateFrom o #[] c es).fault = some fault ↔
      performAll o c (es.filterMap Event.action?) = .error fault := by
  induction es generalizing c with
  | nil => simp [generateFrom, performAll]
  | cons e es ih =>
    obtain ⟨hf, hrest⟩ := List.forall_mem_cons.mp hes
    rw [generateFrom]
    cases ha : e.action? with
    | none =>
      obtain ⟨effects, hs, -⟩ := step_of_no_action o c ha hf
      simp only [hs]
      rw [fault_generateFrom, List.filterMap_cons_none ha, ih hrest]
    | some a =>
      rw [step_of_action o c ha, List.filterMap_cons_some ha, performAll_cons_error_iff]
      cases hp : perform o c a with
      | error fault' => simp
      | ok result =>
        obtain ⟨d, effects⟩ := result
        simp only
        rw [fault_generateFrom, ih hrest]
        simp

theorem ClassDec.Heads.fault_iff {tree : ClassDec} {o : Options} {source : String}
    {fault : Fault Nat} (h : tree.Heads source) :
    (history o source).fault = some fault ↔
      performAll o (.initial o) tree.script.actions = .error fault := by
  obtain ⟨u, rest, hu, es, hr⟩ := h
  have hdescends := (descends_class hr rest).descend_eq
  rw [← hu] at hdescends
  have hes : ∀ e ∈ (parse (scan source.toList).toList).toList, e.isFault = false := by
    rw [isFault_parse, hdescends]
    exact hr.not_isFault
  rw [history, generate, generateFrom_error_iff hes, ← actions_coreEvents, core_parse,
    hdescends, hr.actions]

/-- A class that ends in a fault breaks a static condition or makes an uncountable call. -/
theorem ClassDec.Heads.denies {tree : ClassDec} {o : Options} {source : String}
    {fault : Fault Nat} (h : tree.Heads source) (hfault : (history o source).fault = some fault) :
    fault.Denies (tree.Static o) tree.Countable :=
  (tree.performs o).denies (h.fault_iff.mp hfault)

/-! ## Tokens that stand further on -/

section

variable {ε ε' α : Type} (f : ε → ε')

theorem mapError_ok (a : α) : (Except.ok a).mapError f = .ok a := rfl

theorem mapError_error (e : ε) : (Except.error e : Except ε α).mapError f = .error (f e) := rfl

end

theorem resolve_move (c : Context) (d : Nat) (name : Token) :
    c.resolve (name.move d) = (c.resolve name).mapError (Fault.map (· + d)) := by
  simp only [Context.resolve, Token.move]
  cases c.scopes.find? name.lexeme <;> rfl

theorem firstWide?_move (d offset : Nat) (text : List Char) :
    firstWide? (offset + d) text = (firstWide? offset text).map (Prod.map id (· + d)) := by
  induction text generalizing offset with
  | nil => rfl
  | cons c cs ih =>
    simp only [firstWide?]
    split
    · rw [Nat.add_right_comm, ih]
    · rfl

theorem textCode?_move (d : Nat) (literal : Token) :
    textCode? (literal.move d) = (textCode? literal).mapError (Fault.map (· + d)) := by
  simp only [textCode?, Token.move, firstWide?_move]
  split
  · cases firstWide? literal.span.index literal.lexeme.toList <;> rfl
  · rfl

theorem receiverCode_move (o : Options) (c : Context) (d : Nat) (callee : Callee) :
    receiverCode o c (callee.map (Token.move d)) =
      (receiverCode o c callee).mapError (Fault.map (· + d)) := by
  cases callee with
  | own name => rfl
  | member qualifier name =>
    simp only [receiverCode, Callee.map, Token.move]
    cases c.scopes.find? qualifier.lexeme with
    | some v => rfl
    | none => by_cases hmay : c.mayCall o qualifier.lexeme = true <;> simp only [hmay] <;> rfl

theorem callCode_move (c : Context) (arguments d : Nat) (callee : Callee) :
    callCode c arguments (callee.map (Token.move d)) = callCode c arguments callee := by
  cases callee <;> rfl

theorem declare_mapError (c : Context) (name type : String) (kind : VariableKind)
    (f : Nat → Nat) :
    (c.declare name type kind).mapError (Fault.map f) = c.declare name type kind := by
  unfold Context.declare Scopes.declare
  by_cases hdup : c.scopes.policy = .reject ∧ ((c.scopes.owner kind).find? name).isSome = true
  · simp only [if_pos hdup]
    rfl
  · simp only [if_neg hdup]
    cases (c.scopes.owner kind).declare? name type kind <;> rfl

theorem perform_move (o : Options) (c : Context) (d : Nat) (a : Action) :
    perform o c (a.map (Token.move d)) = (perform o c a).mapError (Fault.map (· + d)) := by
  cases a with
  | declare kind type name =>
    have h := declare_mapError c name.lexeme type.lexeme kind (· + d)
    simp only [perform, Action.map, Token.move]
    cases hd : c.declare name.lexeme type.lexeme kind <;> rw [hd] at h
    · exact congrArg _ (Except.error.inj h).symm
    · rfl
  | receiveObject =>
    have h := declare_mapError c "this" c.className .argument (· + d)
    simp only [perform, Action.map]
    cases hd : c.declare "this" c.className .argument <;> rw [hd] at h
    · exact congrArg _ (Except.error.inj h).symm
    · rfl
  | resolve name | load name | store name | loadElement name | addressElement name =>
    simp only [perform, Action.map, resolve_move]
    cases c.resolve name <;> rfl
  | pushReceiver callee =>
    simp only [perform, Action.map, receiverCode_move]
    cases receiverCode o c callee <;> rfl
  | pushText literal =>
    simp only [perform, Action.map, textCode?_move]
    cases textCode? literal <;> rfl
  | pushInteger literal =>
    simp only [perform, Action.map, Token.move]
    cases integerValue? literal.lexeme <;> rfl
  | call callee arguments =>
    simp only [perform, Action.map, callCode_move]
    rcases callCode_cases c arguments callee with ⟨name, w, h⟩ | h <;> rw [h] <;> rfl
  | countArguments n =>
    simp only [perform, Action.map]
    rcases argumentCount_cases n with ⟨w, h⟩ | h <;> rw [h] <;> rfl
  | _ => rfl

theorem performAll_move (o : Options) (c : Context) (d : Nat) (as : List Action) :
    performAll o c (as.map (Action.map (Token.move d))) =
      (performAll o c as).mapError (Fault.map (· + d)) := by
  induction as generalizing c with
  | nil => rfl
  | cons a as ih =>
    rw [List.map_cons, performAll, performAll, perform_move]
    cases perform o c a with
    | error fault => rfl
    | ok result =>
      obtain ⟨c₁, effects⟩ := result
      have hrest := ih c₁
      simp only [mapError_ok, bind, Except.bind]
      rw [hrest]
      cases performAll o c₁ as <;> rfl

/-! ## Where a fault can be -/

def Callee.tokens : Callee → List Token
  | .own name => [name]
  | .member qualifier name => [qualifier, name]

def Action.tokens : Action → List Token
  | .nameClass name => [name]
  | .declare _ type name => [type, name]
  | .nameSubroutine name => [name]
  | .pushInteger literal => [literal]
  | .pushText literal => [literal]
  | .resolve name => [name]
  | .load name => [name]
  | .store name => [name]
  | .loadElement name => [name]
  | .addressElement name => [name]
  | .pushReceiver callee => callee.tokens
  | .call callee _ => callee.tokens
  | _ => []

theorem Callee.eq_of_map_eq {f : Token → Token} {callee : Callee} (h : callee.map f = callee) :
    ∀ t ∈ callee.tokens, f t = t := by
  cases callee with
  | own => simpa [map, tokens] using h
  | member => simpa [map, tokens] using h

theorem Action.eq_of_map_eq {f : Token → Token} {a : Action} (h : a.map f = a) :
    ∀ t ∈ a.tokens, f t = t := by
  cases a with
  | pushReceiver callee => exact Callee.eq_of_map_eq (by simpa [map] using h)
  | call callee arguments => exact Callee.eq_of_map_eq (by simpa [map] using h)
  | nameClass | declare | nameSubroutine | pushInteger | pushText | resolve | load | store
  | loadElement | addressElement => simpa [map, tokens] using h
  | _ => simp [tokens]

/-- Whatever is read has only tokens that were there to be read. -/
theorem mem_of_act_mem_descend {stack : List Item} {tokens : List Token} {a : Action}
    (hstack : ∀ f, stack.map (Item.map f) = stack)
    (ha : .note (.act a) ∈ (descend stack tokens).1) : ∀ t ∈ a.tokens, t ∈ tokens := by
  classical
  -- An exchange that keeps the tokens of the list and no other one.
  let f : Token → Token := fun t => if t ∈ tokens then t else t.move 1
  have hkind : ∀ t, (f t).kind = t.kind := by
    intro t
    by_cases ht : t ∈ tokens <;> simp [f, ht, Token.move]
  have hkeep : ∀ t ∈ tokens, f t = id t := fun t ht => if_pos ht
  have htokens : tokens.map f = tokens := (List.map_congr_left hkeep).trans (List.map_id _)
  have hmap : (descend stack tokens).1.map (Event.map f) = (descend stack tokens).1 := by
    have h := descend_map hkind stack tokens
    rw [hstack, htokens] at h
    exact (congrArg Prod.fst h).symm
  have hfix : ∀ e ∈ (descend stack tokens).1, e.map f = id e := by
    rw [← List.map_inj_left, hmap, List.map_id]
  have hact : a.map f = a := Note.act.inj (Event.note.inj (hfix _ ha))
  intro t ht
  have hself : f t = t := Action.eq_of_map_eq hact t ht
  by_cases hmem : t ∈ tokens
  · exact hmem
  · have hindex := congrArg (fun t => t.span.index) hself
    simp [f, hmem, Token.move] at hindex

def Fault.place? {Place : Type} : Fault Place → Option Place
  | .unexpected _ _ place => some place
  | .undefined _ place => some place
  | .unknownCallee _ place => some place
  | .integerOutOfRange _ place => some place
  | .stringTooLong _ place => some place
  | .charOutOfRange _ place => some place
  | _ => none

theorem Fault.map_congr {α β : Type} {f g : α → β} {fault : Fault α}
    (h : ∀ place ∈ fault.place?, f place = g place) : fault.map f = fault.map g := by
  cases fault <;> simp_all [map, place?]

theorem Fault.map_map {α β γ : Type} (g : β → γ) (f : α → β) (fault : Fault α) :
    (fault.map f).map g = fault.map (g ∘ f) := by
  cases fault <;> rfl

def Token.Covers (t : Token) (place : Nat) : Prop :=
  t.span.index ≤ place ∧ place ≤ t.span.index + byteSize t.lexeme.toList

theorem Token.covers_index (t : Token) : t.Covers t.span.index :=
  ⟨Nat.le_refl _, Nat.le_add_right _ _⟩

theorem firstWide?_bounds {offset place : Nat} {text : List Char} {c : Char}
    (h : firstWide? offset text = some (c, place)) :
    offset ≤ place ∧ place ≤ offset + byteSize text := by
  induction text generalizing offset with
  | nil => cases h
  | cons d text ih =>
    rw [firstWide?] at h
    rw [byteSize_cons]
    by_cases hd : d.toNat ≤ maxConstant
    · rw [if_pos hd] at h
      have hrest := ih h
      omega
    · rw [if_neg hd] at h
      cases h
      omega

theorem place?_declare {c : Context} {name type : String} {kind : VariableKind}
    {fault : Fault Nat} (h : c.declare name type kind = .error fault) : fault.place? = none := by
  have hmap := fun f => declare_mapError c name type kind f
  rw [h] at hmap
  cases fault with
  | duplicate | tooMany | overflow | endOfSource | file | encoding | format => rfl
  | unexpected | undefined | unknownCallee | integerOutOfRange | stringTooLong | charOutOfRange =>
    -- A fault with a place would have another one if all places were moved.
    have hsucc := hmap (· + 1)
    simp [mapError_error, Fault.map] at hsucc

theorem place?_textCode {literal : Token} {fault : Fault Nat}
    (h : textCode? literal = .error fault) : ∀ place ∈ fault.place?, literal.Covers place := by
  simp only [textCode?] at h
  split at h
  · split at h <;> cases h
    rename_i hwide
    simpa [Fault.place?, Token.Covers] using firstWide?_bounds hwide
  · cases h
    simpa [Fault.place?] using literal.covers_index

/-- A fault is at one of the tokens of the action that meets it. -/
theorem place?_perform {o : Options} {c : Context} {a : Action} {fault : Fault Nat}
    (h : perform o c a = .error fault) :
    ∀ place ∈ fault.place?, ∃ t ∈ a.tokens, t.Covers place := by
  cases a with
  | declare | receiveObject =>
    rcases bind_eq_error_iff.mp h with hdeclare | ⟨d, -, hpure⟩
    · simp [place?_declare hdeclare]
    · cases hpure
  | resolve name | load name | store name | loadElement name | addressElement name =>
    rcases bind_eq_error_iff.mp h with hresolve | ⟨v, -, hpure⟩
    · obtain rfl := resolve_eq_error hresolve
      simpa [Fault.place?, Action.tokens] using name.covers_index
    · cases hpure
  | pushInteger literal =>
    simp only [perform] at h
    split at h <;> cases h
    simpa [Fault.place?, Action.tokens] using literal.covers_index
  | pushText literal =>
    rcases bind_eq_error_iff.mp h with htext | ⟨code, -, hpure⟩
    · exact fun place hplace =>
        ⟨literal, List.mem_singleton_self _, place?_textCode htext place hplace⟩
    · cases hpure
  | pushReceiver callee =>
    rcases bind_eq_error_iff.mp h with hreceiver | ⟨code, -, hpure⟩
    · obtain ⟨qualifier, name, rfl, rfl⟩ := receiverCode_eq_error hreceiver
      simpa [Fault.place?, Action.tokens, Callee.tokens] using .inl qualifier.covers_index
    · cases hpure
  | countArguments n =>
    rcases bind_eq_error_iff.mp h with hcount | ⟨w, -, hpure⟩
    · obtain ⟨rfl, -⟩ := argumentCount_eq_error hcount
      simp [Fault.place?]
    · cases hpure
  | call callee n =>
    rcases bind_eq_error_iff.mp h with hcall | ⟨w, -, hpure⟩
    · obtain ⟨rfl, -⟩ := callCode_eq_error hcall
      simp [Fault.place?]
    · cases hpure
  | _ => cases h

theorem place?_performAll {o : Options} {c : Context} {as : List Action} {fault : Fault Nat}
    (h : performAll o c as = .error fault) :
    ∀ place ∈ fault.place?, ∃ a ∈ as, ∃ t ∈ a.tokens, t.Covers place := by
  induction as generalizing c with
  | nil => cases h
  | cons a as ih =>
    intro place hplace
    rcases performAll_cons_error_iff.mp h with ha | ⟨d, effects, -, has⟩
    · exact ⟨a, List.mem_cons_self .., place?_perform ha place hplace⟩
    · obtain ⟨b, hb, ht⟩ := ih has place hplace
      exact ⟨b, List.mem_cons_of_mem _ hb, ht⟩

end JackCompiler
