import JackCompiler.Compile
import JackCompiler.Proofs.Syntax.Completeness
import JackCompiler.Proofs.Syntax.Soundness

/-!
# A compilation carries out the actions of a tree

A source compiles just if its tokens begin with those of a class whose actions can all
be carried out; the program is then what they emit (`ClassDec.Heads.compiles_iff`).
-/

namespace JackCompiler

/-! ## The parts of a step -/

theorem bind_eq_ok_iff {ε α β : Type} {x : Except ε α} {g : α → Except ε β} {b : β} :
    x >>= g = .ok b ↔ ∃ a, x = .ok a ∧ g a = .ok b := by
  cases x <;> simp [bind, Except.bind]

theorem bind_eq_error_iff {ε α β : Type} {x : Except ε α} {g : α → Except ε β} {e : ε} :
    x >>= g = .error e ↔ x = .error e ∨ ∃ a, x = .ok a ∧ g a = .error e := by
  cases x <;> simp [bind, Except.bind]

theorem resolve_eq_error {c : Context} {name : Token} {fault : Fault Nat}
    (h : c.resolve name = .error fault) : fault = .undefined name.lexeme name.span.index := by
  unfold Context.resolve at h
  split at h <;> cases h
  rfl

theorem receiverCode_eq_error {o : Options} {c : Context} {callee : Callee} {fault : Fault Nat}
    (h : receiverCode o c callee = .error fault) :
    ∃ qualifier name, callee = .member qualifier name ∧
      fault = .unknownCallee qualifier.lexeme qualifier.span.index := by
  cases callee with
  | own name => cases h
  | member qualifier name =>
    simp only [receiverCode] at h
    split at h
    · cases h
    · split at h <;> cases h
      exact ⟨qualifier, name, rfl, rfl⟩

theorem argumentCount_cases (n : Nat) :
    (∃ w, argumentCount n = .ok w) ∨ argumentCount n = .error .overflow := by
  rw [argumentCount]
  split
  · exact .inl ⟨_, rfl⟩
  · exact .inr rfl

theorem callCode_cases (c : Context) (n : Nat) (callee : Callee) :
    (∃ name w, callCode c n callee = .ok (.call name w)) ∨
      callCode c n callee = .error .overflow := by
  have hmap (name : String) (n : Nat) :
      (∃ w, (argumentCount n).map (.call name) = .ok (Instruction.call name w)) ∨
        (argumentCount n).map (.call name) = (.error .overflow : Except _ Instruction) := by
    rcases argumentCount_cases n with ⟨w, hn⟩ | hn <;> rw [hn]
    · exact .inl ⟨w, rfl⟩
    · exact .inr rfl
  cases callee with
  | own name => exact (hmap _ _).imp_left fun h => ⟨_, h⟩
  | member qualifier name =>
    rw [callCode]
    split
    · exact (hmap _ _).imp_left fun h => ⟨_, h⟩
    · exact (hmap _ _).imp_left fun h => ⟨_, h⟩

theorem argumentCount_eq_error {n : Nat} {fault : Fault Nat} (h : argumentCount n = .error fault) :
    fault = .overflow ∧ 65535 < n := by
  rw [argumentCount] at h
  split at h <;> cases h
  rename_i hn
  exact ⟨rfl, Nat.lt_of_succ_le (Nat.le_of_not_lt hn)⟩

theorem callCode_eq_error {c : Context} {n : Nat} {callee : Callee} {fault : Fault Nat}
    (h : callCode c n callee = .error fault) : fault = .overflow ∧ 65535 < n + 1 := by
  have hcount {passed : Nat} {name : String} (hpassed : passed ≤ n + 1)
      (h : (argumentCount passed).map (.call name) = (.error fault : Except _ Instruction)) :
      fault = .overflow ∧ 65535 < n + 1 := by
    cases hw : argumentCount passed <;> rw [hw] at h <;> cases h
    exact (argumentCount_eq_error hw).imp_right fun hgreat => Nat.lt_of_lt_of_le hgreat hpassed
  cases callee with
  | own name => exact hcount (Nat.le_refl _) h
  | member qualifier name =>
    rw [callCode] at h
    split at h
    · exact hcount (Nat.le_refl _) h
    · exact hcount (Nat.le_succ n) h

/-! ## Lists of actions -/

/-- Carries out the actions in order: the knowledge after them and the code emitted. -/
def performAll (o : Options) (c : Context) :
    List Action → Except (Fault Nat) (Context × List Instruction)
  | [] => .ok (c, [])
  | a :: as => do
    let (c, effects) ← perform o c a
    let (c, program) ← performAll o c as
    return (c, effects.filterMap Effect.instruction? ++ program)

theorem performAll_nil_iff {o : Options} {c d : Context} {p : List Instruction} :
    performAll o c [] = .ok (d, p) ↔ d = c ∧ p = [] := by
  simp [performAll, eq_comm]

theorem performAll_cons_iff {o : Options} {c d : Context} {a : Action} {as : List Action}
    {p : List Instruction} :
    performAll o c (a :: as) = .ok (d, p) ↔ ∃ c₁ effects q, perform o c a = .ok (c₁, effects) ∧
      performAll o c₁ as = .ok (d, q) ∧ p = effects.filterMap Effect.instruction? ++ q := by
  rw [performAll]
  cases h : perform o c a with
  | error fault => simp [bind, Except.bind]
  | ok result =>
    obtain ⟨c₁, effects⟩ := result
    cases h' : performAll o c₁ as with
    | error fault => simp [bind, Except.bind, h']
    | ok result =>
      obtain ⟨c₂, q⟩ := result
      simp [bind, Except.bind, pure, Except.pure, h', eq_comm, and_assoc]

theorem performAll_append_iff {o : Options} {c d : Context} {as bs : List Action}
    {p : List Instruction} :
    performAll o c (as ++ bs) = .ok (d, p) ↔ ∃ c₁ q r, performAll o c as = .ok (c₁, q) ∧
      performAll o c₁ bs = .ok (d, r) ∧ p = q ++ r := by
  induction as generalizing c p with
  | nil =>
    refine ⟨fun h => ⟨c, [], p, rfl, h, rfl⟩, ?_⟩
    intro h
    obtain ⟨_, _, _, hnil, hbs, rfl⟩ := h
    obtain ⟨rfl, rfl⟩ := performAll_nil_iff.mp hnil
    exact hbs
  | cons a as ih =>
    rw [List.cons_append, performAll_cons_iff]
    refine ⟨?_, ?_⟩
    · intro h
      obtain ⟨c₁, effects, q, ha, h, rfl⟩ := h
      obtain ⟨c₂, q, r, has, hbs, rfl⟩ := ih.mp h
      refine ⟨c₂, _, r, performAll_cons_iff.mpr ⟨c₁, effects, q, ha, has, rfl⟩, hbs, ?_⟩
      rw [List.append_assoc]
    · intro h
      obtain ⟨c₂, q, r, h, hbs, rfl⟩ := h
      obtain ⟨c₁, effects, q, ha, has, rfl⟩ := performAll_cons_iff.mp h
      refine ⟨c₁, effects, q ++ r, ha, ih.mpr ⟨c₂, q, r, has, hbs, rfl⟩, ?_⟩
      rw [List.append_assoc]

theorem performAll_cons_error_iff {o : Options} {c : Context} {a : Action} {as : List Action}
    {fault : Fault Nat} :
    performAll o c (a :: as) = .error fault ↔ perform o c a = .error fault ∨
      ∃ d effects, perform o c a = .ok (d, effects) ∧ performAll o d as = .error fault := by
  rw [performAll]
  cases perform o c a with
  | error fault' => simp [bind, Except.bind]
  | ok result =>
    obtain ⟨d, effects⟩ := result
    cases h : performAll o d as <;> simp [bind, Except.bind, pure, Except.pure, h]

theorem performAll_append_error_iff {o : Options} {c : Context} {as bs : List Action}
    {fault : Fault Nat} :
    performAll o c (as ++ bs) = .error fault ↔ performAll o c as = .error fault ∨
      ∃ d p, performAll o c as = .ok (d, p) ∧ performAll o d bs = .error fault := by
  induction as generalizing c with
  | nil => simp [performAll]
  | cons a as ih =>
    rw [List.cons_append, performAll_cons_error_iff, performAll_cons_error_iff]
    refine ⟨fun h => ?_, fun h => ?_⟩
    · rcases h with h | ⟨d, effects, ha, h⟩
      · exact .inl (.inl h)
      · rcases ih.mp h with h | ⟨e, p, has, h⟩
        · exact .inl (.inr ⟨d, effects, ha, h⟩)
        · exact .inr ⟨e, _, performAll_cons_iff.mpr ⟨d, effects, p, ha, has, rfl⟩, h⟩
    · rcases h with (h | ⟨d, effects, ha, h⟩) | ⟨e, p, h, hbs⟩
      · exact .inl h
      · exact .inr ⟨d, effects, ha, ih.mpr (.inl h)⟩
      · obtain ⟨d, effects, q, ha, has, rfl⟩ := performAll_cons_iff.mp h
        exact .inr ⟨d, effects, ha, ih.mpr (.inr ⟨e, q, has, hbs⟩)⟩

/-! ## Actions of events and scripts -/

def Event.action? : Event → Option Action
  | .note (.act a) => some a
  | _ => none

def Part.action? : Part → Option Action
  | .note (.act a) => some a
  | _ => none

def Script.actions (p : Script) : List Action :=
  p.filterMap Part.action?

theorem Reads.actions {p : Script} {u : List Token} {es : List Event} (h : Reads p u es) :
    es.filterMap Event.action? = p.actions := by
  induction h with
  | nil => rfl
  | @note n _ _ _ _ ih =>
    cases n with
    | act a => exact congrArg (a :: ·) ih
    | enter | leave => exact ih
  | fixed _ ih => exact ih
  | token _ ih => exact ih

theorem actions_coreEvents (events : Array Event) :
    (coreEvents events).filterMap Event.action? = events.toList.filterMap Event.action? := by
  rw [coreEvents, List.filterMap_filter]
  congr 1
  funext e
  cases e <;> rfl

def Event.isFault : Event → Bool
  | .refuse _ _ => true
  | .exhausted => true
  | _ => false

theorem mem_coreEvents_of_isFault {events : Array Event} {e : Event} (he : e.isFault = true) :
    e ∈ coreEvents events ↔ e ∈ events.toList := by
  rw [coreEvents, List.mem_filter]
  cases e <;> simp [Event.isFault, Event.isLook] at *

theorem Reads.not_isFault {p : Script} {u : List Token} {es : List Event} (h : Reads p u es) :
    ∀ e ∈ es, e.isFault = false := by
  induction h with
  | nil => simp
  | note _ ih => simpa [Event.isFault] using ih
  | fixed _ ih => simpa [Event.isFault] using ih
  | token _ ih => simpa [Event.isFault] using ih

theorem descend_of_not_isFault (stack : List Item) (tokens : List Token)
    (h : ∀ e ∈ (descend stack tokens).1, e.isFault = false) :
    ∃ rest, descend stack tokens = ((descend stack tokens).1, some rest) := by
  fun_induction descend stack tokens with
  | case1 tokens => exact ⟨tokens, rfl⟩
  | case2 n stack tokens es rest hd ih =>
    rw [hd] at ih
    obtain ⟨left, hleft⟩ := ih fun e he => h e (List.mem_cons_of_mem _ he)
    exact ⟨left, by rw [Prod.mk.injEq] at hleft ⊢; exact ⟨rfl, hleft.2⟩⟩
  | case3 => exact absurd (h .exhausted (by simp)) (by decide)
  | case4 g stack t tokens before after hg es rest hd ih =>
    rw [hd] at ih
    obtain ⟨left, hleft⟩ := ih fun e he => h e (by simp [he])
    exact ⟨left, by rw [Prod.mk.injEq] at hleft ⊢; exact ⟨rfl, hleft.2⟩⟩
  | case5 g stack t tokens before hg es rest hd ih =>
    rw [hd] at ih
    obtain ⟨left, hleft⟩ := ih fun e he => h e (by simp [he])
    exact ⟨left, by rw [Prod.mk.injEq] at hleft ⊢; exact ⟨rfl, hleft.2⟩⟩
  | case6 g stack t tokens before expected hg =>
    exact absurd (h (.refuse expected t) (by simp)) (by simp [Event.isFault])

/-! ## Generating code is carrying out the actions -/

theorem fault_generateFrom (o : Options) (done : Array Effect) (c : Context) (es : List Event) :
    (generateFrom o done c es).fault = (generateFrom o #[] c es).fault := by
  rw [generateFrom_eq]

theorem program_generateFrom (o : Options) (done : Array Effect) (c : Context) (es : List Event) :
    (generateFrom o done c es).program =
      done.toList.filterMap Effect.instruction? ++ (generateFrom o #[] c es).program := by
  rw [generateFrom_eq]
  simp [History.program]

theorem step_of_isFault (o : Options) (c : Context) {e : Event} (he : e.isFault = true) :
    ∃ fault, step o c e = .error fault := by
  cases e with
  | refuse expected found => exact ⟨_, rfl⟩
  | exhausted => exact ⟨_, rfl⟩
  | note | look | take => cases he

theorem step_of_action (o : Options) (c : Context) {e : Event} {a : Action}
    (he : e.action? = some a) : step o c e = perform o c a := by
  cases e with
  | note n =>
    cases n with
    | act b =>
      obtain rfl : b = a := by simpa [Event.action?] using he
      rfl
    | enter | leave => cases he
  | look | take | refuse | exhausted => cases he

theorem step_of_no_action (o : Options) (c : Context) {e : Event} (he : e.action? = none)
    (hf : e.isFault = false) :
    ∃ effects, step o c e = .ok (c, effects) ∧ effects.filterMap Effect.instruction? = [] := by
  cases e with
  | note n =>
    cases n with
    | act a => cases he
    | enter r => exact ⟨_, rfl, rfl⟩
    | leave r => exact ⟨_, rfl, rfl⟩
  | look skipped =>
    refine ⟨_, rfl, ?_⟩
    rw [List.filterMap_map, List.filterMap_eq_nil_iff]
    intro s _
    rfl
  | take t => exact ⟨_, rfl, rfl⟩
  | refuse | exhausted => cases hf

theorem generateFrom_ok_iff {o : Options} {c : Context} {es : List Event}
    {p : List Instruction} :
    (generateFrom o #[] c es).fault = none ∧ (generateFrom o #[] c es).program = p ↔
      (∀ e ∈ es, e.isFault = false) ∧
        ∃ d, performAll o c (es.filterMap Event.action?) = .ok (d, p) := by
  induction es generalizing c p with
  | nil =>
    refine ⟨fun h => ⟨by simp, c, performAll_nil_iff.mpr ⟨rfl, h.2.symm⟩⟩, fun h => ?_⟩
    obtain ⟨-, _, h⟩ := h
    obtain ⟨-, rfl⟩ := performAll_nil_iff.mp h
    exact ⟨rfl, rfl⟩
  | cons e es ih =>
    rw [generateFrom]
    -- A fault among the events ends the run; any other event is an action or changes nothing.
    by_cases hf : e.isFault = true
    · obtain ⟨fault, hs⟩ := step_of_isFault o c hf
      simp [hs, hf]
    rw [Bool.not_eq_true] at hf
    cases ha : e.action? with
    | none =>
      obtain ⟨effects, hs, hi⟩ := step_of_no_action o c ha hf
      simp only [hs]
      rw [fault_generateFrom, program_generateFrom]
      simp [hi, hf, ha, ih]
    | some a =>
      rw [step_of_action o c ha, List.filterMap_cons_some ha]
      cases hp : perform o c a with
      | error fault =>
        refine ⟨fun h => by simp at h, fun h => ?_⟩
        obtain ⟨-, d, h⟩ := h
        obtain ⟨_, _, _, hok, -⟩ := performAll_cons_iff.mp h
        rw [hp] at hok
        cases hok
      | ok result =>
        obtain ⟨c₁, effects⟩ := result
        simp only
        rw [fault_generateFrom, program_generateFrom]
        refine ⟨fun h => ?_, fun h => ?_⟩
        · obtain ⟨hes, d, hd⟩ := ih.mp ⟨h.1, rfl⟩
          refine ⟨fun e he => ?_, d, ?_⟩
          · rcases List.mem_cons.mp he with rfl | he
            · exact hf
            · exact hes e he
          · exact performAll_cons_iff.mpr ⟨c₁, effects, _, hp, hd, by rw [← h.2]; simp⟩
        · obtain ⟨hes, d, h⟩ := h
          obtain ⟨_, _, q, hok, hq, rfl⟩ := performAll_cons_iff.mp h
          obtain ⟨rfl, rfl⟩ : c₁ = _ ∧ effects = _ := by simpa [hp] using hok
          have hrest := ih.mpr ⟨fun e he => hes e (List.mem_cons_of_mem _ he), d, hq⟩
          exact ⟨hrest.1, by rw [hrest.2]; simp⟩

/-! ## Compilations -/

theorem core_parse (source : String) :
    coreEvents (parse (scan source.toList).toList) =
      (descend classItems (tokenize source)).1 :=
  parseFrom_core _ _

/-- The tokens of the source begin with those of the class. -/
def ClassDec.Heads (tree : ClassDec) (source : String) : Prop :=
  ∃ u rest, tokenize source = u ++ rest ∧ tree.Spells u

theorem isFault_parse (source : String) :
    (∀ e ∈ (parse (scan source.toList).toList).toList, e.isFault = false) ↔
      ∀ e ∈ (descend classItems (tokenize source)).1, e.isFault = false := by
  rw [← core_parse]
  refine ⟨fun h e he => h e (List.mem_filter.mp he).1, fun h e he => ?_⟩
  -- A fault is never a look, and looks are all that the core leaves out.
  cases hf : e.isFault with
  | false => rfl
  | true => rw [← hf, h e ((mem_coreEvents_of_isFault hf).mpr he)]

theorem ClassDec.Heads.compiles_iff {tree : ClassDec} {o : Options} {source : String}
    {p : List Instruction} (h : tree.Heads source) :
    (history o source).fault = none ∧ (history o source).program = p ↔
      ∃ d, performAll o (.initial o) tree.script.actions = .ok (d, p) := by
  obtain ⟨u, rest, hu, es, hr⟩ := h
  rw [history, generate, generateFrom_ok_iff, ← actions_coreEvents, core_parse, isFault_parse, hu,
    (descends_class hr rest).descend_eq, hr.actions]
  exact and_iff_right hr.not_isFault

theorem exists_heads_of_fault {o : Options} {source : String}
    (h : (history o source).fault = none) :
    ∃ tree : ClassDec, tree.Heads source := by
  obtain ⟨hf, -⟩ := generateFrom_ok_iff.mp ⟨h, rfl⟩
  rw [isFault_parse] at hf
  obtain ⟨rest, hrest⟩ := descend_of_not_isFault _ _ hf
  obtain ⟨tree, u, hr, hu⟩ := reads_of_descends_class (descends_of_descend hrest)
  exact ⟨tree, u, rest, hu, _, hr⟩

end JackCompiler
