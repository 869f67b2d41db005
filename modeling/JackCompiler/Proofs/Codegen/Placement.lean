import JackCompiler.Proofs.Codegen.Outcomes
import JackCompiler.Proofs.Codegen.Passes
import JackCompiler.Proofs.Token.Rendering

/-!
# Where tokens stand

The places of the tokens are for reports only: sources whose tokens have the same kinds and
texts are compiled to the same program and trace, or both fail with faults that differ in
their places at most (`compile_of_content_eq`). What else a source has is not looked at.
-/

namespace JackCompiler

/-! ## Forgetting the places -/

def Token.unplaced (t : Token) : Token :=
  { t with span := ⟨0, 0⟩ }

def Fault.unplaced {Place : Type} : Fault Place → Fault Unit
  | .unexpected expected found _ => .unexpected expected found.unplaced ()
  | fault => fault.map fun _ => ()

theorem Fault.unplaced_map {α β : Type} (f : α → β) (fault : Fault α) :
    (fault.map f).unplaced = fault.unplaced := by
  cases fault <;> rfl

theorem Token.unplaced_eq_iff {s t : Token} :
    s.unplaced = t.unplaced ↔ s.content = t.content := by
  simp [unplaced, content]

theorem map_unplaced_eq_iff {ts us : List Token} :
    ts.map Token.unplaced = us.map Token.unplaced ↔
      ts.map Token.content = us.map Token.content := by
  induction ts generalizing us with
  | nil => cases us <;> simp
  | cons t ts ih =>
    cases us with
    | nil => simp
    | cons u us => rw [List.map_cons, List.map_cons, List.map_cons, List.map_cons,
        List.cons.injEq, List.cons.injEq, ih, Token.unplaced_eq_iff]

/-! ## Actions -/

theorem resolve_unplaced (c : Context) (name : Token) :
    (c.resolve name.unplaced).mapError Fault.unplaced =
      (c.resolve name).mapError Fault.unplaced := by
  simp only [Context.resolve, Token.unplaced]
  cases c.scopes.find? name.lexeme <;> rfl

theorem textCode?_unplaced (literal : Token) :
    (textCode? literal.unplaced).mapError Fault.unplaced =
      (textCode? literal).mapError Fault.unplaced := by
  have hwide := firstWide?_move literal.span.index 0 literal.lexeme.toList
  rw [Nat.zero_add] at hwide
  simp only [textCode?, Token.unplaced, hwide]
  by_cases hlength : literal.lexeme.toList.length ≤ maxConstant
  · simp only [hlength, ↓reduceIte]
    cases firstWide? 0 literal.lexeme.toList <;> rfl
  · simp only [hlength, ↓reduceIte]
    rfl

theorem receiverCode_unplaced (o : Options) (c : Context) (callee : Callee) :
    (receiverCode o c (callee.map Token.unplaced)).mapError Fault.unplaced =
      (receiverCode o c callee).mapError Fault.unplaced := by
  cases callee with
  | own name => rfl
  | member qualifier name =>
    simp only [receiverCode, Callee.map, Token.unplaced]
    cases c.scopes.find? qualifier.lexeme with
    | some v => rfl
    | none => by_cases hmay : c.mayCall o qualifier.lexeme = true <;> simp only [hmay] <;> rfl

theorem mapError_bind {ε ε' α β : Type} {f : ε → ε'} {x y : Except ε α}
    (h : x.mapError f = y.mapError f) (g : α → Except ε β) :
    (x >>= g).mapError f = (y >>= g).mapError f := by
  cases x with
  | error e =>
    cases y with
    | error e' => exact congrArg Except.error (Except.error.inj h)
    | ok b => cases h
  | ok a =>
    cases y with
    | error e' => cases h
    | ok b => rw [Except.ok.inj h]

theorem perform_unplaced (o : Options) (c : Context) (a : Action) :
    (perform o c (a.map Token.unplaced)).mapError Fault.unplaced =
      (perform o c a).mapError Fault.unplaced := by
  cases a with
  | resolve name | load name | store name | loadElement name | addressElement name =>
    exact mapError_bind (resolve_unplaced c name) _
  | pushReceiver callee => exact mapError_bind (receiverCode_unplaced o c callee) _
  | pushText literal => exact mapError_bind (textCode?_unplaced literal) _
  | pushInteger literal =>
    simp only [perform, Action.map, Token.unplaced]
    cases integerValue? literal.lexeme <;> rfl
  | call callee arguments => cases callee <;> rfl
  | _ => rfl

/-! ## Runs -/

def Effect.shown? : Effect → Option (Instruction ⊕ String)
  | .emit i => some (.inl i)
  | .record l => some (.inr l.text)
  | _ => none

/-- What a run shows, but for places: the fault that ends it and what it shows before. -/
def History.unplaced (h : History) : Option (Fault Unit) × List (Instruction ⊕ String) :=
  (h.fault.map Fault.unplaced, h.effects.toList.filterMap Effect.shown?)

theorem History.program_eq (h : History) :
    h.program = h.unplaced.2.filterMap Sum.getLeft? := by
  rw [program, unplaced, List.filterMap_filterMap]
  congr 1
  funext effect
  cases effect <;> rfl

theorem History.traceText_eq (h : History) :
    h.traceText = joinLines (h.unplaced.2.filterMap Sum.getRight?) := by
  rw [traceText, traceLines, unplaced, List.filterMap_filterMap, List.map_filterMap]
  congr 2
  funext effect
  cases effect <;> rfl

def stepUnplaced (o : Options) (c : Context) (e : Event) :
    Except (Fault Unit) (Context × List (Instruction ⊕ String)) :=
  ((step o c e).mapError Fault.unplaced).map (Prod.map id (List.filterMap Effect.shown?))

theorem stepUnplaced_look (o : Options) (c : Context) (skipped : List Skipped) :
    stepUnplaced o c (.look skipped) = .ok (c, []) := by
  have hskip : (skipped.map Effect.skip).filterMap Effect.shown? = [] := by
    rw [List.filterMap_map]
    exact List.filterMap_eq_nil_iff.mpr fun _ _ => rfl
  show Except.ok (c, (skipped.map Effect.skip).filterMap Effect.shown?) = _
  rw [hskip]

/-- A step does not see where the tokens of its event stand. -/
theorem stepUnplaced_map (o : Options) (c : Context) (e : Event) :
    stepUnplaced o c (e.map Token.unplaced) = stepUnplaced o c e := by
  cases e with
  | note n =>
    cases n with
    | act a => exact congrArg (Except.map _) (perform_unplaced o c a)
    | enter | leave => rfl
  | look | take | refuse | exhausted => rfl

theorem unplaced_generateFrom_cons (o : Options) (c : Context) (e : Event) (es : List Event) :
    (generateFrom o #[] c (e :: es)).unplaced =
      match stepUnplaced o c e with
      | .error fault => (some fault, [])
      | .ok (d, before) => Prod.map id (before ++ ·) (generateFrom o #[] d es).unplaced := by
  rw [generateFrom, stepUnplaced]
  cases step o c e with
  | error fault => rfl
  | ok result =>
    simp only [mapError_ok, Except.map]
    rw [generateFrom_eq]
    simp [History.unplaced]

/-- What a run shows does not depend on looks, nor on where tokens stand. -/
theorem unplaced_generateFrom (o : Options) (c : Context) (es : List Event) :
    (generateFrom o #[] c
        ((es.filter fun e => !e.isLook).map (Event.map Token.unplaced))).unplaced =
      (generateFrom o #[] c es).unplaced := by
  induction es generalizing c with
  | nil => rfl
  | cons e es ih =>
    rw [unplaced_generateFrom_cons]
    cases hlook : e.isLook with
    | true =>
      obtain ⟨skipped, rfl⟩ : ∃ skipped, e = .look skipped := by
        cases e with
        | look skipped => exact ⟨skipped, rfl⟩
        | note | take | refuse | exhausted => cases hlook
      rw [List.filter_cons_of_neg (by simp [hlook]), ih, stepUnplaced_look]
      rfl
    | false =>
      rw [List.filter_cons_of_pos (by simp [hlook]), List.map_cons, unplaced_generateFrom_cons,
        stepUnplaced_map]
      cases stepUnplaced o c e with
      | error fault => rfl
      | ok result =>
        simp only
        rw [ih]

/-! ## Compilations -/

theorem history_unplaced (o : Options) (source : String) :
    (history o source).unplaced =
      (generateFrom o #[] (.initial o)
        (descend classItems ((tokenize source).map Token.unplaced)).1).unplaced := by
  have hdescend := descend_map (f := Token.unplaced) (fun _ => rfl) classItems (tokenize source)
  rw [show classItems.map (Item.map Token.unplaced) = classItems from rfl] at hdescend
  rw [hdescend, ← core_parse, history, generate]
  exact (unplaced_generateFrom o _ _).symm

theorem compile_of_content_eq (o : Options) {source source' : String}
    (h : (tokenize source).map Token.content = (tokenize source').map Token.content) :
    (∃ out, compile o source = .ok out ∧ compile o source' = .ok out) ∨
      ∃ fault fault', compile o source = .error fault ∧ compile o source' = .error fault' ∧
        fault.unplaced = fault'.unplaced := by
  have hshown : (history o source).unplaced = (history o source').unplaced := by
    rw [history_unplaced, history_unplaced, map_unplaced_eq_iff.mpr h]
  have hfault : (history o source).fault.map Fault.unplaced =
      (history o source').fault.map Fault.unplaced := congrArg Prod.fst hshown
  cases hs : (history o source).fault with
  | none =>
    have hs' : (history o source').fault = none := by simpa [hs] using hfault
    obtain ⟨out, hout⟩ := exists_compile_iff.mpr hs
    obtain ⟨⟨-, hprogram⟩, htrace⟩ := compile_eq_ok_iff.mp hout
    refine .inl ⟨out, hout, compile_eq_ok_iff.mpr ⟨⟨hs', ?_⟩, ?_⟩⟩
    · rw [← hprogram, History.program_eq, History.program_eq, hshown]
    · rw [htrace, History.traceText_eq, History.traceText_eq, hshown]
  | some f =>
    obtain ⟨f', hs', hf⟩ : ∃ f', (history o source').fault = some f' ∧
        f'.unplaced = f.unplaced := by simpa [hs, eq_comm] using hfault
    refine .inr ⟨_, _, compile_eq_error_iff.mpr ⟨f, hs, rfl⟩,
      compile_eq_error_iff.mpr ⟨f', hs', rfl⟩, ?_⟩
    rw [Fault.unplaced_map, Fault.unplaced_map, hf]

def spacedLoopSource : String :=
  "/* A */ class\tA\n@" ++ String.ofList (loopSource.toList.drop 7)

theorem compile_of_content_eq_spacedLoopSource :
    (tokenize loopSource).map Token.content = (tokenize spacedLoopSource).map Token.content ∧
      ∃ out, compile {} loopSource = .ok out ∧ compile {} spacedLoopSource = .ok out := by
  have htokens : (tokenize loopSource).map Token.content =
      (tokenize spacedLoopSource).map Token.content := by decide +kernel
  refine ⟨htokens, ?_⟩
  rcases compile_of_content_eq {} htokens with h | ⟨fault, -, hfault, -⟩
  · exact h
  · obtain ⟨out, hout⟩ := exists_compile_loopSource
    rw [hout] at hfault
    cases hfault

end JackCompiler
