import JackCompiler.Proofs.Codegen.Refusals
import JackCompiler.Proofs.Syntax.Kinds
import JackCompiler.Proofs.Text.Boundaries

/-!
# Where faults are reported

A fault with a position is reported where its cause stands: at the token that cannot stand
there, at the name that means nothing, at the constant that the machine cannot push or at
the character in it. The position is that of no other place in the source
(`faults_point_at_causes`).
-/

namespace JackCompiler

/-! ## Causes -/

def StartsAt (source : String) (kind : Terminal) (lexeme : String) (index : Nat) : Prop :=
  ∃ t ∈ tokenize source, t.kind = kind ∧ t.lexeme = lexeme ∧ t.span.index = index

/-- The character is the first one in a string constant that starts at `start` whose code
cannot be pushed. -/
structure FirstWide (source : String) (char : Char) (start : Nat) (before : List Char) : Prop where
  starts : ∃ lexeme behind, StartsAt source .text lexeme start ∧
    lexeme.toList = before ++ char :: behind
  narrow : ∀ c ∈ before, c.toNat ≤ 32767
  wide : 32767 < char.toNat
  stands : ∃ front back, source.toList = front ++ char :: back ∧
    byteSize front = start + byteSize before

/-- What the fault is about stands at the offset, if the fault has a place. -/
def Fault.CausedAt {Place : Type} (source : String) (index : Nat) : Fault Place → Prop
  | .unexpected _ found _ => found ∈ tokenize source ∧ found.span.index = index
  | .undefined name _ => StartsAt source .ident name index
  | .unknownCallee name _ => StartsAt source .ident name index
  | .integerOutOfRange lexeme _ => StartsAt source .number lexeme index
  | .stringTooLong length _ => ∃ lexeme, StartsAt source .text lexeme index ∧
    lexeme.toList.length = length ∧ 32767 < length
  | .charOutOfRange char _ => ∃ start before, FirstWide source char start before ∧
    index = start + byteSize before
  | _ => True

theorem Fault.causedAt_map {α β : Type} {f : α → β} {source : String} {index : Nat}
    {fault : Fault α} : (fault.map f).CausedAt source index ↔ fault.CausedAt source index := by
  cases fault <;> exact Iff.rfl

/-! ## Causes stand at boundaries -/

theorem exists_split_of_mem_tokenize {source : String} {t : Token} (ht : t ∈ tokenize source) :
    ∃ before behind, source.toList = before ++ (t.lexeme.toList ++ behind) ∧
      t.span.index = byteSize before := by
  obtain ⟨before, behind, htext, hspan, -⟩ := (tokenize_lossless source).place t ht
  rw [List.append_assoc] at htext
  exact ⟨before, behind, htext, by rw [hspan]⟩

theorem Fault.CausedAt.isBoundary {Place : Type} {source : String} {index : Nat}
    {fault : Fault Place} (h : fault.CausedAt source index) {place : Place}
    (hplace : fault.place? = some place) : IsBoundary source.toList index := by
  have hstarts : ∀ {kind lexeme}, StartsAt source kind lexeme index →
      IsBoundary source.toList index := by
    intro kind lexeme hstarts
    obtain ⟨t, ht, -, -, rfl⟩ := hstarts
    obtain ⟨before, behind, htext, hindex⟩ := exists_split_of_mem_tokenize ht
    exact ⟨before, _, htext, hindex.symm⟩
  cases fault with
  | unexpected expected found place => exact hstarts ⟨found, h.1, rfl, rfl, h.2⟩
  | undefined | unknownCallee | integerOutOfRange => exact hstarts h
  | stringTooLong length place =>
    obtain ⟨lexeme, h, -⟩ := h
    exact hstarts h
  | charOutOfRange char place =>
    obtain ⟨start, before, hfirst, rfl⟩ := h
    obtain ⟨front, back, htext, hfront⟩ := hfirst.stands
    exact ⟨front, _, htext, hfront⟩
  | _ => cases hplace

/-! ## Actions -/

theorem firstWide?_eq_some {offset place : Nat} {text : List Char} {c : Char}
    (h : firstWide? offset text = some (c, place)) :
    ∃ before behind, text = before ++ c :: behind ∧ place = offset + byteSize before ∧
      (∀ d ∈ before, d.toNat ≤ 32767) ∧ 32767 < c.toNat := by
  induction text generalizing offset with
  | nil => cases h
  | cons d text ih =>
    rw [firstWide?] at h
    by_cases hd : d.toNat ≤ maxConstant
    · rw [if_pos hd] at h
      obtain ⟨before, behind, rfl, rfl, hbefore, hc⟩ := ih h
      refine ⟨d :: before, behind, rfl, ?_, List.forall_mem_cons.mpr ⟨hd, hbefore⟩, hc⟩
      rw [byteSize_cons, Nat.add_assoc]
    · rw [if_neg hd] at h
      cases h
      exact ⟨[], text, rfl, rfl, List.forall_mem_nil _, Nat.lt_of_not_le hd⟩

theorem causedAt_textCode {source : String} {literal : Token} {fault : Fault Nat}
    (hliteral : literal ∈ tokenize source) (hkind : literal.kind = .text)
    (h : textCode? literal = .error fault) :
    ∀ index ∈ fault.place?, fault.CausedAt source index := by
  have hstarts : StartsAt source .text literal.lexeme literal.span.index :=
    ⟨literal, hliteral, hkind, rfl, rfl⟩
  simp only [textCode?] at h
  by_cases hlength : literal.lexeme.toList.length ≤ maxConstant
  · rw [if_pos hlength] at h
    cases hwide : firstWide? literal.span.index literal.lexeme.toList with
    | none => rw [hwide] at h; cases h
    | some found =>
      rw [hwide] at h
      cases h
      rintro index ⟨⟩
      obtain ⟨before, behind, hlexeme, hindex, hbefore, hchar⟩ := firstWide?_eq_some hwide
      obtain ⟨front, back, htext, hfront⟩ := exists_split_of_mem_tokenize hliteral
      refine ⟨_, before, ⟨⟨_, behind, hstarts, hlexeme⟩, hbefore, hchar,
        front ++ before, behind ++ back, ?_, ?_⟩, hindex⟩
      -- The character's offset is that of the lexeme and what stands before the character in it.
      · rw [htext, hlexeme]
        simp
      · rw [byteSize_append, hfront]
  · rw [if_neg hlength] at h
    cases h
    rintro index ⟨⟩
    exact ⟨_, hstarts, rfl, Nat.lt_of_not_le hlength⟩

theorem causedAt_perform {o : Options} {c : Context} {a : Action} {source : String}
    {fault : Fault Nat} (hkinded : a.Kinded) (htokens : ∀ t ∈ a.tokens, t ∈ tokenize source)
    (h : perform o c a = .error fault) :
    ∀ index ∈ fault.place?, fault.CausedAt source index := by
  cases a with
  | declare | receiveObject =>
    rcases bind_eq_error_iff.mp h with hdeclare | ⟨d, -, hpure⟩
    · simp [place?_declare hdeclare]
    · cases hpure
  | resolve name | load name | store name | loadElement name | addressElement name =>
    rcases bind_eq_error_iff.mp h with hresolve | ⟨v, -, hpure⟩
    · obtain rfl := resolve_eq_error hresolve
      rintro index ⟨⟩
      exact ⟨name, htokens name (List.mem_singleton_self _), hkinded, rfl, rfl⟩
    · cases hpure
  | pushInteger literal =>
    simp only [perform] at h
    cases hv : integerValue? literal.lexeme <;> rw [hv] at h <;> cases h
    rintro index ⟨⟩
    exact ⟨literal, htokens literal (List.mem_singleton_self _), hkinded, rfl, rfl⟩
  | pushText literal =>
    rcases bind_eq_error_iff.mp h with htext | ⟨code, -, hpure⟩
    · exact causedAt_textCode (htokens literal (List.mem_singleton_self _)) hkinded htext
    · cases hpure
  | pushReceiver callee =>
    rcases bind_eq_error_iff.mp h with hreceiver | ⟨code, -, hpure⟩
    · obtain ⟨qualifier, name, rfl, rfl⟩ := receiverCode_eq_error hreceiver
      rintro index ⟨⟩
      exact ⟨qualifier, htokens qualifier (by simp [Action.tokens, Callee.tokens]), hkinded.1,
        rfl, rfl⟩
    · cases hpure
  | countArguments n =>
    rcases bind_eq_error_iff.mp h with hcount | ⟨w, -, hpure⟩
    · obtain ⟨rfl, -⟩ := argumentCount_eq_error hcount
      rintro index ⟨⟩
    · cases hpure
  | call callee n =>
    rcases bind_eq_error_iff.mp h with hcall | ⟨w, -, hpure⟩
    · obtain ⟨rfl, -⟩ := callCode_eq_error hcall
      rintro index ⟨⟩
    · cases hpure
  | _ => cases h

/-! ## Compilations -/

theorem exists_step_of_fault {o : Options} {c : Context} {es : List Event} {fault : Fault Nat}
    (h : (generateFrom o #[] c es).fault = some fault) :
    ∃ e ∈ es, ∃ d, step o d e = .error fault := by
  induction es generalizing c with
  | nil => cases h
  | cons e es ih =>
    rw [generateFrom] at h
    cases hs : step o c e with
    | error fault' =>
      rw [hs] at h
      obtain rfl := Option.some.inj h
      exact ⟨e, List.mem_cons_self, c, hs⟩
    | ok result =>
      rw [hs] at h
      simp only at h
      rw [fault_generateFrom] at h
      obtain ⟨e', he', hstep⟩ := ih h
      exact ⟨e', List.mem_cons_of_mem _ he', hstep⟩

theorem causedAt_history {o : Options} {source : String} {fault : Fault Nat}
    (h : (history o source).fault = some fault) :
    ∀ index ∈ fault.place?, fault.CausedAt source index := by
  obtain ⟨e, he, d, hstep⟩ := exists_step_of_fault h
  cases e with
  | refuse expected found =>
    cases hstep
    rintro index ⟨⟩
    have hcore := (mem_coreEvents_of_isFault (e := .refuse expected found) rfl).mpr he
    rw [core_parse] at hcore
    obtain ⟨u, rest, htokens, -⟩ := stalls_of_refuse_mem hcore
    exact ⟨by rw [htokens]; simp, rfl⟩
  | exhausted =>
    cases hstep
    rintro index ⟨⟩
  | look | take => cases hstep
  | note n =>
    cases n with
    | enter | leave => cases hstep
    | act a =>
      -- The tokens of an action are of the source, and of the kinds that the action is for.
      have hcore : .note (.act a) ∈ (descend classItems (tokenize source)).1 := by
        rw [← core_parse, coreEvents, List.mem_filter]
        exact ⟨he, rfl⟩
      exact causedAt_perform (kinded_of_mem_descend kinded_classItems hcore)
        (mem_of_act_mem_descend (fun _ => rfl) hcore) hstep

/-- A fault that has a position is reported at its cause, and nowhere else in the source is
that position. -/
theorem faults_point_at_causes {o : Options} {source : String} {fault : Fault Position}
    {place : Position} (h : compile o source = .error fault)
    (hplace : fault.place? = some place) :
    ∃ index, fault.CausedAt source index ∧
      ∀ other, place.Marks source.toList other ↔ other = index := by
  obtain ⟨f, hf, rfl⟩ := compile_eq_error_iff.mp h
  obtain ⟨index, hindex, rfl⟩ : ∃ index, f.place? = some index ∧
      place = Position.ofOffset source.toList index := by
    cases f <;> cases hplace <;> exact ⟨_, rfl, rfl⟩
  have hcaused := causedAt_history hf index hindex
  exact ⟨index, Fault.causedAt_map.mpr hcaused, fun other =>
    Position.marks_ofOffset_iff (hcaused.isBoundary hindex)⟩

def wideSource : String :=
  "class A \x7b function void f() \x7b\n  do g(\"é😀\"); \x7d \x7d"

theorem faults_point_at_causes_wideSource :
    compile {} wideSource = .error (.charOutOfRange '😀' ⟨2, 10⟩) ∧
      Fault.CausedAt wideSource 40 (.charOutOfRange '😀' (⟨2, 10⟩ : Position)) ∧
      ∀ other, (⟨2, 10⟩ : Position).Marks wideSource.toList other ↔ other = 40 := by
  have hcompile : compile {} wideSource = .error (.charOutOfRange '😀' ⟨2, 10⟩) :=
    compile_eq_error_iff.mpr ⟨.charOutOfRange '😀' 40, by decide +kernel, by decide +kernel⟩
  have hmarks : (⟨2, 10⟩ : Position).Marks wideSource.toList 40 :=
    ⟨wideSource.toList.take 39, wideSource.toList.drop 39, (List.take_append_drop ..).symm,
      by decide +kernel, by decide +kernel, by decide +kernel⟩
  obtain ⟨index, hcaused, hindex⟩ := faults_point_at_causes hcompile rfl
  obtain rfl := (hindex 40).mp hmarks
  exact ⟨hcompile, hcaused, hindex⟩

end JackCompiler
