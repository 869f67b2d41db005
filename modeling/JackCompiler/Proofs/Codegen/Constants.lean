import JackCompiler.Proofs.Codegen.Acceptance
import JackCompiler.Proofs.Codegen.Contents
import JackCompiler.Proofs.Token.Lines

/-!
# Constants

A constant that stands in a source is checked before it is pushed, and the characters and
the length of a text with it. The number of fields, which the set-up of an object pushes,
is not (`exists_push_of_fields`): a program has only constants for the machine just if that
number is one, or no constructor is set up (`constants_fit_iff`).
-/

namespace JackCompiler

/-! ## Code with constants for the machine -/

def Instruction.fits : Instruction → Bool
  | .push .constant n => n.toNat ≤ 32767
  | _ => true

theorem Instruction.fits_push_iff {n : UInt16} :
    (push .constant n).fits = true ↔ n.toNat ≤ 32767 :=
  decide_eq_true_iff

def Fitting (code : List Instruction) : Prop :=
  ∀ i ∈ code, i.fits = true

instance (code : List Instruction) : Decidable (Fitting code) :=
  inferInstanceAs (Decidable (∀ i ∈ code, i.fits = true))

namespace Fitting

theorem nil : Fitting [] := by
  simp [Fitting]

theorem append {p q : List Instruction} (hp : Fitting p) (hq : Fitting q) : Fitting (p ++ q) :=
  List.forall_mem_append.mpr ⟨hp, hq⟩

theorem cons {i : Instruction} {p : List Instruction} (hi : i.fits = true) (hp : Fitting p) :
    Fitting (i :: p) :=
  List.forall_mem_cons.mpr ⟨hi, hp⟩

theorem flatMap {α : Type} {f : α → List Instruction} {xs : List α}
    (h : ∀ x ∈ xs, Fitting (f x)) : Fitting (xs.flatMap f) := by
  intro i hi
  obtain ⟨x, hx, hi⟩ := List.mem_flatMap.mp hi
  exact h x hx i hi

end Fitting

theorem fitting_iff {code : List Instruction} :
    Fitting code ↔ ∀ n, .push .constant n ∈ code → n.toNat ≤ 32767 := by
  refine ⟨fun h n hn => Instruction.fits_push_iff.mp (h _ hn), fun h i hi => ?_⟩
  cases i with
  | push segment n =>
    cases segment with
    | constant => exact Instruction.fits_push_iff.mpr (h n hi)
    | _ => rfl
  | _ => rfl

/-! ## Bodies -/

theorem fits_loadCode (v : Variable) : (loadCode v).fits = true := by
  obtain ⟨name, type, kind, index⟩ := v
  cases kind <;> rfl

theorem Instruction.Usual.fits {names : Names} {i : Instruction} (h : i.Usual names) :
    i.fits = true := by
  cases h with
  | @constant n h =>
    have hvalue : (UInt16.ofNat n).toNat = n :=
      UInt16.toNat_ofNat_of_lt (Nat.lt_of_le_of_lt h (by decide))
    exact fits_push_iff.mpr (hvalue.symm ▸ h)
  | load h => exact fits_loadCode _
  | _ => rfl

theorem Block.fitting {o : Options} {names : Names} {b : Block} (hu : b.Allowed o names)
    (scope : String) (i w : Nat) : Fitting (b.code names scope i w) :=
  fun x hx => (Block.usual_code hu scope i w x hx).fits

/-! ## Classes -/

theorem fitting_setupCode_iff {fields : UInt16} {kind : SubroutineKind} :
    Fitting (setupCode fields kind) ↔ (kind = .constructor → fields.toNat ≤ 32767) := by
  cases kind with
  | constructor => simp [Fitting, setupCode, pushConstant, Instruction.fits]
  | method => simp [Fitting, setupCode, Instruction.fits]
  | function => simp [Fitting, setupCode]

namespace ClassDec

def SetsUp (c : ClassDec) (o : Options) : Prop :=
  o.objectSetup = true ∧ ∃ s ∈ c.subroutines, s.kind = .constructor

variable {tree : ClassDec} {o : Options}

theorem fitting_setup_iff (h : tree.Static o) (s : SubroutineDec) :
    Fitting (tree.setup o s) ↔
      (o.objectSetup = true → s.kind = .constructor → tree.fieldCount ≤ 32767) := by
  have hcount : (UInt16.ofNat (countOf .field tree.declarations)).toNat = tree.fieldCount :=
    UInt16.toNat_ofNat_of_lt (Nat.lt_succ_of_le h.fieldCount_le)
  unfold setup
  by_cases ho : o.objectSetup = true
  · rw [if_pos ho, fitting_setupCode_iff, hcount]
    simp only [ho, true_imp_iff]
  · simp [ho, Fitting.nil]

theorem fitting_code_iff (h : tree.Static o) :
    Fitting (tree.code o) ↔ (tree.SetsUp o → tree.fieldCount ≤ 32767) := by
  have hblock : ∀ s ∈ tree.subroutines,
      (Fitting (tree.block o s).code ↔ Fitting (tree.setup o s)) := by
    intro s hs
    have hbody : Fitting (tree.bodyCode o s) := Block.fitting (h.body hs) _ 0 0
    refine ⟨fun hcode i hi => hcode i ?_, fun hsetup => .cons rfl (hsetup.append hbody)⟩
    exact List.mem_cons_of_mem _ (List.mem_append_left _ hi)
  refine ⟨fun hcode hsets => ?_, fun hfields => .flatMap fun s hs => ?_⟩
  · obtain ⟨ho, s, hs, hkind⟩ := hsets
    have hsetup := (hblock s hs).mp fun i hi => hcode i (List.mem_flatMap.mpr ⟨s, hs, hi⟩)
    exact (fitting_setup_iff h s).mp hsetup ho hkind
  · rw [hblock s hs, fitting_setup_iff h]
    exact fun ho hkind => hfields ⟨ho, s, hs, hkind⟩

end ClassDec

/-! ## Classes of many fields -/

def fieldLines : Nat → String
  | 0 => "; constructor A new() \x7b return this; \x7d \x7d"
  | n + 1 => ",a" ++ "\n" ++ fieldLines n

def fieldsHead : String :=
  "class A \x7b field int a"

def fieldsSource (n : Nat) : String :=
  fieldsHead ++ "\n" ++ fieldLines n

def newSubroutine (d : Nat) : SubroutineDec :=
  { kind := .constructor
    result := ⟨⟨.ident, ⟨14 + d, 1⟩, "A"⟩, (by decide : Terminal.ident ∈ resultTypes)⟩
    name := ⟨⟨.ident, ⟨16 + d, 3⟩, "new"⟩, List.mem_singleton_self _⟩
    parameters := []
    locals := []
    body := .return_ (some (.mk (.word .this) .nil)) .empty }

def fieldsClass (more : List Name) (d : Nat) : ClassDec :=
  let first : Name := ⟨⟨.ident, ⟨20, 1⟩, "a"⟩, List.mem_singleton_self _⟩
  { name := ⟨⟨.ident, ⟨6, 1⟩, "A"⟩, List.mem_singleton_self _⟩
    variableDecs := [⟨.field, rfl, ⟨⟨⟨.keyword .int, ⟨16, 3⟩, "int"⟩, by decide⟩, first, more⟩⟩]
    subroutines := [newSubroutine d] }

theorem exists_spelled_fieldLines (type : Token) (n d : Nat) :
    ∃ (more : List Name) (e : Nat) (u : List Token) (t : Token), more.length = n ∧
      (tokenize (fieldLines n)).map (Token.move d) = u ++ [t] ∧
      Script.Spelled (moreNamesScript .field type more ++
        ([Part.mark .semicolon, .leave .classVarDec] ++ (newSubroutine e).script ++
          [Part.mark .rightBrace, .leave .classDec])) u := by
  induction n generalizing d with
  | zero =>
    have htokens : tokenize (fieldLines 0) =
        [⟨.mark .semicolon, ⟨0, 1⟩, ";"⟩, ⟨.keyword .constructor, ⟨2, 11⟩, "constructor"⟩,
          ⟨.ident, ⟨14, 1⟩, "A"⟩, ⟨.ident, ⟨16, 3⟩, "new"⟩, ⟨.mark .leftParen, ⟨19, 1⟩, "("⟩,
          ⟨.mark .rightParen, ⟨20, 1⟩, ")"⟩, ⟨.mark .leftBrace, ⟨22, 1⟩, "\x7b"⟩,
          ⟨.keyword .return_, ⟨24, 6⟩, "return"⟩, ⟨.keyword .this_, ⟨31, 4⟩, "this"⟩,
          ⟨.mark .semicolon, ⟨35, 1⟩, ";"⟩, ⟨.mark .rightBrace, ⟨37, 1⟩, "\x7d"⟩,
          ⟨.mark .rightBrace, ⟨39, 1⟩, "\x7d"⟩] ++ [⟨.finish, ⟨40, 0⟩, ""⟩] := by
      decide +kernel
    refine ⟨[], d, _, _, rfl, by rw [htokens, List.map_append]; rfl, ?_⟩
    exact ⟨_, _, rfl, rfl, _, _, rfl, rfl, _, rfl, _, rfl, _, _, rfl, rfl, _, _, rfl, rfl,
      _, _, rfl, rfl, _, _, rfl, rfl, _, _, rfl, rfl, _, _, rfl, rfl, _, _, rfl, rfl,
      _, _, rfl, rfl, rfl⟩
  | succ n ih =>
    have hclosed : Closed ",a".toList := by decide +kernel
    have htokens : (tokenize ",a").dropLast =
        [⟨.mark .comma, ⟨0, 1⟩, ","⟩, ⟨.ident, ⟨1, 1⟩, "a"⟩] := by
      decide +kernel
    obtain ⟨more, e, u, t, hlength, hu, hspelled⟩ := ih (byteSize ",a".toList + 1 + d)
    refine ⟨⟨⟨.ident, ⟨1 + d, 1⟩, "a"⟩, List.mem_singleton_self _⟩ :: more, e,
      ⟨.mark .comma, ⟨0 + d, 1⟩, ","⟩ :: ⟨.ident, ⟨1 + d, 1⟩, "a"⟩ :: u, t,
      congrArg (· + 1) hlength, ?_, ?_⟩
    · rw [fieldLines, tokenize_append_line hclosed, htokens, List.map_append,
        Token.map_move_move, hu]
      rfl
    · exact ⟨_, _, rfl, rfl, _, rfl, hspelled⟩

theorem exists_heads_fieldsSource (n : Nat) :
    ∃ more d, more.length = n ∧ (fieldsClass more d).Heads (fieldsSource n) := by
  have hclosed : Closed fieldsHead.toList := by decide +kernel
  have htokens : (tokenize fieldsHead).dropLast =
      [⟨.keyword .class_, ⟨0, 5⟩, "class"⟩, ⟨.ident, ⟨6, 1⟩, "A"⟩,
        ⟨.mark .leftBrace, ⟨8, 1⟩, "\x7b"⟩, ⟨.keyword .field, ⟨10, 5⟩, "field"⟩,
        ⟨.keyword .int, ⟨16, 3⟩, "int"⟩, ⟨.ident, ⟨20, 1⟩, "a"⟩] := by
    decide +kernel
  obtain ⟨more, d, u, t, hlength, hu, hspelled⟩ := exists_spelled_fieldLines
    ⟨.keyword .int, ⟨16, 3⟩, "int"⟩ n (byteSize fieldsHead.toList + 1)
  have hscript : (fieldsClass more d).script = [Part.enter .classDec, .keyword .class_,
      .token ⟨.ident, ⟨6, 1⟩, "A"⟩, .act (.nameClass ⟨.ident, ⟨6, 1⟩, "A"⟩), .mark .leftBrace,
      .enter .classVarDec, .keyword .field, .token ⟨.keyword .int, ⟨16, 3⟩, "int"⟩,
      .token ⟨.ident, ⟨20, 1⟩, "a"⟩,
      .act (.declare .field ⟨.keyword .int, ⟨16, 3⟩, "int"⟩ ⟨.ident, ⟨20, 1⟩, "a"⟩)] ++
      (moreNamesScript .field ⟨.keyword .int, ⟨16, 3⟩, "int"⟩ more ++
        ([Part.mark .semicolon, .leave .classVarDec] ++ (newSubroutine d).script ++
          [Part.mark .rightBrace, .leave .classDec])) := by
    simp [ClassDec.script, fieldsClass, ClassVarDec.script, Declared.script, nameScript,
      VariableKind.keyword]
  refine ⟨more, d, hlength, (tokenize fieldsHead).dropLast ++ u, [t], ?_, ?_⟩
  · rw [fieldsSource, tokenize_append_line hclosed, hu, List.append_assoc]
  · rw [ClassDec.Spells, ← Script.spelled_iff_exists_reads, htokens, hscript]
    exact ⟨_, _, rfl, rfl, _, rfl, _, _, rfl, rfl, _, _, rfl, rfl, _, rfl, _, rfl, hspelled⟩

section Fields

variable (more : List Name) (d : Nat)

theorem declarations_fieldsClass :
    (fieldsClass more d).declarations =
      (more.map fun name => ⟨.field, "int", name.token.lexeme⟩).cons ⟨.field, "int", "a"⟩ := by
  simp [ClassDec.declarations, fieldsClass, Declared.declarations]

theorem fieldCount_fieldsClass : (fieldsClass more d).fieldCount = more.length + 1 := by
  rw [ClassDec.fieldCount, declarations_fieldsClass, countOf_cons, countOf, List.countP_map]
  simp

theorem static_fieldsClass (hmore : more.length < 65535) {o : Options} (ho : o.strict = false) :
    (fieldsClass more d).Static o := by
  have hlength : (fieldsClass more d).declarations.length = more.length + 1 := by
    rw [declarations_fieldsClass]
    simp
  have hstrict : ¬ o.strict = true := by
    rw [ho]
    exact Bool.false_ne_true
  refine ⟨fun kind => ?_, ?_, fun h => absurd h hstrict, fun h => absurd h hstrict, ?_⟩
  · have hcount := List.countP_le_length (p := fun d : Declaration => decide (d.kind = kind))
      (l := (fieldsClass more d).declarations)
    rw [hlength] at hcount
    exact hcount.trans hmore
  · intro s hs kind
    obtain rfl := List.mem_singleton.mp hs
    exact Nat.zero_le _
  · intro s hs use huse
    obtain rfl := List.mem_singleton.mp hs
    cases huse

end Fields

theorem countable_fieldsClass (more : List Name) (d : Nat) : (fieldsClass more d).Countable := by
  intro s hs
  obtain rfl := List.mem_singleton.mp hs
  exact allCountable_nil _

theorem exists_push_of_fields {n : Nat} (hn : n < 65535) :
    ∃ out, compile { objectSetup := true } (fieldsSource n) = .ok out ∧
      .push .constant (UInt16.ofNat (n + 1)) ∈ out.program := by
  obtain ⟨more, d, rfl, htree⟩ := exists_heads_fieldsSource n
  have hstatic := static_fieldsClass more d hn (o := { objectSetup := true }) rfl
  obtain ⟨out, hout⟩ := compiles_iff.mpr ⟨_, htree, hstatic, countable_fieldsClass more d⟩
  refine ⟨out, hout, ?_⟩
  rw [program_of_compile hout htree, ← fieldCount_fieldsClass more d]
  refine List.mem_flatMap.mpr ⟨newSubroutine d, List.mem_singleton_self _, ?_⟩
  exact List.mem_cons_of_mem _ (List.mem_append_left _ (List.mem_cons_self ..))

/-! ## Programs -/

theorem constants_fit_iff {o : Options} {source : String} {out : Compiled} {tree : ClassDec}
    (h : compile o source = .ok out) (htree : tree.Heads source) :
    (∀ n, .push .constant n ∈ out.program → n.toNat ≤ 32767) ↔
      (tree.SetsUp o → tree.fieldCount ≤ 32767) := by
  rw [← fitting_iff, program_of_compile h htree,
    tree.fitting_code_iff (static_of_compile h htree)]

theorem constants_fit_iff_fields : ∃ out more d,
    compile { objectSetup := true } (fieldsSource 32767) = .ok out ∧
      (fieldsClass more d).Heads (fieldsSource 32767) ∧
      ¬ ∀ n, .push .constant n ∈ out.program → n.toNat ≤ 32767 := by
  obtain ⟨out, hout, -⟩ := exists_push_of_fields (n := 32767) (by decide)
  obtain ⟨more, d, hlength, htree⟩ := exists_heads_fieldsSource 32767
  refine ⟨out, more, d, hout, htree, fun hfit => ?_⟩
  have hsetsUp : (fieldsClass more d).SetsUp { objectSetup := true } :=
    ⟨rfl, newSubroutine d, List.mem_singleton_self _, rfl⟩
  have hcount := (constants_fit_iff hout htree).mp hfit hsetsUp
  rw [fieldCount_fieldsClass, hlength] at hcount
  exact absurd hcount (by decide)

theorem constants_too_large : ¬ ∀ o source out, compile o source = .ok out →
    ∀ n, .push .constant n ∈ out.program → n.toNat ≤ 32767 := by
  intro h
  obtain ⟨out, hout, hpush⟩ := exists_push_of_fields (n := 32767) (by decide)
  exact absurd (h _ _ out hout _ hpush) (by decide)

end JackCompiler
