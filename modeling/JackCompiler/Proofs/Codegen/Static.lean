import JackCompiler.Proofs.Codegen.Code

/-!
# Static conditions

What a class has to meet besides the grammar: its variables are declared, its constants
fit the machine, no scope has too many variables and, in strict compilations, names are
declared once and calls name known classes.
-/

namespace JackCompiler

/-! ## Uses of tokens -/

/-- How a token of a body is used, where not every token will do. -/
inductive Use
  /-- The name of a variable that is read, stored into or indexed. -/
  | storage (name : Token)
  | integer (literal : Token)
  | text (literal : Token)
  | qualifier (name : Token)

def decimalValue (digits : List Char) : Nat :=
  Nat.ofDigitChars 10 digits 0

def Use.Allowed (o : Options) (names : Names) : Use → Prop
  | .storage name => (names.find? name.lexeme).isSome
  | .integer literal => decimalValue literal.lexeme.toList ≤ 32767
  | .text literal => literal.lexeme.toList.length ≤ 32767 ∧
      ∀ c ∈ literal.lexeme.toList, c.toNat ≤ 32767
  | .qualifier name => (names.find? name.lexeme).isSome ∨
      (o.strict → name.lexeme = names.className ∨ name.lexeme ∈ o.knownClasses)

def CallName.uses : CallName → List Use
  | .own _ => []
  | .member qualifier _ => [.qualifier qualifier.token]

mutual

def Term.uses : Term → List Use
  | .integer literal => [.integer literal.token]
  | .text literal => [.text literal.token]
  | .word _ => []
  | .unary _ operand => operand.uses
  | .group inner => inner.uses
  | .var name => [.storage name.token]
  | .element array index => .storage array.token :: index.uses
  | .call target arguments => target.uses ++ arguments.uses

def Expression.uses : Expression → List Use
  | .mk first rest => first.uses ++ rest.uses

def Operations.uses : Operations → List Use
  | .nil => []
  | .cons _ operand rest => operand.uses ++ rest.uses

def Arguments.uses : Arguments → List Use
  | .nil => []
  | .cons first rest => first.uses ++ rest.uses

end

def Target.uses : Target → List Use
  | .var name => [.storage name.token]
  | .element array index => .storage array.token :: index.uses

def resultUses : Option Expression → List Use
  | some value => value.uses
  | none => []

def Block.uses : Block → List Use
  | .empty => []
  | .let_ target value next => target.uses ++ value.uses ++ next.uses
  | .if_ condition yes next => condition.uses ++ yes.uses ++ next.uses
  | .ifElse condition yes no next => condition.uses ++ yes.uses ++ no.uses ++ next.uses
  | .while_ condition body next => condition.uses ++ body.uses ++ next.uses
  | .do_ target arguments next => target.uses ++ arguments.uses ++ next.uses
  | .return_ value next => resultUses value ++ next.uses

def Block.Allowed (o : Options) (names : Names) (b : Block) : Prop :=
  ∀ use ∈ b.uses, use.Allowed o names

/-! ## Classes -/

namespace ClassDec

def Declares (c : ClassDec) (s : SubroutineDec) (name : String) : Prop :=
  (∃ d ∈ c.localDeclarations s, d.name = name) ∨ ∃ d ∈ c.declarations, d.name = name

def Allows (c : ClassDec) (o : Options) (s : SubroutineDec) : Use → Prop
  | .storage name => c.Declares s name.lexeme
  | .integer literal => decimalValue literal.lexeme.toList ≤ 32767
  | .text literal => literal.lexeme.toList.length ≤ 32767 ∧
      ∀ ch ∈ literal.lexeme.toList, ch.toNat ≤ 32767
  | .qualifier name => c.Declares s name.lexeme ∨
      (o.strict = true → name.lexeme = c.name.token.lexeme ∨ name.lexeme ∈ o.knownClasses)

structure Static (c : ClassDec) (o : Options) : Prop where
  outerCount : ∀ kind, countOf kind c.declarations ≤ 65535
  innerCount : ∀ s ∈ c.subroutines, ∀ kind, countOf kind (c.localDeclarations s) ≤ 65535
  outerNames : o.strict = true → (c.declarations.map Declaration.name).Nodup
  innerNames : o.strict = true →
    ∀ s ∈ c.subroutines, ((c.localDeclarations s).map Declaration.name).Nodup
  uses : ∀ s ∈ c.subroutines, ∀ use ∈ s.body.uses, c.Allows o s use

/-- The subroutine's declarations hide those of the class. -/
theorem find?_names (c : ClassDec) (s : SubroutineDec) (name : String) :
    (c.names s).find? name =
      (variableOf? (c.localDeclarations s).reverse name).or
        (variableOf? c.declarations.reverse name) := by
  rw [Option.or_eq_orElse]
  rfl

theorem declares_iff (c : ClassDec) (s : SubroutineDec) (name : String) :
    c.Declares s name ↔ ((c.names s).find? name).isSome := by
  rw [c.find?_names, Option.isSome_or, Bool.or_eq_true, variableOf?_isSome, variableOf?_isSome,
    List.mem_map, List.mem_map, Declares]
  simp only [List.mem_reverse]

theorem allows_iff (c : ClassDec) (o : Options) (s : SubroutineDec) (use : Use) :
    c.Allows o s use ↔ use.Allowed o (c.names s) := by
  cases use with
  | storage name => exact c.declares_iff s name.lexeme
  | integer | text => exact Iff.rfl
  | qualifier name => exact or_congr (c.declares_iff s name.lexeme) Iff.rfl

theorem admissible_iff {o : Options} {ds : List Declaration} :
    Admissible o.duplicates ds ↔ (∀ kind, countOf kind ds ≤ 65535) ∧
      (o.strict = true → (ds.map Declaration.name).Nodup) := by
  rw [Admissible, Options.duplicates]
  cases o.strict <;> simp

namespace Static

variable {c : ClassDec} {o : Options}

theorem outer (h : c.Static o) : Admissible o.duplicates c.declarations :=
  admissible_iff.mpr ⟨h.outerCount, h.outerNames⟩

theorem inner (h : c.Static o) {s : SubroutineDec} (hs : s ∈ c.subroutines) :
    Admissible o.duplicates (c.localDeclarations s) :=
  admissible_iff.mpr ⟨h.innerCount s hs, fun ho => h.innerNames ho s hs⟩

theorem body (h : c.Static o) {s : SubroutineDec} (hs : s ∈ c.subroutines) :
    s.body.Allowed o (c.names s) :=
  fun use hu => (c.allows_iff o s use).mp (h.uses s hs use hu)

theorem fieldCount_le (h : c.Static o) : c.fieldCount ≤ 65535 :=
  h.outerCount .field

end Static

theorem static_iff {c : ClassDec} {o : Options} :
    c.Static o ↔ Admissible o.duplicates c.declarations ∧ ∀ s ∈ c.subroutines,
      Admissible o.duplicates (c.localDeclarations s) ∧ s.body.Allowed o (c.names s) := by
  refine ⟨fun h => ⟨h.outer, fun s hs => ⟨h.inner hs, h.body hs⟩⟩, fun h => ?_⟩
  obtain ⟨houter, hinner⟩ := h
  obtain ⟨hcount, hnames⟩ := admissible_iff.mp houter
  refine ⟨hcount, fun s hs => (admissible_iff.mp (hinner s hs).1).1, hnames, fun ho s hs => ?_,
    fun s hs use hu => (c.allows_iff o s use).mpr ((hinner s hs).2 use hu)⟩
  exact (admissible_iff.mp (hinner s hs).1).2 ho

end ClassDec

/-! ## Numbers of arguments -/

def CallSite.Countable (names : Names) (call : CallSite) : Prop :=
  call.count + names.receivers call.target ≤ 65535

instance (names : Names) (call : CallSite) : Decidable (call.Countable names) :=
  inferInstanceAs (Decidable (_ ≤ _))

def AllCountable (names : Names) (calls : List CallSite) : Prop :=
  ∀ call ∈ calls, call.Countable names

@[simp] theorem allCountable_nil (names : Names) : AllCountable names [] :=
  List.forall_mem_nil _

@[simp] theorem allCountable_cons {names : Names} {call : CallSite} {calls : List CallSite} :
    AllCountable names (call :: calls) ↔ call.Countable names ∧ AllCountable names calls :=
  List.forall_mem_cons

@[simp] theorem allCountable_append {names : Names} {calls others : List CallSite} :
    AllCountable names (calls ++ others) ↔ AllCountable names calls ∧ AllCountable names others :=
  List.forall_mem_append

theorem CallSite.Countable.call_eq {names : Names} {call : CallSite} (h : call.Countable names) :
    names.call call.target call.count = [.call (names.calleeName call.target)
      (UInt16.ofNat (call.count + names.receivers call.target))] := by
  rw [Names.call, dif_pos (Nat.lt_succ_of_le h), UInt16.ofNatLT_eq_ofNat]

theorem CallSite.Countable.toNat_eq {names : Names} {call : CallSite} (h : call.Countable names) :
    (UInt16.ofNat (call.count + names.receivers call.target)).toNat =
      call.count + names.receivers call.target :=
  UInt16.toNat_ofNat_of_lt (Nat.lt_succ_of_le h)

theorem CallSite.call_of_not_countable {names : Names} {call : CallSite}
    (h : ¬ call.Countable names) : names.call call.target call.count = [] :=
  dif_neg fun hlt => h (Nat.le_of_lt_succ hlt)

def ClassDec.Countable (tree : ClassDec) : Prop :=
  ∀ s ∈ tree.subroutines, AllCountable (tree.names s) s.body.calls

instance (tree : ClassDec) : Decidable tree.Countable :=
  inferInstanceAs (Decidable (∀ s ∈ tree.subroutines, ∀ call ∈ s.body.calls,
    call.Countable (tree.names s)))

end JackCompiler
