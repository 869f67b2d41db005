import JackCompiler.Proofs.Codegen.Calls
import JackCompiler.Proofs.Codegen.Labels
import JackCompiler.Proofs.Codegen.Words
import JackCompiler.Proofs.Machine.Decoding

/-!
# Names in programs

The names in the program of a class are made of words of its source, of dots, dollar signs and
numbers, and of the names of the library. So there is nothing blank in them, and the text of a
program that is compiled can be read back (`program_text_decodes`).
-/

namespace JackCompiler

/-! ## Names are put together -/

theorem IsWord.noBlank {word : List Char} (h : IsWord word) : NoBlank word := by
  intro c hc
  rcases Bool.or_eq_true_iff.mp (h.forall_isWordChar c hc) with hletter | hdigit
  · have hsuits : Lead.letter.Suits c := hletter
    exact Bool.eq_false_of_not_eq_true hsuits.not_isBlank
  · exact isBlank_of_isDigit hdigit

theorem isName_memberText {owner name : String} (howner : IsWord owner.toList)
    (hname : IsWord name.toList) : IsName (memberText owner name) := by
  refine ⟨fun hempty => by simpa [memberText] using congrArg String.toList hempty, ?_⟩
  simp only [memberText, String.toList_append]
  exact (howner.noBlank.append (by decide)).append hname.noBlank

theorem LabelRole.isName_text (role : LabelRole) : IsName role.text := by
  cases role <;> decide

theorem isName_labelText {scope : String} (hscope : NoBlank scope.toList) (role : LabelRole)
    (n : Nat) : IsName (labelText scope role n) := by
  obtain ⟨hne, hrole⟩ := role.isName_text
  refine ⟨fun hempty => hne ?_, ?_⟩
  · have htext := congrArg String.toList hempty
    simp only [labelText, String.toList_append] at htext
    exact String.toList_injective
      (List.append_eq_nil_iff.mp (List.append_eq_nil_iff.mp htext).2).1
  · simp only [labelText, String.toList_append]
    exact hscope.append (hrole.append (noBlank_toString n))

/-! ## The library -/

def Invocation.LibraryNamed : Invocation → Prop
  | .written _ => True
  | .library name _ => IsName name

theorem libraryNamed_textInvocations (text : List Char) :
    ∀ i ∈ textInvocations text, i.LibraryNamed := by
  have hnew : IsName "String.new" := by decide
  have happend : IsName "String.appendChar" := by decide
  exact List.forall_mem_cons.mpr ⟨hnew, List.forall_mem_map.mpr fun _ _ => happend⟩

theorem BinaryOp.libraryNamed (op : BinaryOp) : ∀ i ∈ op.invocations, i.LibraryNamed := by
  have hmultiply : IsName "Math.multiply" := by decide
  have hdivide : IsName "Math.divide" := by decide
  cases op with
  | mul => exact List.forall_mem_singleton.mpr hmultiply
  | div => exact List.forall_mem_singleton.mpr hdivide
  | _ => exact List.forall_mem_nil _

theorem SubroutineKind.libraryNamed (kind : SubroutineKind) :
    ∀ i ∈ kind.invocations, i.LibraryNamed := by
  have halloc : IsName "Memory.alloc" := by decide
  cases kind with
  | constructor => exact List.forall_mem_singleton.mpr halloc
  | _ => exact List.forall_mem_nil _

mutual

theorem Term.libraryNamed : ∀ e : Term, ∀ i ∈ e.invocations, i.LibraryNamed
  | .integer _ | .word _ | .var _ => List.forall_mem_nil _
  | .text literal => libraryNamed_textInvocations literal.token.lexeme.toList
  | .unary _ operand => operand.libraryNamed
  | .group inner => inner.libraryNamed
  | .element _ index => index.libraryNamed
  | .call _ arguments =>
    List.forall_mem_append.mpr ⟨arguments.libraryNamed, List.forall_mem_singleton.mpr trivial⟩

theorem Expression.libraryNamed : ∀ e : Expression, ∀ i ∈ e.invocations, i.LibraryNamed
  | .mk first rest => List.forall_mem_append.mpr ⟨first.libraryNamed, rest.libraryNamed⟩

theorem Operations.libraryNamed : ∀ e : Operations, ∀ i ∈ e.invocations, i.LibraryNamed
  | .nil => List.forall_mem_nil _
  | .cons op operand rest => List.forall_mem_append.mpr
      ⟨List.forall_mem_append.mpr ⟨operand.libraryNamed, op.libraryNamed⟩, rest.libraryNamed⟩

theorem Arguments.libraryNamed : ∀ e : Arguments, ∀ i ∈ e.invocations, i.LibraryNamed
  | .nil => List.forall_mem_nil _
  | .cons first rest => List.forall_mem_append.mpr ⟨first.libraryNamed, rest.libraryNamed⟩

end

theorem Block.libraryNamed (b : Block) : ∀ i ∈ b.invocations, i.LibraryNamed := by
  induction b with
  | empty => exact List.forall_mem_nil _
  | let_ target value next ih =>
    simp only [invocations, List.forall_mem_append]
    have htarget : ∀ i ∈ target.invocations, i.LibraryNamed := by
      cases target with
      | var name => exact List.forall_mem_nil _
      | element array index => exact index.libraryNamed
    exact ⟨⟨htarget, value.libraryNamed⟩, ih⟩
  | if_ condition yes next ihyes ih =>
    simp only [invocations, List.forall_mem_append]
    exact ⟨⟨condition.libraryNamed, ihyes⟩, ih⟩
  | ifElse condition yes no next ihyes ihno ih =>
    simp only [invocations, List.forall_mem_append]
    exact ⟨⟨⟨condition.libraryNamed, ihyes⟩, ihno⟩, ih⟩
  | while_ condition body next ihbody ih =>
    simp only [invocations, List.forall_mem_append]
    exact ⟨⟨condition.libraryNamed, ihbody⟩, ih⟩
  | do_ target arguments next ih =>
    simp only [invocations, List.forall_mem_append, List.forall_mem_singleton]
    exact ⟨⟨arguments.libraryNamed, trivial⟩, ih⟩
  | return_ value next ih =>
    simp only [invocations, List.forall_mem_append]
    have hvalue : ∀ i ∈ resultInvocations value, i.LibraryNamed := by
      cases value with
      | some value => exact value.libraryNamed
      | none => exact List.forall_mem_nil _
    exact ⟨hvalue, ih⟩

/-! ## Classes -/

theorem exists_mem_of_variableOf? {ds : List Declaration} {name : String} {v : Variable}
    (h : variableOf? ds name = some v) : ∃ d ∈ ds, v.type = d.type := by
  induction ds with
  | nil => cases h
  | cons d ds ih =>
    rw [variableOf?] at h
    split at h
    · obtain rfl := Option.some.inj h
      exact ⟨d, List.mem_cons_self, rfl⟩
    · obtain ⟨e, he, htype⟩ := ih h
      exact ⟨e, List.mem_cons_of_mem _ he, htype⟩

namespace ClassDec

variable {tree : ClassDec} {s : SubroutineDec} (o : Options)

theorem isWord_type (h : tree.Worded) (hs : s ∈ tree.subroutines) {name : String} {v : Variable}
    (hv : (tree.names s).find? name = some v) : IsWord v.type.toList := by
  rw [tree.find?_names, Option.or_eq_some_iff] at hv
  rcases hv with hv | ⟨-, hv⟩
  · obtain ⟨d, hd, htype⟩ := exists_mem_of_variableOf? hv
    exact htype ▸ h.inner s hs d (List.mem_reverse.mp hd)
  · obtain ⟨d, hd, htype⟩ := exists_mem_of_variableOf? hv
    exact htype ▸ h.outer d (List.mem_reverse.mp hd)

theorem isName_calleeName (h : tree.Worded) (hs : s ∈ tree.subroutines) {site : CallSite}
    (hsite : site ∈ s.body.calls) : IsName ((tree.names s).calleeName site.target) := by
  have hwords := h.call s hs site hsite
  cases htarget : site.target with
  | own name =>
    rw [htarget] at hwords
    exact isName_memberText h.className (hwords name (List.mem_singleton_self _))
  | member qualifier name =>
    rw [htarget] at hwords
    obtain ⟨hqualifier, hname⟩ := List.forall_mem_cons.mp hwords
    have hname := List.forall_mem_singleton.mp hname
    rw [Names.calleeName]
    cases hv : (tree.names s).find? qualifier.token.lexeme with
    | some v => exact isName_memberText (isWord_type h hs hv) hname
    | none => exact isName_memberText hqualifier hname

theorem isName_invocation (h : tree.Worded) (hs : s ∈ tree.subroutines) {i : Invocation}
    (hi : i ∈ invocations o s) : IsName (i.count (tree.names s)).1 := by
  cases i with
  | written site =>
    have hsite : site ∈ s.body.calls :=
      (perm_calls o s).mem_iff.mp (List.mem_filterMap.mpr ⟨_, hi, rfl⟩)
    exact isName_calleeName h hs hsite
  | library name arguments =>
    rcases List.mem_append.mp hi with hi | hi
    · split at hi
      · exact s.kind.libraryNamed _ hi
      · cases hi
    · exact s.body.libraryNamed _ hi

theorem isName_subroutineName (h : tree.Worded) (hs : s ∈ tree.subroutines) :
    IsName (tree.subroutineName s) :=
  isName_memberText h.className (h.subroutine s hs)

theorem isName_label (h : tree.Worded) (hs : s ∈ tree.subroutines) (key : LabelKey) :
    IsName (key.text (tree.labelScope o s)) := by
  refine isName_labelText ?_ key.1 key.2
  unfold labelScope
  split
  · rw [String.toList_append]
    exact (isName_subroutineName h hs).2.append (by decide)
  · exact List.forall_mem_nil _

/-- Of a block each instruction that has a name is a label, a jump or a call. -/
theorem wellNamed_body (h : tree.Worded) (hs : s ∈ tree.subroutines) :
    ∀ i ∈ (tree.block o s).body, i.WellNamed := by
  intro i hi
  cases i with
  | label name =>
    have hname : name ∈ (tree.block o s).labels := List.mem_filterMap.mpr ⟨_, hi, rfl⟩
    rw [tree.labels_block] at hname
    obtain ⟨key, -, rfl⟩ := List.mem_map.mp hname
    exact Instruction.wellNamed_of_name? rfl (isName_label o h hs key)
  | goto name | ifGoto name =>
    have hname : name ∈ (tree.block o s).targets := List.mem_filterMap.mpr ⟨_, hi, rfl⟩
    rw [tree.targets_block] at hname
    obtain ⟨key, -, rfl⟩ := List.mem_map.mp hname
    exact Instruction.wellNamed_of_name? rfl (isName_label o h hs key)
  | call name n =>
    have hcall : (name, n.toNat) ∈ (tree.block o s).calls := List.mem_filterMap.mpr ⟨_, hi, rfl⟩
    rw [calls_block] at hcall
    obtain ⟨j, hj, hpassed⟩ := List.mem_filterMap.mp hcall
    obtain rfl : (j.count (tree.names s)).1 = name :=
      congrArg Prod.fst (Invocation.count_of_passed? hpassed)
    exact Instruction.wellNamed_of_name? rfl (isName_invocation o h hs hj)
  | function name n => exact absurd (tree.isFunction_block o s _ hi) Bool.noConfusion
  | push | pop | operate | «return» => exact Instruction.wellNamed_of_no_name rfl

theorem wellNamed_code (h : tree.Worded) : ∀ i ∈ tree.code o, i.WellNamed := by
  intro i hi
  obtain ⟨s, hs, hi⟩ := List.mem_flatMap.mp hi
  rcases List.mem_cons.mp hi with rfl | hi
  · exact Instruction.wellNamed_of_name? rfl (isName_subroutineName h hs)
  · exact wellNamed_body o h hs i hi

end ClassDec

/-! ## Programs -/

theorem wellNamed_of_compile {o : Options} {source : String} {out : Compiled}
    (h : compile o source = .ok out) : ∀ i ∈ out.program, i.WellNamed := by
  obtain ⟨tree, htree⟩ := exists_heads h
  rw [program_of_compile h htree]
  exact ClassDec.wellNamed_code o htree.worded

/-- A program whose names are words can be read back off its text, and so can all programs that
are compiled. -/
theorem program_text_decodes :
    (∀ p : List Instruction, (∀ i ∈ p, i.WellNamed) → decode? (programText p) = some p) ∧
      (∀ text p, decode? text = some p → programText p = text) ∧
      (∀ o source out, compile o source = .ok out → ∀ i ∈ out.program, i.WellNamed) ∧
      ∀ source out, compile {} source = .ok out →
        ∃ text, compileToText source = .ok text ∧ decode? text = some out.program := by
  have hread : ∀ p : List Instruction, (∀ i ∈ p, i.WellNamed) →
      decode? (programText p) = some p :=
    fun p hp => decode?_eq_some_iff.mpr ⟨rfl, hp⟩
  refine ⟨hread, fun text p h => (decode?_eq_some_iff.mp h).1,
    fun o source out => wellNamed_of_compile, fun source out h => ?_⟩
  refine ⟨programText out.program, ?_, hread _ (wellNamed_of_compile h)⟩
  rw [compileToText, h]
  rfl

theorem program_text_decodes_loopSource : ∃ out text, compile {} loopSource = .ok out ∧
    compileToText loopSource = .ok text ∧ decode? text = some out.program ∧
      ∀ i ∈ out.program, i.WellNamed := by
  obtain ⟨-, -, hnamed, htext⟩ := program_text_decodes
  obtain ⟨out, hout⟩ := exists_compile_loopSource
  obtain ⟨text, hcompile, hdecode⟩ := htext _ out hout
  exact ⟨out, text, hout, hcompile, hdecode, hnamed _ _ out hout⟩

end JackCompiler
