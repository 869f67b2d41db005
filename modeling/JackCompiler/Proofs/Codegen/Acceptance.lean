import JackCompiler.Proofs.Codegen.Classes
import JackCompiler.Proofs.Syntax.CallSites
import JackCompiler.Proofs.Syntax.Language

/-!
# What is compiled

A source without overlong argument lists compiles just if a prefix of its tokens is a word
of the grammar and meets the static conditions (`accepts_iff`). Its program is the code of
the class it begins with.
-/

namespace JackCompiler

theorem compile_eq_ok_iff {o : Options} {source : String} {out : Compiled} :
    compile o source = .ok out ↔
      ((history o source).fault = none ∧ (history o source).program = out.program) ∧
        out.trace = if o.trace then some (history o source).traceText else none := by
  simp only [compile]
  split
  · rename_i h
    obtain ⟨program, trace⟩ := out
    rw [Except.ok.injEq, Compiled.mk.injEq, h]
    simp only [true_and]
    exact and_congr Iff.rfl eq_comm
  · rename_i fault h
    rw [h]
    simp

theorem exists_compile_iff {o : Options} {source : String} :
    (∃ out, compile o source = .ok out) ↔ (history o source).fault = none := by
  refine ⟨fun h => ?_, fun h => ⟨⟨_, _⟩, compile_eq_ok_iff.mpr ⟨⟨h, rfl⟩, rfl⟩⟩⟩
  obtain ⟨out, hout⟩ := h
  exact (compile_eq_ok_iff.mp hout).1.1

theorem ClassDec.Heads.program_iff {tree : ClassDec} {o : Options} {source : String}
    {p : List Instruction} (h : tree.Heads source) :
    (history o source).fault = none ∧ (history o source).program = p ↔
      (tree.Static o ∧ tree.Countable) ∧ p = tree.code o := by
  rw [h.compiles_iff, (tree.performs o).iff_and_eq]

section

variable {o : Options} {source : String} {out : Compiled} {tree : ClassDec}

theorem static_of_compile (h : compile o source = .ok out) (htree : tree.Heads source) :
    tree.Static o :=
  (htree.program_iff.mp (compile_eq_ok_iff.mp h).1).1.1

theorem countable_of_compile (h : compile o source = .ok out) (htree : tree.Heads source) :
    tree.Countable :=
  (htree.program_iff.mp (compile_eq_ok_iff.mp h).1).1.2

theorem program_of_compile (h : compile o source = .ok out) (htree : tree.Heads source) :
    out.program = tree.code o :=
  (htree.program_iff.mp (compile_eq_ok_iff.mp h).1).2

theorem exists_heads (h : compile o source = .ok out) : ∃ tree : ClassDec, tree.Heads source :=
  exists_heads_of_fault (compile_eq_ok_iff.mp h).1.1

theorem compiles_iff : (∃ out, compile o source = .ok out) ↔
    ∃ tree : ClassDec, tree.Heads source ∧ tree.Static o ∧ tree.Countable := by
  refine ⟨fun h => ?_, fun h => ?_⟩
  · obtain ⟨out, hout⟩ := h
    obtain ⟨tree, htree⟩ := exists_heads hout
    exact ⟨tree, htree, static_of_compile hout htree, countable_of_compile hout htree⟩
  · obtain ⟨tree, htree, hstatic⟩ := h
    exact exists_compile_iff.mpr (htree.program_iff.mpr ⟨hstatic, rfl⟩).1

end

/-! ## A small class -/

def loopSource : String :=
  "class A \x7b function int f(int n) \x7b while (n) \x7b let n = A.g(n, 1); \x7d return n; \x7d \x7d"

def loopClass : ClassDec :=
  let name (index : Nat) (text : String) : Name :=
    ⟨⟨.ident, ⟨index, 1⟩, text⟩, List.mem_singleton_self _⟩
  let read (index : Nat) : Expression := .mk (.var (name index "n")) .nil
  let one : Expression := .mk (.integer ⟨⟨.number, ⟨61, 1⟩, "1"⟩, List.mem_singleton_self _⟩) .nil
  let call : Expression :=
    .mk (.call (.member (name 54 "A") (name 56 "g")) (.cons (read 58) (.cons one .nil))) .nil
  let loop : SubroutineDec :=
    { kind := .function
      result := ⟨⟨.keyword .int, ⟨19, 3⟩, "int"⟩, by decide⟩
      name := name 23 "f"
      parameters := [⟨⟨⟨.keyword .int, ⟨25, 3⟩, "int"⟩, by decide⟩, name 29 "n"⟩]
      locals := []
      body := .while_ (read 41) (.let_ (.var (name 50 "n")) call .empty)
        (.return_ (some (read 74)) .empty) }
  ⟨name 6 "A", [], [loop]⟩

theorem heads_loopClass : loopClass.Heads loopSource := by
  refine ⟨(tokenize loopSource).take 34, (tokenize loopSource).drop 34, ?_, ?_⟩
  · rw [List.take_append_drop]
  · decide +kernel

theorem exists_compile_loopSource : ∃ out, compile {} loopSource = .ok out := by
  rw [exists_compile_iff]
  decide +kernel

/-! ## The calls of a class -/

def Action.arguments? : Action → Option Nat
  | .call _ count => some count
  | _ => none

/-- The calls of a class are among the actions of parsing a source that begins with it. -/
theorem ClassDec.Heads.act_mem {tree : ClassDec} {source : String} (h : tree.Heads source)
    {s : SubroutineDec} (hs : s ∈ tree.subroutines) {call : CallSite}
    (hcall : call ∈ s.body.calls) :
    .note (.act (.call call.target.callee call.count)) ∈
      (parse (scan source.toList).toList).toList := by
  obtain ⟨u, rest, hu, es, hr⟩ := h
  obtain ⟨arguments, -, hcode⟩ := s.body.stands call hcall
  have hact : .call call.target.callee call.count ∈ tree.script.actions := by
    have hsite : Part.act (.call call.target.callee call.count) ∈ s.body.script :=
      hcode.subset (by simp [CallName.script, callEndScript])
    refine List.mem_filterMap.mpr ⟨.act (.call call.target.callee call.count), ?_, rfl⟩
    simp only [ClassDec.script, List.mem_append, List.mem_flatMap]
    refine .inl (.inr ⟨s, hs, ?_⟩)
    rw [s.script_eq]
    exact List.mem_append_left _ (List.mem_append_right _ hsite)
  rw [← hr.actions, List.mem_filterMap] at hact
  obtain ⟨e, he, heq⟩ := hact
  have hevents := (descends_class hr rest).descend_eq
  rw [← hu] at hevents
  have hmem : e ∈ coreEvents (parse (scan source.toList).toList) := by
    rw [core_parse, hevents]
    exact he
  cases e with
  | note n =>
    cases n with
    | act a =>
      obtain rfl : a = _ := by simpa [Event.action?] using heq
      exact (List.mem_filter.mp hmem).1
    | enter | leave => cases heq
  | look | take | refuse | exhausted => cases heq

/-! ## The language of the compiler -/

theorem Names.receivers_le (names : Names) (target : CallName) : names.receivers target ≤ 1 := by
  cases target with
  | own name => exact Nat.le_refl 1
  | member qualifier name =>
    rw [receivers]
    split
    · exact Nat.le_refl 1
    · exact Nat.zero_le 1

theorem ClassDec.countable_of_le {tree : ClassDec}
    (h : ∀ s ∈ tree.subroutines, ∀ call ∈ s.body.calls, call.count ≤ 65534) : tree.Countable :=
  fun s hs call hcall =>
    Nat.add_le_add (h s hs call hcall) ((tree.names s).receivers_le call.target)

theorem accepts_iff {o : Options} {source : String}
    (h : ∀ c : ClassDec, c.Heads source →
      ∀ s ∈ c.subroutines, ∀ call ∈ s.body.calls, call.count ≤ 65534) :
    (∃ out, compile o source = .ok out) ↔
      ∃ u, u <+: tokenize source ∧ u.map Token.kind ∈ grammar.language ∧
        ∀ c : ClassDec, c.Spells u → c.Static o := by
  refine ⟨fun h => ?_, fun hu => ?_⟩
  · obtain ⟨out, hout⟩ := h
    obtain ⟨tree, u, rest, hu, hspells⟩ := exists_heads hout
    refine ⟨u, ⟨rest, hu.symm⟩, exists_spells_iff.mp ⟨tree, hspells⟩, fun c hc => ?_⟩
    exact static_of_compile hout ⟨u, rest, hu, hc⟩
  · obtain ⟨u, ⟨rest, hu⟩, hword, hstatic⟩ := hu
    obtain ⟨c, hc⟩ := exists_spells_iff.mpr hword
    have hhead : c.Heads source := ⟨u, rest, hu.symm, hc⟩
    exact compiles_iff.mpr ⟨c, hhead, hstatic c hc, ClassDec.countable_of_le (h c hhead)⟩

theorem accepts_iff_loopSource :
    (∀ c : ClassDec, c.Heads loopSource →
      ∀ s ∈ c.subroutines, ∀ call ∈ s.body.calls, call.count ≤ 65534) ∧
    ∃ u, u <+: tokenize loopSource ∧ u.map Token.kind ∈ grammar.language ∧
      ∀ c : ClassDec, c.Spells u → c.Static {} := by
  have hevents : ∀ e ∈ (parse (scan loopSource.toList).toList).toList,
      ∀ n ∈ e.action?.bind Action.arguments?, n ≤ 65534 := by
    decide +kernel
  have hcalls : ∀ c : ClassDec, c.Heads loopSource →
      ∀ s ∈ c.subroutines, ∀ call ∈ s.body.calls, call.count ≤ 65534 :=
    fun c hc s hs call hcall => hevents _ (hc.act_mem hs hcall) call.count rfl
  exact ⟨hcalls, (accepts_iff hcalls).mp exists_compile_loopSource⟩

end JackCompiler
