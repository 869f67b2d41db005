import Mathlib.Data.List.Basic
import JackCompiler.Proofs.Codegen.Labels
import JackCompiler.Proofs.Codegen.Words

/-!
# Qualified labels

Classes that are compiled with qualified labels can be put into one program: no two of its
labels are the same, and each jump goes to a label of its own subroutine
(`qualified_labels_unique`).
-/

namespace JackCompiler

/-! ## Names are taken apart -/

theorem memberText_injective {owner owner' name name' : String} (howner : '.' ∉ owner.toList)
    (hname : '.' ∉ name.toList) (h : memberText owner name = memberText owner' name') :
    owner = owner' ∧ name = name' := by
  have htext : owner.toList ++ '.' :: name.toList = owner'.toList ++ '.' :: name'.toList := by
    simpa [memberText] using congrArg String.toList h
  obtain ⟨h₁, -, h₂⟩ := (List.append_cons_inj_of_notMem howner hname).mp htext
  exact ⟨String.toList_injective h₁, String.toList_injective h₂⟩

theorem LabelRole.text_no_dollar (role : LabelRole) : '$' ∉ role.text.toList := by
  cases role <;> decide

/-- What stands before the dollar sign of a label is the name of its subroutine. -/
theorem labelText_scope_injective {name name' : String} {role role' : LabelRole} {n n' : Nat}
    (hname : '$' ∉ name.toList)
    (h : labelText (name ++ "$") role n = labelText (name' ++ "$") role' n') : name = name' := by
  have htext : name.toList ++ '$' :: (role.text.toList ++ Nat.toDigits 10 n) =
      name'.toList ++ '$' :: (role'.text.toList ++ Nat.toDigits 10 n') := by
    simpa [labelText] using congrArg String.toList h
  have hdigits : '$' ∉ Nat.toDigits 10 n := fun hmem =>
    absurd (Nat.isDigit_of_mem_toDigits (by decide) (by decide) hmem) (by decide)
  have hkey : '$' ∉ role.text.toList ++ Nat.toDigits 10 n := fun hmem =>
    (List.mem_append.mp hmem).elim role.text_no_dollar hdigits
  exact String.toList_injective ((List.append_cons_inj_of_notMem hname hkey).mp htext).1

/-! ## Blocks of qualified labels -/

structure CodeBlock.Qualified (b : CodeBlock) : Prop where
  no_dollar : '$' ∉ b.name.toList
  labels : ∀ label ∈ b.labels, ∃ key : LabelKey, label = key.text (b.name ++ "$")

theorem CodeBlock.Qualified.disjoint {b b' : CodeBlock} (hb : b.Qualified) (hb' : b'.Qualified)
    (hname : b.name ≠ b'.name) : b.labels.Disjoint b'.labels := by
  intro label hlabel hlabel'
  obtain ⟨key, rfl⟩ := hb.labels label hlabel
  obtain ⟨key', he⟩ := hb'.labels _ hlabel'
  exact hname (labelText_scope_injective hb.no_dollar he)

/-- In a row of blocks with different names, each jump goes to one label, which is its block's. -/
theorem jumps_of_qualified {bs : List CodeBlock} (hnames : (bs.map CodeBlock.name).Nodup)
    (hclosed : ∀ b ∈ bs, b.Closed) (hqualified : ∀ b ∈ bs, b.Qualified) :
    (bs.flatMap CodeBlock.labels).Nodup ∧ ∀ b ∈ bs, ∀ target ∈ b.targets,
      (bs.flatMap CodeBlock.labels).count target = 1 ∧ target ∈ b.labels := by
  have hdifferent : bs.Pairwise (·.name ≠ ·.name) := List.pairwise_map.mp hnames
  have hnodup : (bs.flatMap CodeBlock.labels).Nodup :=
    List.nodup_flatMap.mpr ⟨fun b hb => (hclosed b hb).1, hdifferent.imp_of_mem
      fun hb hb' hne => (hqualified _ hb).disjoint (hqualified _ hb') hne⟩
  refine ⟨hnodup, fun b hb target ht => ?_⟩
  have hmem : target ∈ b.labels :=
    List.count_pos_iff.mp (by rw [(hclosed b hb).2 target ht]; exact Nat.one_pos)
  exact ⟨List.count_eq_one_of_mem hnodup (List.mem_flatMap.mpr ⟨b, hb, hmem⟩), hmem⟩

theorem labels_flatMap_code (bs : List CodeBlock) :
    (bs.flatMap CodeBlock.code).filterMap Instruction.label? = bs.flatMap CodeBlock.labels := by
  rw [List.filterMap_flatMap]
  rfl

/-! ## Classes -/

/-- A class compiled with qualified labels, whose subroutines have different names. -/
structure QualifiedClass where
  options : Options
  source : String
  tree : ClassDec
  out : Compiled
  compile_eq : compile options source = .ok out
  heads : tree.Heads source
  qualified : options.qualifyLabels = true
  distinct : (tree.subroutines.map fun s => s.name.token.lexeme).Nodup

namespace QualifiedClass

variable (c : QualifiedClass)

def name : String :=
  c.tree.name.token.lexeme

def blocks : List CodeBlock :=
  c.tree.subroutines.map (c.tree.block c.options)

theorem program_eq : c.out.program = c.blocks.flatMap CodeBlock.code := by
  rw [program_of_compile c.compile_eq c.heads, blocks, List.flatMap_map]
  rfl

theorem map_name_blocks : c.blocks.map CodeBlock.name =
    c.tree.subroutines.map fun s => memberText c.name s.name.token.lexeme := by
  rw [blocks, List.map_map]
  rfl

variable {c}

theorem names_of_memberText_eq {s : SubroutineDec} (hs : s ∈ c.tree.subroutines)
    {owner name : String} (h : memberText c.name s.name.token.lexeme = memberText owner name) :
    c.name = owner ∧ s.name.token.lexeme = name :=
  memberText_injective (c.heads.worded.className.not_mem (by decide))
    ((c.heads.worded.subroutine s hs).not_mem (by decide)) h

theorem nodup_names (c : QualifiedClass) : (c.blocks.map CodeBlock.name).Nodup := by
  rw [map_name_blocks, List.Nodup, List.pairwise_map]
  have hdistinct := List.pairwise_map.mp c.distinct
  exact hdistinct.imp_of_mem fun hs _ hne he => hne (names_of_memberText_eq hs he).2

theorem disjoint_names {c' : QualifiedClass} (hne : c.name ≠ c'.name) :
    (c.blocks.map CodeBlock.name).Disjoint (c'.blocks.map CodeBlock.name) := by
  rw [map_name_blocks, map_name_blocks]
  intro name hname hname'
  obtain ⟨s, hs, rfl⟩ := List.mem_map.mp hname
  obtain ⟨t, -, he⟩ := List.mem_map.mp hname'
  exact hne (names_of_memberText_eq hs he.symm).1

theorem of_mem_blocks {b : CodeBlock} (hb : b ∈ c.blocks) :
    (∀ i ∈ b.body, i.isFunction = false) ∧ b.Closed ∧ b.Qualified := by
  obtain ⟨s, hs, rfl⟩ := List.mem_map.mp hb
  refine ⟨c.tree.isFunction_block c.options s, c.tree.closed_block c.options s, ?_, ?_⟩
  · have hname := (c.heads.worded.subroutine s hs).not_mem (c := '$') (by decide)
    have hclass := c.heads.worded.className.not_mem (c := '$') (by decide)
    show '$' ∉ (memberText c.tree.name.token.lexeme s.name.token.lexeme).toList
    simp [memberText, hname, hclass]
  · intro label hlabel
    rw [c.tree.labels_block, ClassDec.labelScope, if_pos c.qualified] at hlabel
    obtain ⟨key, -, rfl⟩ := List.mem_map.mp hlabel
    exact ⟨key, rfl⟩

end QualifiedClass

/-- In the program of classes that have different names, no two labels are the same, and each
jump goes to one label, which is in its own block. -/
theorem qualified_labels_unique {cs : List QualifiedClass}
    (h : (cs.map QualifiedClass.name).Nodup) :
    let program := cs.flatMap fun c => c.out.program
    (program.filterMap Instruction.label?).Nodup ∧ (splitBlocks program).1 = [] ∧
      ∀ b ∈ (splitBlocks program).2, ∀ target ∈ b.targets,
        (program.filterMap Instruction.label?).count target = 1 ∧ target ∈ b.labels := by
  have hprogram : (cs.flatMap fun c => c.out.program) =
      (cs.flatMap QualifiedClass.blocks).flatMap CodeBlock.code := by
    rw [List.flatMap_assoc]
    exact congrArg (cs.flatMap ·) (funext QualifiedClass.program_eq)
  have hblock : ∀ b ∈ cs.flatMap QualifiedClass.blocks,
      (∀ i ∈ b.body, i.isFunction = false) ∧ b.Closed ∧ b.Qualified := by
    intro b hb
    obtain ⟨c, -, hb⟩ := List.mem_flatMap.mp hb
    exact QualifiedClass.of_mem_blocks hb
  have hnames : ((cs.flatMap QualifiedClass.blocks).map CodeBlock.name).Nodup := by
    rw [List.map_flatMap]
    exact List.nodup_flatMap.mpr ⟨fun c _ => c.nodup_names,
      (List.pairwise_map.mp h).imp QualifiedClass.disjoint_names⟩
  obtain ⟨hnodup, hjumps⟩ := jumps_of_qualified hnames (fun b hb => (hblock b hb).2.1)
    fun b hb => (hblock b hb).2.2
  intro program
  have hlabels : program.filterMap Instruction.label? =
      (cs.flatMap QualifiedClass.blocks).flatMap CodeBlock.labels := by
    rw [← labels_flatMap_code, ← hprogram]
  have hsplit : splitBlocks program = ([], cs.flatMap QualifiedClass.blocks) := by
    rw [← splitBlocks_flatMap fun b hb => (hblock b hb).1, ← hprogram]
  rw [hlabels, hsplit]
  exact ⟨hnodup, rfl, hjumps⟩

def idleSource : String :=
  "class B \x7b function boolean f() \x7b while (true) \x7b \x7d return false; \x7d \x7d"

def idleClass : ClassDec :=
  let name (index : Nat) (text : String) : Name :=
    ⟨⟨.ident, ⟨index, 1⟩, text⟩, List.mem_singleton_self _⟩
  let idle : SubroutineDec :=
    { kind := .function
      result := ⟨⟨.keyword .boolean, ⟨19, 7⟩, "boolean"⟩, by decide⟩
      name := name 27 "f"
      parameters := []
      locals := []
      body := .while_ (.mk (.word .true) .nil) .empty
        (.return_ (some (.mk (.word .false) .nil)) .empty) }
  ⟨name 6 "B", [], [idle]⟩

theorem heads_idleClass : idleClass.Heads idleSource := by
  refine ⟨(tokenize idleSource).take 20, (tokenize idleSource).drop 20, ?_, ?_⟩
  · rw [List.take_append_drop]
  · decide +kernel

theorem qualified_labels_unique_loops : ∃ a b : QualifiedClass,
    a.source = loopSource ∧ b.source = idleSource ∧ ([a, b].map QualifiedClass.name).Nodup ∧
      let program := [a, b].flatMap fun c => c.out.program
      (program.filterMap Instruction.label?).Nodup ∧ (splitBlocks program).1 = [] ∧
        ∀ b ∈ (splitBlocks program).2, ∀ target ∈ b.targets,
          (program.filterMap Instruction.label?).count target = 1 ∧ target ∈ b.labels := by
  have hloop : ∃ out, compile { qualifyLabels := true } loopSource = .ok out := by
    rw [exists_compile_iff]
    decide +kernel
  have hidle : ∃ out, compile { qualifyLabels := true } idleSource = .ok out := by
    rw [exists_compile_iff]
    decide +kernel
  obtain ⟨out, hout⟩ := hloop
  obtain ⟨out', hout'⟩ := hidle
  let a : QualifiedClass :=
    ⟨_, loopSource, loopClass, out, hout, heads_loopClass, rfl, by decide⟩
  let b : QualifiedClass :=
    ⟨_, idleSource, idleClass, out', hout', heads_idleClass, rfl, by decide⟩
  have hnames : ([a, b].map QualifiedClass.name).Nodup :=
    (by decide : ["A", "B"].Nodup)
  exact ⟨a, b, rfl, rfl, hnames, qualified_labels_unique hnames⟩

end JackCompiler
