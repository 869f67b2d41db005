import JackCompiler.Proofs.Codegen.Labels
import JackCompiler.Proofs.Codegen.Rows
import JackCompiler.Proofs.Codegen.Runs

/-!
# Subroutines are compiled independently

A class is compiled to what the classes with one of its subroutines each are compiled to, in
a row, and fails as the first of them that fails does (`subroutines_independent`). The
header of the class is compiled to nothing: it fails by itself, or lets the subroutines
know what they all know.
-/

namespace JackCompiler

open Grammar

/-! ## The header -/

theorem IsHeader.exists_spelled {header : String} (h : IsHeader header) :
    ∃ name vars, (headScript name vars).Spelled (tokenize header).dropLast := by
  obtain ⟨k, _, hu, hk, n, _, rfl, hn, b, _, rfl, hb, v, _, rfl, ⟨vars, hv⟩, rfl⟩ :=
    row_of_derives builds h.derives
  rw [hu, List.append_nil]
  exact ⟨⟨n, List.mem_singleton.mpr hn⟩, vars, k, _, rfl, hk, _, rfl, b, _, rfl, hb, hv⟩

theorem IsHeader.exists_heads {header : String} {ss : List String} (h : IsHeader header)
    {name : Name} {vars : List ClassVarDec}
    (hhead : (headScript name vars).Spelled (tokenize header).dropLast)
    (hss : ∀ s ∈ ss, IsSubroutine s) :
    ∃ tree : ClassDec, tree.Heads (classText header ss) ∧
      tree.script.actions = (headScript name vars).actions ++
        rowActions (byteSize header.toList + 1) ss ∧
      tree.subroutines.length = ss.length := by
  obtain ⟨ts, u, rest, htokens, hu, hactions, hlength⟩ :=
    exists_row hss (byteSize header.toList + 1)
  refine ⟨⟨name, vars, ts⟩, ⟨(tokenize header).dropLast ++ u, rest, ?_, ?_⟩, ?_, hlength⟩
  · rw [tokenize_classText h hss, htokens, List.append_assoc]
  · rw [ClassDec.Spells, ← Script.spelled_iff_exists_reads, ClassDec.script_eq]
    exact hhead.append hu
  · rw [ClassDec.script_eq, Script.actions_append, Script.actions_append, hactions]
    simp [endScript]

theorem MakesAll.place? {o : Options} {className : String} {as : List Action}
    {ds : List Declaration} {c : Context} {fault : Fault Nat} (h : MakesAll o className as ds)
    (hc : c.className = className) (hfault : performAll o c as = .error fault) :
    fault.place? = none := by
  induction as generalizing ds c with
  | nil => cases hfault
  | cons a as ih =>
    obtain ⟨e, es, ha, has, rfl⟩ := List.forall₂_cons_left_iff.mp h
    have hdeclare := ha c hc
    cases hd : c.declare e.name e.type e.kind with
    | error fault' =>
      rw [hd] at hdeclare
      rcases performAll_cons_error_iff.mp hfault with hfault | ⟨d, effects, hok, -⟩
      · rw [hdeclare] at hfault
        cases hfault
        exact place?_declare hd
      · rw [hdeclare] at hok
        cases hok
    | ok d =>
      rw [hd] at hdeclare
      have hname : d.className = c.className := by
        unfold Context.declare at hd
        cases hs : (c.scopes.declare e.name e.type e.kind : Except (Fault Nat) _) <;>
          rw [hs] at hd <;> cases hd
        rfl
      rw [performAll_silent as hdeclare] at hfault
      exact ih has (hname.trans hc) hfault

/-- A header is compiled to nothing, or fails by a declaration. -/
theorem performAll_headScript (o : Options) (name : Name) (vars : List ClassVarDec) :
    (∃ c, performAll o (.initial o) (headScript name vars).actions = .ok (c, [])) ∨
      ∃ fault, performAll o (.initial o) (headScript name vars).actions = .error fault ∧
        fault.place? = none := by
  have hactions : (headScript name vars).actions =
      (⟨name, vars, []⟩ : ClassDec).script.actions := by
    rw [ClassDec.script_eq, Script.actions_append]
    simp [endScript]
  have hperforms := ClassDec.performs ⟨name, vars, []⟩ o
  rw [← hactions] at hperforms
  rcases hperforms with ⟨-, c, hc, -⟩ | ⟨fault, hfault, -⟩
  · exact .inl ⟨c, hc⟩
  · refine .inr ⟨fault, hfault, ?_⟩
    have hmakes := MakesAll.flatMap (fun d => d.makes o name.token.lexeme) vars
    have hvariables : (headScript name vars).actions = .nameClass name.token ::
        Script.actions (vars.flatMap ClassVarDec.script) := by
      simp [headScript]
    rw [hvariables] at hfault
    rcases performAll_cons_error_iff.mp hfault with hname | ⟨d, effects, hname, hfault⟩
    · cases hname
    · cases hname
      exact hmakes.place? rfl hfault

/-! ## The class -/

/-- Behind the header `c` is known, and a class is compiled to what its texts are. -/
structure Opens (o : Options) (header : String) (c : Context) : Prop where
  ok_iff : ∀ {ss : List String} {p : List Instruction}, (∀ s ∈ ss, IsSubroutine s) →
    ((∃ out, compile o (classText header ss) = .ok out ∧ out.program = p) ↔
      ∃ d, performAll o c (rowActions (byteSize header.toList + 1) ss) = .ok (d, p))
  error_iff : ∀ {ss : List String} {fault : Fault Position}, (∀ s ∈ ss, IsSubroutine s) →
    (compile o (classText header ss) = .error fault ↔
      ∃ f, performAll o c (rowActions (byteSize header.toList + 1) ss) = .error f ∧
        fault = f.map (Position.ofOffset (classText header ss).toList))

theorem ClassDec.Heads.ok_iff {tree : ClassDec} {o : Options} {source : String}
    {p : List Instruction} (h : tree.Heads source) :
    (∃ out, compile o source = .ok out ∧ out.program = p) ↔
      ∃ d, performAll o (.initial o) tree.script.actions = .ok (d, p) := by
  rw [← h.compiles_iff]
  refine ⟨fun hp => ?_, fun hp => ?_⟩
  · obtain ⟨out, hout, rfl⟩ := hp
    exact (compile_eq_ok_iff.mp hout).1
  · exact ⟨⟨p, _⟩, compile_eq_ok_iff.mpr ⟨hp, rfl⟩, rfl⟩

theorem ClassDec.Heads.error_iff {tree : ClassDec} {o : Options} {source : String}
    {fault : Fault Position} (h : tree.Heads source) :
    compile o source = .error fault ↔
      ∃ f, performAll o (.initial o) tree.script.actions = .error f ∧
        fault = f.map (Position.ofOffset source.toList) := by
  simp only [compile_eq_error_iff, h.fault_iff]

/-- A header lets the texts be compiled, or no class with it is compiled. -/
theorem IsHeader.opens_or_fails {header : String} (h : IsHeader header) (o : Options) :
    (∃ c, Opens o header c) ∨ ∃ fault : Fault Nat, fault.place? = none ∧
      ∀ ss, (∀ s ∈ ss, IsSubroutine s) →
        compile o (classText header ss) =
          .error (fault.map (Position.ofOffset (classText header ss).toList)) := by
  obtain ⟨name, vars, hhead⟩ := h.exists_spelled
  rcases performAll_headScript o name vars with ⟨c, hc⟩ | ⟨fault, hfault, hplace⟩
  · refine .inl ⟨c, fun {ss p} hss => ?_, fun {ss fault} hss => ?_⟩
    · obtain ⟨tree, htree, hactions, -⟩ := h.exists_heads hhead hss
      rw [htree.ok_iff, hactions]
      simp only [performAll_append_iff, hc]
      simp
    · obtain ⟨tree, htree, hactions, -⟩ := h.exists_heads hhead hss
      rw [htree.error_iff, hactions]
      simp only [performAll_append_error_iff, hc]
      simp
  · refine .inr ⟨fault, hplace, fun ss hss => ?_⟩
    obtain ⟨tree, htree, hactions, -⟩ := h.exists_heads hhead hss
    rw [htree.error_iff, hactions]
    exact ⟨fault, performAll_append_error_iff.mpr (.inl hfault), rfl⟩

namespace Opens

variable {o : Options} {header s : String} {ss before after : List String} {c : Context}

theorem program_iff (h : Opens o header c) (hss : ∀ s ∈ ss, IsSubroutine s)
    {p : List Instruction} :
    (∃ out, compile o (classText header ss) = .ok out ∧ out.program = p) ↔
      (∀ s ∈ ss, ∃ r, performAll o c (textActions s) = .ok r) ∧
        p = ss.flatMap (sourceCode o c) := by
  rw [h.ok_iff hss, performAll_row_ok_iff hss]

theorem accepts_iff_all (h : Opens o header c) (hss : ∀ s ∈ ss, IsSubroutine s) :
    (∃ out, compile o (classText header ss) = .ok out) ↔
      ∀ s ∈ ss, ∃ r, performAll o c (textActions s) = .ok r := by
  refine ⟨fun hok => ?_, fun hall => ?_⟩
  · obtain ⟨out, hout⟩ := hok
    exact ((h.program_iff hss).mp ⟨out, hout, rfl⟩).1
  · obtain ⟨out, hout, -⟩ := (h.program_iff hss).mpr ⟨hall, rfl⟩
    exact ⟨out, hout⟩

theorem accepts_one (h : Opens o header c) (hs : IsSubroutine s) :
    (∃ out, compile o (classText header [s]) = .ok out) ↔
      ∃ r, performAll o c (textActions s) = .ok r := by
  rw [h.accepts_iff_all (List.forall_mem_singleton.mpr hs), List.forall_mem_singleton]

end Opens

theorem ofOffset_classText {place : Nat} {s : String} (h : place ≤ byteSize s.toList)
    (header : String) (before after : List String) :
    Position.ofOffset (classText header (before ++ s :: after)).toList
        (place + (byteSize header.toList + 1 + linesSize before)) =
      (Position.ofOffset (classText header [s]).toList
        (place + (byteSize header.toList + 1))).down
          (lineCount (before.map String.toList)) := by
  have htext : ∀ before after : List String,
      (classText header (before ++ s :: after)).toList =
        header.toList ++ ['\n'] ++ linesOf (before.map String.toList) ++
          (s.toList ++ '\n' :: (rowText after).toList) := by
    intro before after
    simp [classText, toList_rowText]
  have hline : byteSize ['\n'] = 1 := by decide
  have hplace := Position.ofOffset_behind_lines h header.toList (before.map String.toList)
    ('\n' :: (rowText after).toList) ('\n' :: (rowText []).toList)
  rw [byteSize_append, byteSize_append, hline] at hplace
  have hone := htext [] []
  rw [List.nil_append, List.map_nil, linesOf, List.flatMap_nil, List.append_nil] at hone
  rw [htext, hone]
  exact hplace

namespace Opens

variable {o : Options} {header : String} {ss : List String} {c : Context}

theorem fails_one_iff (h : Opens o header c) {s : String} (hs : IsSubroutine s)
    {fault : Fault Position} :
    compile o (classText header [s]) = .error fault ↔
      ∃ f, performAll o c (textActions s) = .error f ∧
        fault = (f.map (· + (byteSize header.toList + 1))).map
          (Position.ofOffset (classText header [s]).toList) := by
  rw [h.error_iff (List.forall_mem_singleton.mpr hs), rowActions, rowActions, List.append_nil]
  simp only [performAll_move_error_iff]
  refine ⟨fun hf => ?_, fun hf => ?_⟩
  · obtain ⟨_, ⟨f, hf, rfl⟩, rfl⟩ := hf
    exact ⟨f, hf, rfl⟩
  · obtain ⟨f, hf, rfl⟩ := hf
    exact ⟨_, ⟨f, hf, rfl⟩, rfl⟩

theorem fails_iff (h : Opens o header c) (hss : ∀ s ∈ ss, IsSubroutine s)
    {fault : Fault Position} :
    compile o (classText header ss) = .error fault ↔
      ∃ before s after f, ss = before ++ s :: after ∧
        (∀ t ∈ before, ∃ r, performAll o c (textActions t) = .ok r) ∧
        compile o (classText header [s]) = .error f ∧
        fault = f.map (Position.down (lineCount (before.map String.toList))) := by
  -- The fault of the one subroutine, moved down by the lines of those before it.
  have hmoved : ∀ {before s after} {f : Fault Nat}, performAll o c (textActions s) = .error f →
      (f.map (· + (byteSize header.toList + 1 + linesSize before))).map
          (Position.ofOffset (classText header (before ++ s :: after)).toList) =
        ((f.map (· + (byteSize header.toList + 1))).map
          (Position.ofOffset (classText header [s]).toList)).map
            (Position.down (lineCount (before.map String.toList))) := by
    intro before s after f hf
    rw [Fault.map_map, Fault.map_map, Fault.map_map]
    refine Fault.map_congr fun place hplace => ?_
    exact ofOffset_classText (place_le_of_textActions hf place hplace) header before after
  rw [h.error_iff hss]
  simp only [performAll_row_error_iff hss]
  refine ⟨fun hf => ?_, fun hf => ?_⟩
  · obtain ⟨_, ⟨before, s, after, f, rfl, hbefore, hf, rfl⟩, rfl⟩ := hf
    have hs : IsSubroutine s := hss s (by simp)
    exact ⟨before, s, after, _, rfl, hbefore, (h.fails_one_iff hs).mpr ⟨f, hf, rfl⟩, hmoved hf⟩
  · obtain ⟨before, s, after, _, rfl, hbefore, hone, rfl⟩ := hf
    have hs : IsSubroutine s := hss s (by simp)
    obtain ⟨f, hf, rfl⟩ := (h.fails_one_iff hs).mp hone
    exact ⟨_, ⟨before, s, after, f, rfl, hbefore, hf, rfl⟩, (hmoved hf).symm⟩

end Opens

/-! ## Independence -/

theorem splitBlocks_flatMap_of_code {α : Type} {f : α → List Instruction} {block : α → CodeBlock}
    {xs : List α} (hcode : ∀ x ∈ xs, f x = (block x).code)
    (hbody : ∀ x ∈ xs, ∀ i ∈ (block x).body, i.isFunction = false) :
    splitBlocks (xs.flatMap f) = ([], xs.map block) := by
  have hflat : xs.flatMap f = (xs.map block).flatMap CodeBlock.code := by
    rw [List.flatMap_map]
    exact List.flatMap_congr hcode
  rw [hflat, splitBlocks_flatMap]
  intro b hb
  obtain ⟨x, hx, rfl⟩ := List.mem_map.mp hb
  exact hbody x hx

namespace IsHeader

variable {o : Options} {header : String} {ss : List String}

theorem accepts_iff_forall (h : IsHeader header) (hne : ss ≠ []) (hss : ∀ s ∈ ss, IsSubroutine s) :
    (∃ out, compile o (classText header ss) = .ok out) ↔
      ∀ s ∈ ss, ∃ part, compile o (classText header [s]) = .ok part := by
  rcases h.opens_or_fails o with ⟨c, hc⟩ | ⟨fault, -, hfails⟩
  · rw [hc.accepts_iff_all hss]
    exact forall₂_congr fun s hs => (hc.accepts_one (hss s hs)).symm
  · obtain ⟨s, hs⟩ := List.exists_mem_of_ne_nil ss hne
    refine iff_of_false (fun hok => ?_) fun hall => ?_
    · obtain ⟨out, hout⟩ := hok
      rw [hfails ss hss] at hout
      cases hout
    · obtain ⟨part, hpart⟩ := hall s hs
      rw [hfails [s] (List.forall_mem_singleton.mpr (hss s hs))] at hpart
      cases hpart

theorem program_eq_flatMap (h : IsHeader header) (hss : ∀ s ∈ ss, IsSubroutine s)
    {out : Compiled} {parts : List Compiled} (hout : compile o (classText header ss) = .ok out)
    (hparts : List.Forall₂ (fun s part => compile o (classText header [s]) = .ok part) ss parts) :
    out.program = parts.flatMap Compiled.program := by
  rcases h.opens_or_fails o with ⟨c, hc⟩ | ⟨fault, -, hfails⟩
  · have hprogram := ((hc.program_iff hss).mp ⟨out, hout, rfl⟩).2
    rw [hprogram]
    clear hout hprogram
    induction hparts with
    | nil => rfl
    | @cons s part ss parts hpart _ ih =>
      obtain ⟨hs, hss⟩ := List.forall_mem_cons.mp hss
      have hone := ((hc.program_iff (List.forall_mem_singleton.mpr hs)).mp ⟨part, hpart, rfl⟩).2
      rw [List.flatMap_singleton] at hone
      rw [List.flatMap_cons, List.flatMap_cons, ih hss, hone]
  · rw [hfails ss hss] at hout
    cases hout

theorem error_iff_first (h : IsHeader header) (hne : ss ≠ []) (hss : ∀ s ∈ ss, IsSubroutine s)
    {fault : Fault Position} :
    compile o (classText header ss) = .error fault ↔
      ∃ before s after f, ss = before ++ s :: after ∧
        (∀ t ∈ before, ∃ part, compile o (classText header [t]) = .ok part) ∧
        compile o (classText header [s]) = .error f ∧
        fault = f.map (Position.down (lineCount (before.map String.toList))) := by
  rcases h.opens_or_fails o with ⟨c, hc⟩ | ⟨f, hplace, hfails⟩
  · rw [hc.fails_iff hss]
    have hbefore : ∀ {before s after}, ss = before ++ s :: after →
        ((∀ t ∈ before, ∃ r, performAll o c (textActions t) = .ok r) ↔
          ∀ t ∈ before, ∃ part, compile o (classText header [t]) = .ok part) := by
      intro before s after heq
      subst heq
      exact forall₂_congr fun t ht => (hc.accepts_one (hss t (by simp [ht]))).symm
    refine exists₄_congr fun before s after f => and_congr_right fun heq => ?_
    rw [hbefore heq]
  -- The header fails by a declaration, which has no place, and so does every class with it.
  · have hmap : ∀ (g g' : Nat → Position), f.map g = f.map g' := by
      intro g g'
      exact Fault.map_congr (by simp [hplace])
    have hone : ∀ s ∈ ss, compile o (classText header [s]) =
        .error (f.map (Position.ofOffset (classText header [s]).toList)) := by
      intro s hs
      exact hfails [s] (List.forall_mem_singleton.mpr (hss s hs))
    rw [hfails ss hss]
    refine ⟨fun hf => ?_, fun hf => ?_⟩
    · cases hf
      obtain ⟨s, after, rfl⟩ := List.exists_cons_of_ne_nil hne
      refine ⟨[], s, after, _, rfl, by simp, hone s (by simp), ?_⟩
      rw [Fault.map_map]
      exact hmap _ _
    · obtain ⟨before, s, after, f', rfl, -, hf', rfl⟩ := hf
      rw [hone s (by simp)] at hf'
      cases hf'
      rw [Fault.map_map]
      exact congrArg Except.error (hmap _ _)

theorem exists_block (h : IsHeader header) {s : String} (hs : IsSubroutine s) {part : Compiled}
    (hpart : compile o (classText header [s]) = .ok part) :
    ∃ b : CodeBlock, part.program = b.code ∧ ∀ i ∈ b.body, i.isFunction = false := by
  obtain ⟨name, vars, hhead⟩ := h.exists_spelled
  obtain ⟨tree, htree, -, hlength⟩ := h.exists_heads hhead (List.forall_mem_singleton.mpr hs)
  obtain ⟨t, ht⟩ := List.length_eq_one_iff.mp hlength
  refine ⟨tree.block o t, ?_, tree.isFunction_block o t⟩
  rw [program_of_compile hpart htree, ClassDec.code, ht, List.flatMap_singleton]

theorem exists_block_sourceCode (h : IsHeader header) {c : Context} (hc : Opens o header c)
    {s : String} (hs : IsSubroutine s) (hok : ∃ r, performAll o c (textActions s) = .ok r) :
    ∃ b : CodeBlock, sourceCode o c s = b.code ∧ ∀ i ∈ b.body, i.isFunction = false := by
  have hone := List.forall_mem_singleton.mpr hs
  obtain ⟨part, hpart, hprogram⟩ := (hc.program_iff hone).mpr
    ⟨List.forall_mem_singleton.mpr hok, rfl⟩
  rw [List.flatMap_singleton] at hprogram
  rw [← hprogram]
  exact h.exists_block hs hpart

theorem exists_blocks (h : IsHeader header) (hss : ∀ s ∈ ss, IsSubroutine s) {ss' : List String}
    (hperm : ss'.Perm ss) {out : Compiled} (hout : compile o (classText header ss) = .ok out) :
    ∃ out' block, compile o (classText header ss') = .ok out' ∧
      splitBlocks out.program = ([], ss.map block) ∧
      splitBlocks out'.program = ([], ss'.map block) := by
  rcases h.opens_or_fails o with ⟨c, hc⟩ | ⟨fault, -, hfails⟩
  · obtain ⟨hall, hprogram⟩ := (hc.program_iff hss).mp ⟨out, hout, rfl⟩
    have hmem : ∀ s ∈ ss', s ∈ ss := fun s hs => hperm.mem_iff.mp hs
    obtain ⟨out', hout', hprogram'⟩ := (hc.program_iff fun s hs => hss s (hmem s hs)).mpr
      ⟨fun s hs => hall s (hmem s hs), rfl⟩
    have : Nonempty CodeBlock := ⟨⟨"", 0, []⟩⟩
    choose! block hcode hbody using fun s hs =>
      h.exists_block_sourceCode hc (hss s hs) (hall s hs)
    refine ⟨out', block, hout', ?_, ?_⟩
    · rw [hprogram, splitBlocks_flatMap_of_code (fun s hs => hcode s hs) fun s hs => hbody s hs]
    · rw [hprogram', splitBlocks_flatMap_of_code (fun s hs => hcode s (hmem s hs))
        fun s hs => hbody s (hmem s hs)]
  · rw [hfails ss hss] at hout
    cases hout

end IsHeader

/-- A class is compiled just if the classes with one of its subroutines each are; its program
is theirs in a row, and subroutines in another order have their blocks in that order. It fails
as the first of them that fails, which stands further down by the lines before it. -/
theorem subroutines_independent (o : Options) {header : String} {ss : List String}
    (hheader : IsHeader header) (hne : ss ≠ []) (hss : ∀ s ∈ ss, IsSubroutine s) :
    ((∃ out, compile o (classText header ss) = .ok out) ↔
      ∀ s ∈ ss, ∃ part, compile o (classText header [s]) = .ok part) ∧
    (∀ out parts, compile o (classText header ss) = .ok out →
      List.Forall₂ (fun s part => compile o (classText header [s]) = .ok part) ss parts →
      out.program = parts.flatMap Compiled.program) ∧
    (∀ fault, compile o (classText header ss) = .error fault ↔
      ∃ before s after f, ss = before ++ s :: after ∧
        (∀ t ∈ before, ∃ part, compile o (classText header [t]) = .ok part) ∧
        compile o (classText header [s]) = .error f ∧
        fault = f.map (Position.down (lineCount (before.map String.toList)))) ∧
    ∀ ss' out, ss'.Perm ss → compile o (classText header ss) = .ok out →
      ∃ out' block, compile o (classText header ss') = .ok out' ∧
        splitBlocks out.program = ([], ss.map block) ∧
        splitBlocks out'.program = ([], ss'.map block) := by
  refine ⟨hheader.accepts_iff_forall hne hss, ?_, ?_, ?_⟩
  · intro out parts hout hparts
    exact hheader.program_eq_flatMap hss hout hparts
  · intro fault
    exact hheader.error_iff_first hne hss
  · intro ss' out hperm hout
    exact hheader.exists_blocks hss hperm hout

/-! ## Two loops -/

def loopText (name : String) : String :=
  "function int " ++ name ++ "(int n) \x7b while (n) \x7b \x7d return n; \x7d"

def loopSubroutine (name : String) : SubroutineDec :=
  let ident (index : Nat) (text : String) : Name :=
    ⟨⟨.ident, ⟨index, 1⟩, text⟩, List.mem_singleton_self _⟩
  let read (index : Nat) : Expression := .mk (.var (ident index "n")) .nil
  { kind := .function
    result := ⟨⟨.keyword .int, ⟨9, 3⟩, "int"⟩, by decide⟩
    name := ident 13 name
    parameters := [⟨⟨⟨.keyword .int, ⟨15, 3⟩, "int"⟩, by decide⟩, ident 19 "n"⟩]
    locals := []
    body := .while_ (read 31) .empty (.return_ (some (read 45)) .empty) }

theorem isHeader_openClass : IsHeader "class A \x7b" := by
  have hclosed : Closed "class A \x7b".toList := by decide +kernel
  have htokens : (tokenize "class A \x7b").dropLast =
      [⟨.keyword .class_, ⟨0, 5⟩, "class"⟩, ⟨.ident, ⟨6, 1⟩, "A"⟩,
        ⟨.mark .leftBrace, ⟨8, 1⟩, "\x7b"⟩] := by
    decide +kernel
  refine ⟨hclosed, ?_⟩
  rw [htokens]
  exact derives_of_row ⟨_, _, rfl, rfl, _, _, rfl, rfl, _, _, rfl, rfl, [], [], rfl,
    derived_of_row [] (by decide) rfl, rfl⟩

theorem isSubroutine_loopText : ∀ s ∈ [loopText "f", loopText "g"], IsSubroutine s := by
  have hspelled : ∀ name ∈ ["f", "g"], Closed (loopText name).toList ∧
      (loopSubroutine name).script.fits (tokenize (loopText name)).dropLast = true := by
    decide +kernel
  intro s hs
  have hmem : s ∈ ["f", "g"].map loopText := hs
  obtain ⟨name, hname, rfl⟩ := List.mem_map.mp hmem
  obtain ⟨hclosed, hfits⟩ := hspelled name hname
  exact ⟨hclosed, (loopSubroutine name).derived
    (Script.spelled_iff_exists_reads.mpr (exists_reads_iff.mpr hfits))⟩

theorem subroutines_independent_loops :
    IsHeader "class A \x7b" ∧ (∀ s ∈ [loopText "f", loopText "g"], IsSubroutine s) ∧
      ∃ out out' block,
        compile {} (classText "class A \x7b" [loopText "f", loopText "g"]) = .ok out ∧
        compile {} (classText "class A \x7b" [loopText "g", loopText "f"]) = .ok out' ∧
        splitBlocks out.program = ([], [loopText "f", loopText "g"].map block) ∧
        splitBlocks out'.program = ([], [loopText "g", loopText "f"].map block) := by
  have hcompiles : ∃ out,
      compile {} (classText "class A \x7b" [loopText "f", loopText "g"]) = .ok out := by
    rw [exists_compile_iff]
    decide +kernel
  obtain ⟨out, hout⟩ := hcompiles
  obtain ⟨-, -, -, hblocks⟩ := subroutines_independent {} isHeader_openClass
    (List.cons_ne_nil _ _) isSubroutine_loopText
  obtain ⟨out', block, hout', hsplit, hsplit'⟩ := hblocks _ out (.swap _ _ []) hout
  exact ⟨isHeader_openClass, isSubroutine_loopText, out, out', block, hout, hout', hsplit, hsplit'⟩

end JackCompiler
