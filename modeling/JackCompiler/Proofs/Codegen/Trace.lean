import JackCompiler.Proofs.Codegen.Derivations

/-!
# Grammar traces are trees

The grammar trace of a source that compiles is the text of a tree. It is a class by the
patterns of the rules, the only one for its leaves, and these are the tokens of the class, up
to the brace that ends it (`trace_is_tree`).
-/

namespace JackCompiler

/-! ## Traces -/

theorem line?_coreEvents (events : Array Event) :
    (coreEvents events).filterMap Event.line? = events.toList.filterMap Event.line? := by
  rw [coreEvents, List.filterMap_filter]
  congr 1
  funext e
  cases e <;> rfl

theorem exists_of_classDec {children : List Markup}
    (h : children.map Markup.label ∈ (Rule.pattern .classDec).matches') :
    ∃ (before : List Markup) (lexeme : String),
      children = before ++ [.leaf (.mark .rightBrace) lexeme] := by
  obtain ⟨w, -, v, hv, he⟩ := Language.mem_mul.mp h
  rw [Pattern.mark, Pattern.mem_terminal_iff] at hv
  subst hv
  obtain ⟨before, last, rfl, -, hlast⟩ := List.map_eq_append_iff.mp he.symm
  obtain ⟨m, rest, rfl, hm, hrest⟩ := List.map_eq_cons_iff.mp hlast
  obtain rfl := List.map_eq_nil_iff.mp hrest
  cases m with
  | node => cases hm
  | leaf kind lexeme =>
    obtain rfl := Sum.inl.inj hm
    exact ⟨before, lexeme, rfl⟩

theorem exists_tree_of_heads {c : ClassDec} {source : String} (h : c.Heads source) :
    ∃ (tree : Markup) (u rest : List Token), tokenize source = u ++ rest ∧ c.Spells u ∧
      readingTrace source = tree.text ∧ tree.Conforms ∧ tree.label = .inr .classDec ∧
      tree.leaves = u.map Token.content := by
  obtain ⟨u, rest, hu, es, hr⟩ := h
  obtain ⟨ms, hms, hlabels⟩ := c.marks u es hr
  obtain ⟨tree, rfl, hlabel⟩ := List.map_eq_singleton_iff.mp (Pattern.mem_part_iff.mp hlabels)
  have hevents : (descend classItems (tokenize source)).1 = es := by
    rw [hu, (descends_class hr rest).descend_eq]
  have hlines := hms.lines
  have hleaves := hms.leaves
  rw [Markup.linesOf, Markup.linesOf, List.append_nil] at hlines
  rw [Markup.leavesOf, Markup.leavesOf, List.append_nil] at hleaves
  refine ⟨tree, u, rest, hu, ⟨es, hr⟩, ?_, hms.conforms _ (List.mem_singleton_self _), hlabel,
    hleaves⟩
  rw [readingTrace, Markup.text, ← line?_coreEvents, core_parse, hevents, ← hlines, List.map_map]
  congr 2
  funext line
  exact line.text_unplaced.symm

/-- The trace of a compilation can be read back as the tree of the class. -/
theorem trace_is_tree {o : Options} {source : String} {out : Compiled}
    (h : compile o source = .ok out) (ho : o.trace = true) :
    ∃ (text : String) (before : List Markup) (count : Nat),
      let closing := Markup.leaf (.mark .rightBrace) "\x7d"
      let tree := Markup.node .classDec (before ++ [closing])
      out.trace = some text ∧ text = tree.text ∧ Markup.ofText? text = some tree ∧
      tree.leaves = ((tokenize source).take count).map Token.content ∧
      ((tokenize source).take count).map Token.kind ∈ grammar.language ∧ tree.Conforms ∧
      ∀ m : Markup, m.Conforms → m.label = .inr .classDec → m.leaves = tree.leaves → m = tree := by
  obtain ⟨⟨hfault, -⟩, htrace⟩ := compile_eq_ok_iff.mp h
  rw [if_pos ho, traceText_history hfault] at htrace
  obtain ⟨c, hc⟩ := exists_heads h
  obtain ⟨tree, u, rest, hu, hspells, htext, hconforms, hlabel, hleaves⟩ := exists_tree_of_heads hc
  -- The lexemes of the tree are those of tokens, so that they can be told from the markup.
  have hspelled : tree.Spelled := by
    intro content hcontent
    rw [hleaves] at hcontent
    obtain ⟨t, ht, rfl⟩ := List.mem_map.mp hcontent
    exact spells_of_mem_tokenize (hu ▸ List.mem_append_left rest ht)
  have hcount : (tokenize source).take u.length = u := by rw [hu, List.take_left]
  cases hconforms with
  | leaf => cases hlabel
  | @node rule children hpattern hchildren =>
    obtain rfl := Sum.inr.inj hlabel
    obtain ⟨before, lexeme, rfl⟩ := exists_of_classDec hpattern
    -- The tree only tells the kind of its last leaf. The brace is the one text of that kind.
    have hbrace : lexeme = "\x7d" := by
      have hleaf := hspelled (.mark .rightBrace, lexeme)
        (by simp [Markup.leaves, leavesOf_append, Markup.leavesOf])
      have hlexeme : lexeme.toList = [Mark.rightBrace.char] := hleaf
      rw [← String.ofList_toList (s := lexeme), hlexeme]
      rfl
    subst hbrace
    have hconforms := Markup.Conforms.node hpattern hchildren
    refine ⟨_, before, u.length, htrace, htext, ?_, ?_, ?_, hconforms, fun m hm hlabel hm' => ?_⟩
    · rw [htext, Markup.ofText?_text hspelled]
    · rw [hcount, hleaves]
    · rw [hcount]
      exact exists_spells_iff.mp ⟨c, hspells⟩
    · exact hm.unique hconforms hlabel rfl hm'

theorem trace_is_tree_loopSource :
    ∃ (out : Compiled) (text : String) (tree : Markup),
      compile { trace := true } loopSource = .ok out ∧ out.trace = some text ∧
      Markup.ofText? text = some tree ∧ tree.Conforms ∧ tree.label = .inr .classDec := by
  obtain ⟨out, hout⟩ : ∃ out, compile { trace := true } loopSource = .ok out :=
    exists_compile_iff.mpr (by decide +kernel)
  obtain ⟨text, before, count, htrace, -, htree, -, -, hconforms, -⟩ := trace_is_tree hout rfl
  exact ⟨out, text, _, hout, htrace, htree, hconforms, rfl⟩

end JackCompiler
