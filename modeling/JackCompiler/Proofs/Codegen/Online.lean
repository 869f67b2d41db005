import JackCompiler.Proofs.Codegen.Diagnostics
import JackCompiler.Proofs.Codegen.Lookahead
import JackCompiler.Proofs.Codegen.Placement
import JackCompiler.Proofs.Token.Extension

/-!
# Text behind the end of a compilation

A compilation reads its source from left to right, one token ahead. What it gives is settled
by the brace that ends the class, or by the fault, unless that is due to the end of the
source; text behind does not change it (`text_behind_is_unread`).
-/

namespace JackCompiler

/-! ## Runs over core events -/

theorem fault_generateFrom_core (o : Options) (c : Context) (es : List Event) :
    (generateFrom o #[] c (es.filter fun e => !e.isLook)).fault =
      (generateFrom o #[] c es).fault := by
  induction es generalizing c with
  | nil => rfl
  | cons e es ih =>
    cases hlook : e.isLook with
    | true =>
      obtain ⟨skipped, rfl⟩ : ∃ skipped, e = .look skipped := by
        cases e with
        | look skipped => exact ⟨skipped, rfl⟩
        | note | take | refuse | exhausted => cases hlook
      rw [List.filter_cons_of_neg (by simp [hlook]), ih]
      exact (fault_generateFrom o (#[] ++ skipped.map Effect.skip) c es).symm
    | false =>
      rw [List.filter_cons_of_pos (by simp [hlook]), generateFrom, generateFrom]
      cases step o c e with
      | error fault => rfl
      | ok result =>
        simp only
        rw [fault_generateFrom, ih, ← fault_generateFrom]

theorem fault_history (o : Options) (source : String) :
    (history o source).fault =
      (generateFrom o #[] (.initial o) (descend classItems (tokenize source)).1).fault := by
  rw [← core_parse, coreEvents, fault_generateFrom_core]
  rfl

/-- A run over events that are no faults comes to what follows them, or ends before. -/
theorem fault_generateFrom_append {o : Options} {c : Context} {es : List Event}
    (hes : ∀ e ∈ es, e.isFault = false) (more : List Event) :
    (generateFrom o #[] c (es ++ more)).fault =
      match performAll o c (es.filterMap Event.action?) with
      | .error fault => some fault
      | .ok (d, _) => (generateFrom o #[] d more).fault := by
  induction es generalizing c with
  | nil => rfl
  | cons e es ih =>
    obtain ⟨hf, hrest⟩ := List.forall_mem_cons.mp hes
    rw [List.cons_append, generateFrom]
    -- An event is carried out like its action, if it has one, and changes nothing else.
    cases ha : e.action? with
    | none =>
      obtain ⟨effects, hs, -⟩ := step_of_no_action o c ha hf
      simp only [hs]
      rw [fault_generateFrom, List.filterMap_cons_none ha, ih hrest]
    | some a =>
      rw [step_of_action o c ha, List.filterMap_cons_some ha, performAll]
      cases hp : perform o c a with
      | error fault => rfl
      | ok result =>
        obtain ⟨d, effects⟩ := result
        simp only [bind, Except.bind]
        rw [fault_generateFrom, ih hrest]
        cases performAll o d (es.filterMap Event.action?) <;> rfl

theorem isFault_note {notes : List Note} : ∀ e ∈ notes.map Event.note, e.isFault = false := by
  intro e he
  obtain ⟨n, -, rfl⟩ := List.mem_map.mp he
  rfl

theorem Consumes.not_isFault {stack left : List Item} {u : List Token} {es : List Event}
    (h : Consumes stack u es left) : ∀ e ∈ es, e.isFault = false := by
  induction h with
  | done => exact List.forall_mem_nil _
  | note _ ih => exact List.forall_mem_cons.mpr ⟨rfl, ih⟩
  | take _ _ ih =>
    exact List.forall_mem_append.mpr ⟨isFault_note, List.forall_mem_cons.mpr ⟨rfl, ih⟩⟩
  | pass _ _ ih => exact List.forall_mem_append.mpr ⟨isFault_note, ih⟩

/-! ## The end of the source -/

section

variable {last : Option Token} {known : List Token} {t : Token}

theorem oneOf_of_notMem {kinds : List Terminal} (h : t.kind ∉ kinds) (after : List Item) :
    oneOf kinds t after = .refuse [] kinds :=
  if_neg h

theorem termMove_of_finish (ht : t.kind = .finish) (outer : List Note) (after : List Item) :
    termMove outer t after = .refuse (outer ++ [.enter .term]) termStarts := by
  simp [termMove, ht]

/-- The last token is taken by no goal. Only a name before it can still turn out not to be a
variable's. -/
theorem refuse_or_pass_of_finish {g : Goal} {stack : List Item} (ht : t.kind = .finish)
    (h : Ready last known (.goal g :: stack)) :
    (∃ before expected, g.move t = .refuse before expected ∧
      Secured known (before.map .note)) ∨
    (∃ before, g.move t = .pass before ∧ Secured known (before.map .note ++ stack)) ∨
    ∃ name, last = some name ∧ g.move t = .pass [.act (.load name)] ∧ Secured known stack := by
  obtain ⟨hg, hrest⟩ := h
  have honeOf : ∀ (kinds : List Terminal) (after : List Item), .finish ∉ kinds →
      ∃ before expected, oneOf kinds t after = .refuse before expected ∧
        Secured known (before.map .note) := fun kinds after hkinds =>
    ⟨[], kinds, oneOf_of_notMem (by rwa [ht]) after, trivial⟩
  have hexpression : ∀ after : List Item, ∃ before expected,
      expressionMove [] t after = .refuse before expected ∧ Secured known (before.map .note) :=
    fun after => ⟨_, _, termMove_of_finish ht _ _, trivial, trivial, trivial⟩
  cases g with
  | only kind => exact .inl (honeOf _ _ (by simpa using Ne.symm hg))
  | className | declaredType | declaredName | resultType | subroutineName | parameterType
  | letTarget | callName | memberName => exact .inl (honeOf _ _ (by decide))
  | expression => exact .inl (hexpression _)
  | term => exact .inl ⟨_, _, termMove_of_finish ht _ _, trivial, trivial⟩
  | statements =>
    refine .inr (.inl ⟨[], ?_, hrest⟩)
    simp [Goal.move, statementsMove, ht]
  -- These goals may be empty, and are passed without a note.
  | classVars | moreNames | subroutines | moreParameters | locals =>
    refine .inr (.inl ⟨[], ?_, hrest.mono (List.nil_subset known)⟩)
    simp [Goal.move, ht, VariableKind.ofTerminal?, SubroutineKind.ofTerminal?]
  | operators =>
    refine .inr (.inl ⟨[], ?_, hrest⟩)
    simp [Goal.move, ht, BinaryOp.ofTerminal?]
  | elseBranch =>
    refine .inr (.inl ⟨[.act .endIf], ?_, trivial, hrest⟩)
    simp [Goal.move, ht]
  | parameters | letRest =>
    simp only [Goal.move, ht]
    exact .inl (honeOf _ _ (by decide))
  | callRest name =>
    refine .inl ⟨[.act (.pushReceiver (.own name))], [.mark .leftParen], ?_, trivial, trivial⟩
    simp [Goal.move, ht]
  | moreArguments callee count =>
    refine .inl ⟨[.leave .expressionList], [.mark .rightParen], ?_, trivial, trivial⟩
    simp [Goal.move, ht]
  | arguments | result =>
    simp only [Goal.move, ht]
    exact .inl (hexpression _)
  -- Only here is something looked up on account of what follows.
  | termRest name =>
    refine .inr (.inr ⟨name, hg, ?_, hrest⟩)
    simp [Goal.move, ht]

variable {o : Options} {c : Context} {fault : Fault Nat}

/-- A fault that is no overflow is none of the notes that are secured. -/
theorem fault_of_secured {notes : List Note} {stack : List Item} {more : List Event}
    (h : Secured known (notes.map .note ++ stack)) (hc : c.Knows known) (hne : fault ≠ .overflow)
    (hf : (generateFrom o #[] c (notes.map .note ++ more)).fault = some fault) :
    ∃ d known', d.Knows known' ∧ Secured known' stack ∧
      (generateFrom o #[] d more).fault = some fault := by
  induction notes generalizing c known with
  | nil => exact ⟨c, known, hc, h, hf⟩
  | cons n notes ih =>
    obtain ⟨hn, hrest⟩ := h
    rw [List.map_cons, List.cons_append, generateFrom] at hf
    cases n with
    | enter | leave =>
      simp only [step, fault_generateFrom] at hf
      exact ih hrest hc hf
    | act a =>
      rcases perform_of_secured o hc hn with ⟨d, effects, ha⟩ | ha
      · simp only [step, ha, fault_generateFrom] at hf
        exact ih hrest (knows_learn ha hc) hf
      · simp only [step, ha] at hf
        exact absurd (Option.some.inj hf).symm hne

/-- The end of the source meets a goal, the items below which are done without a fault of
their own. -/
theorem fault_of_goal {g : Goal} {stack : List Item} (ht : t.kind = .finish)
    (h : Ready last known (.goal g :: stack)) (hc : c.Knows known) (hne : fault ≠ .overflow)
    (hbelow : ∀ {d : Context} {known' : List Token}, Secured known' stack → d.Knows known' →
      (generateFrom o #[] d (descend stack [t]).1).fault = some fault →
      ∃ expected, fault = .unexpected expected t t.span.index)
    (hf : (generateFrom o #[] c (descend (.goal g :: stack) [t]).1).fault = some fault) :
    (∃ expected, fault = .unexpected expected t t.span.index) ∨
      ∃ name, last = some name ∧ fault = .undefined name.lexeme name.span.index := by
  rcases refuse_or_pass_of_finish ht h with ⟨before, expected, hmove, hbefore⟩ |
    ⟨before, hmove, hbefore⟩ | ⟨name, hname, hmove, hstack⟩
  · rw [← List.append_nil (before.map Item.note)] at hbefore
    rw [descend_refuse hmove] at hf
    obtain ⟨d, -, -, -, hf⟩ := fault_of_secured hbefore hc hne hf
    exact .inl ⟨expected, (Option.some.inj hf).symm⟩
  · rw [descend_pass hmove] at hf
    obtain ⟨d, known', hd, hstack, hf⟩ := fault_of_secured hbefore hc hne hf
    exact .inl (hbelow hstack hd hf)
  · have hload : ([Note.act (.load name)].map Event.note).filterMap Event.action? =
        [.load name] := rfl
    rw [descend_pass hmove, fault_generateFrom_append isFault_note, hload] at hf
    cases hv : c.resolve name with
    | error fault' =>
      have hp : performAll o c [.load name] = .error fault' := by
        simp [performAll, perform, hv, bind, Except.bind]
      rw [hp] at hf
      unfold Context.resolve at hv
      split at hv <;> cases hv
      exact .inr ⟨name, hname, (Option.some.inj hf).symm⟩
    | ok v =>
      have hp : performAll o c [.load name] = .ok (c, [loadCode v]) := by
        simp [performAll, perform, hv, bind, Except.bind, pure, Except.pure, Effect.instruction?]
      rw [hp] at hf
      exact .inl (hbelow hstack hc hf)

/-- Where all is known, the end of the source itself is the fault. -/
theorem unexpected_of_secured {stack : List Item} (ht : t.kind = .finish)
    (hne : fault ≠ .overflow) (h : Secured known stack) (hc : c.Knows known)
    (hf : (generateFrom o #[] c (descend stack [t]).1).fault = some fault) :
    ∃ expected, fault = .unexpected expected t t.span.index := by
  induction stack generalizing c known with
  | nil =>
    rw [descend] at hf
    cases hf
  | cons item stack ih =>
    cases item with
    | note n =>
      have hnote : Secured known ([n].map .note ++ stack) := h
      rw [descend_note] at hf
      obtain ⟨d, known', hd, hstack, hf⟩ := fault_of_secured hnote hc hne hf
      exact ih hstack hd hf
    | goal g =>
      rcases fault_of_goal ht (h.ready none) hc hne ih hf with hfault | ⟨name, hname, -⟩
      · exact hfault
      · cases hname

/-- A fault behind the last token but one is the end of the source, a name directly before
it, or does not depend on what follows. -/
theorem fault_of_ready {stack : List Item} (ht : t.kind = .finish)
    (h : Ready last known stack) (hc : c.Knows known) (hne : fault ≠ .overflow)
    (hf : (generateFrom o #[] c (descend stack [t]).1).fault = some fault) :
    ((∃ expected, fault = .unexpected expected t t.span.index) ∨
      ∃ name, last = some name ∧ fault = .undefined name.lexeme name.span.index) ∨
    ∀ more, (generateFrom o #[] c (descend stack more).1).fault = some fault := by
  induction stack generalizing c known with
  | nil =>
    rw [descend] at hf
    cases hf
  | cons item stack ih =>
    cases item with
    | note n =>
      simp only [descend_note, fault_generateFrom_append isFault_note] at hf ⊢
      cases hp : performAll o c (([n].map Event.note).filterMap Event.action?) with
      | error fault' =>
        rw [hp] at hf
        exact .inr fun _ => hf
      | ok result =>
        obtain ⟨d, p⟩ := result
        rw [hp] at hf
        have hnote : Ready last known ([n].map .note ++ stack) := h
        obtain ⟨known', hd, hstack⟩ := ready_of_notes hnote hc hp
        exact ih hstack hd hf
    | goal g => exact .inl (fault_of_goal ht h hc hne (unexpected_of_secured ht hne) hf)

end

/-! ## Sources -/

/-- The fault is due to the end of the source: what is unexpected is the end, or what is no
variable is the name directly before it, which more tokens could make a class's. -/
def Fault.AtEnd (source : String) : Fault Position → Prop
  | .unexpected _ found _ => found.kind = .finish
  | .undefined name place => ∃ front last finish, tokenize source = front ++ [last, finish] ∧
      name = last.lexeme ∧ place = last.span.position source.toList
  | _ => False

theorem fault_history_append_line {o : Options} {s : String} {fault : Fault Nat}
    (h : (history o s).fault = some fault) (hne : fault ≠ .overflow)
    (hend : ¬ (fault.map (Position.ofOffset s.toList)).AtEnd s) (t : String) :
    (history o (s ++ "\n" ++ t)).fault = some fault := by
  obtain ⟨front, htokens, -⟩ := (tokenize_lossless s).finish
  obtain ⟨more, -, hmore⟩ := exists_tokenize_append_line s t
  rw [htokens, List.dropLast_concat] at hmore
  rw [fault_history, htokens] at h
  rw [fault_history, hmore]
  -- All tokens but the last one are read alike, unless the descent ends before.
  rcases consumes_or_ends classItems front with ⟨es, left, hconsumes⟩ | ⟨es, hends⟩
  · rw [hconsumes.descend_append, fault_generateFrom_append hconsumes.not_isFault] at h ⊢
    cases hp : performAll o (.initial o) (es.filterMap Event.action?) with
    | error fault' => rwa [hp] at h
    | ok result =>
      obtain ⟨d, p⟩ := result
      rw [hp] at h
      obtain ⟨known, hknown, hleft⟩ :=
        ready_of_consumes hconsumes ready_classItems (List.forall_mem_nil _) hp
      rcases fault_of_ready rfl hleft hknown hne h with
        (⟨expected, rfl⟩ | ⟨name, hname, rfl⟩) | hall
      · exact absurd rfl hend
      · rw [Option.or_none] at hname
        obtain ⟨front', rfl⟩ := List.getLast?_eq_some_iff.mp hname
        rw [List.append_assoc] at htokens
        exact absurd ⟨front', name, _, htokens, rfl, rfl⟩ hend
      · exact hall more
  · rw [hends] at h ⊢
    exact h

theorem Position.ofOffset_append_of_le {text : List Char} {index : Nat}
    (h : index ≤ byteSize text) (more : List Char) :
    ofOffset (text ++ more) index = ofOffset text index :=
  walk_append_of_ge (by omega) _ _

theorem map_ofOffset_append {o : Options} {s : String} {fault : Fault Nat}
    (h : (history o s).fault = some fault) (more : List Char) :
    fault.map (Position.ofOffset (s.toList ++ more)) = fault.map (Position.ofOffset s.toList) := by
  refine Fault.map_congr fun index hindex => Position.ofOffset_append_of_le ?_ more
  obtain ⟨before, behind, htext, rfl⟩ := (causedAt_history h index hindex).isBoundary hindex
  rw [htext, byteSize_append]
  omega

theorem compile_append_line_of_error {o : Options} {s : String} {fault : Fault Position}
    (h : compile o s = .error fault) (hne : fault ≠ .overflow) (hend : ¬ fault.AtEnd s)
    (t : String) : compile o (s ++ "\n" ++ t) = .error fault := by
  obtain ⟨f, hf, rfl⟩ := compile_eq_error_iff.mp h
  have hplain : f ≠ .overflow := fun hf => hne (congrArg _ hf)
  refine compile_eq_error_iff.mpr ⟨f, fault_history_append_line hf hplain hend t, ?_⟩
  have htext : (s ++ "\n" ++ t).toList = s.toList ++ '\n' :: t.toList := by simp
  rw [htext, map_ofOffset_append hf]

/-! ## Behind the class -/

theorem ClassDec.Spells.exists_brace {c : ClassDec} {u : List Token} (h : c.Spells u) :
    ∃ front brace, u = front ++ [brace] ∧ brace.kind = .mark .rightBrace := by
  have hspelled := Script.spelled_iff_exists_reads.mpr h
  rw [ClassDec.script, Script.spelled_append] at hspelled
  obtain ⟨front, v, rfl, -, hv⟩ := hspelled
  simp only [Script.spelled_mark, Script.spelled_leave, Script.spelled_nil] at hv
  obtain ⟨brace, -, rfl, hbrace, rfl⟩ := hv
  exact ⟨front, brace, rfl, hbrace⟩

/-- Sources that begin with the same class show the same. -/
theorem unplaced_history_of_spells {o : Options} {source source' : String} {c : ClassDec}
    {u rest rest' : List Token} (hc : c.Spells u) (h : tokenize source = u ++ rest)
    (h' : tokenize source' = u ++ rest') :
    (history o source').unplaced = (history o source).unplaced := by
  have hshown : ∀ source : String, (history o source).unplaced =
      (generateFrom o #[] (.initial o)
        ((descend classItems (tokenize source)).1.map (Event.map Token.unplaced))).unplaced := by
    intro source
    rw [← core_parse, history, generate]
    exact (unplaced_generateFrom o _ _).symm
  obtain ⟨es, hreads⟩ := hc
  rw [hshown, hshown, h, h', (descends_class hreads rest).descend_eq,
    (descends_class hreads rest').descend_eq]

theorem compile_of_spells {o : Options} {source source' : String} {out : Compiled} {c : ClassDec}
    {u rest rest' : List Token} (hc : c.Spells u) (h : tokenize source = u ++ rest)
    (h' : tokenize source' = u ++ rest') (hout : compile o source = .ok out) :
    compile o source' = .ok out := by
  have hshown := unplaced_history_of_spells (o := o) hc h h'
  have hfault : (history o source').fault.map Fault.unplaced =
      (history o source).fault.map Fault.unplaced := congrArg Prod.fst hshown
  obtain ⟨⟨hnone, hprogram⟩, htrace⟩ := compile_eq_ok_iff.mp hout
  refine compile_eq_ok_iff.mpr ⟨⟨?_, ?_⟩, ?_⟩
  · simpa [hnone] using hfault
  · rw [← hprogram, History.program_eq, History.program_eq, hshown]
  · rw [htrace, History.traceText_eq, History.traceText_eq, hshown]

theorem exists_brace_of_compile {o : Options} {source : String} {out : Compiled}
    (h : compile o source = .ok out) :
    ∃ (c : ClassDec) (front : List Token) (brace : Token) (rest : List Token),
      tokenize source = front ++ brace :: rest ∧ c.Spells (front ++ [brace]) ∧
      brace.kind = .mark .rightBrace := by
  obtain ⟨c, u, rest, hu, hc⟩ := exists_heads h
  obtain ⟨front, brace, rfl, hbrace⟩ := hc.exists_brace
  rw [List.append_assoc] at hu
  exact ⟨c, front, brace, rest, hu, hc, hbrace⟩

theorem compile_append_line_of_ok {o : Options} {s : String} {out : Compiled}
    (h : compile o s = .ok out) (t : String) : compile o (s ++ "\n" ++ t) = .ok out := by
  obtain ⟨c, front, brace, rest, htokens, hc, hbrace⟩ := exists_brace_of_compile h
  obtain ⟨more, -, hmore⟩ := exists_tokenize_append_line s t
  obtain ⟨before, hfinish, -⟩ := (tokenize_lossless s).finish
  have hrest : rest ≠ [] := by
    rintro rfl
    rw [htokens] at hfinish
    obtain ⟨-, hlast⟩ := List.append_inj' hfinish rfl
    rw [List.singleton_inj.mp hlast] at hbrace
    cases hbrace
  have hu : tokenize s = (front ++ [brace]) ++ rest := by rw [htokens, List.append_assoc]; rfl
  have hlonger : tokenize (s ++ "\n" ++ t) = (front ++ [brace]) ++ (rest.dropLast ++ more) := by
    rw [hmore, hu, List.dropLast_append_of_ne_nil hrest, List.append_assoc]
  exact compile_of_spells hc hu hlonger h

/-- Nothing is said of a panic, which is neither a result nor an error. -/
theorem text_behind_is_unread {o : Options} {s : String}
    (h : ∀ fault, compile o s = .error fault → fault ≠ .overflow ∧ ¬ fault.AtEnd s) :
    (∀ t, compile o (s ++ "\n" ++ t) = compile o s) ∧
    ∀ out, compile o s = .ok out →
      ∃ (c : ClassDec) (front rest : List Token) (brace : Token) (before after : String),
        tokenize s = front ++ brace :: rest ∧ c.Spells (front ++ [brace]) ∧
        s = before ++ "\x7d" ++ after ∧ brace.span.index = byteSize before.toList ∧
        ∀ t, compile o (before ++ "\x7d" ++ t) = .ok out := by
  refine ⟨fun t => ?_, fun out hout => ?_⟩
  · cases hs : compile o s with
    | ok out => exact compile_append_line_of_ok hs t
    | error fault =>
      obtain ⟨hne, hend⟩ := h fault hs
      exact compile_append_line_of_error hs hne hend t
  · obtain ⟨c, front, brace, rest, htokens, hc, hbrace⟩ := exists_brace_of_compile hout
    obtain ⟨before, after, htext, hindex, hafter⟩ :=
      exists_tokenize_behind_mark htokens hbrace (by decide)
    refine ⟨c, front, rest, brace, before, after, htokens, hc, htext, hindex, fun t => ?_⟩
    obtain ⟨more, hmore⟩ := hafter t
    have hu : tokenize s = (front ++ [brace]) ++ rest := by rw [htokens, List.append_assoc]; rfl
    have hother : tokenize (before ++ "\x7d" ++ t) = (front ++ [brace]) ++ more := by
      rw [List.append_assoc]
      exact hmore
    exact compile_of_spells hc hu hother hout

theorem text_behind_is_unread_sources :
    (∃ out, compile {} loopSource = .ok out ∧
      compile {} (loopSource ++ "\n" ++ "/* \x7b") = .ok out) ∧
    compile {} (openSource ++ "\n" ++ "*/ class \"") =
      .error (.unexpected variableTypes strayBrace ⟨1, 28⟩) := by
  have hopen : compile {} openSource =
      .error (.unexpected variableTypes strayBrace ⟨1, 28⟩) :=
    compile_eq_error_iff.mpr
      ⟨.unexpected variableTypes strayBrace 27, by decide +kernel, by decide +kernel⟩
  obtain ⟨out, hout⟩ := exists_compile_loopSource
  refine ⟨⟨out, hout, ?_⟩, ?_⟩
  · rw [← hout]
    refine (text_behind_is_unread fun fault hfault => ?_).1 _
    rw [hout] at hfault
    cases hfault
  · rw [← hopen]
    refine (text_behind_is_unread fun fault hfault => ?_).1 _
    rw [hopen] at hfault
    cases hfault
    exact ⟨by simp, Terminal.noConfusion⟩

/-- A name at the end of a source, and tokens that make it a class's. -/
example :
    (history {} "class A \x7b function int f() \x7b return B").fault = some (.undefined "B" 36) ∧
      (history {} ("class A \x7b function int f() \x7b return B" ++ "\n" ++
        ".g(); \x7d \x7d")).fault = none := by
  decide +kernel

end JackCompiler
