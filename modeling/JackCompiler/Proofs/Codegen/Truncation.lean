import JackCompiler.Proofs.Codegen.Calls
import JackCompiler.Proofs.Codegen.Online
import JackCompiler.Proofs.Syntax.Fallbacks

/-!
# Sources that are cut off

A compilation fails on a token that cannot stand where it does or on what the class says with
its names and constants. A source that does not hold a whole class fails at its end, if it does
not fail before (`fallbacks_unreachable`). There is one other way, and it is a panic: to count
more arguments than fit in a word (`fallbacks_unreachable_overflow`).
-/

namespace JackCompiler

/-! ## The end of a source -/

def endToken (source : String) : Token :=
  ⟨.finish, ⟨byteSize source.toList, 0⟩, ""⟩

theorem exists_tokenize_concat (source : String) :
    ∃ front, tokenize source = front ++ [endToken source] ∧ ∀ t ∈ front, t.kind ≠ .finish :=
  (tokenize_lossless source).finish

theorem exhausted_notMem_parse (source : String) :
    .exhausted ∉ (parse (scan source.toList).toList).toList := by
  rw [← mem_coreEvents_of_isFault rfl, core_parse]
  obtain ⟨front, htokens, -⟩ := exists_tokenize_concat source
  exact exhausted_notMem_descend fixed_classItems ⟨endToken source, by simp [htokens], rfl⟩

theorem kind_ne_finish_of_mem_parse {source : String} {t : Token}
    (ht : .take t ∈ (parse (scan source.toList).toList).toList) : t.kind ≠ .finish := by
  have hcore : .take t ∈ coreEvents (parse (scan source.toList).toList) :=
    List.mem_filter.mpr ⟨ht, rfl⟩
  rw [core_parse] at hcore
  exact kind_ne_finish_of_mem_descend fixed_classItems hcore

/-! ## Compilations -/

/-- The source counts arguments of a call for which a word can be too small. -/
def Overflows (source : String) : Prop :=
  ∃ a, .note (.act a) ∈ (parse (scan source.toList).toList).toList ∧ a.Overflows

theorem fault_cases {o : Options} {source : String} {fault : Fault Nat}
    (h : (history o source).fault = some fault) :
    (fault.IsSemantic ∨ fault = .overflow ∧ Overflows source) ∨
      ∃ expected found, fault = .unexpected expected found found.span.index := by
  obtain ⟨e, he, c, hstep⟩ := exists_step_of_fault h
  cases e with
  | refuse expected found =>
    cases hstep
    exact .inr ⟨expected, found, rfl⟩
  | exhausted => exact absurd he (exhausted_notMem_parse source)
  | look | take => cases hstep
  | note n =>
    cases n with
    | enter | leave => cases hstep
    | act a =>
      exact .inl ((perform_eq_error hstep).imp_right fun h => ⟨h.1, a, he, h.2⟩)

/-- A token called unexpected is the last one, or one before it with which no class goes on. -/
theorem found_cases {o : Options} {source : String} {expected : List Terminal} {found : Token}
    {place : Nat} (h : (history o source).fault = some (.unexpected expected found place)) :
    found = endToken source ∨ found ∈ (tokenize source).dropLast ∧
      ¬ Viable ((tokenize source).dropLast.map Token.kind) := by
  obtain ⟨u, rest, htokens, hstalls, -⟩ := stalls_of_unexpected h
  obtain ⟨front, hfront, -⟩ := exists_tokenize_concat source
  have hdrop : (tokenize source).dropLast = front := by rw [hfront, List.dropLast_concat]
  rcases List.eq_nil_or_concat' rest with rfl | ⟨rest, last, rfl⟩
  · have hlast := (List.append_inj' (htokens.symm.trans hfront) rfl).2
    exact .inl (List.singleton_inj.mp hlast)
  · have hu : u ++ found :: rest = front := by
      have happend : (u ++ found :: rest) ++ [last] = front ++ [endToken source] := by
        rw [← hfront, htokens, List.append_assoc, List.cons_append]
      exact (List.append_inj' happend rfl).1
    rw [hdrop, ← hu]
    refine .inr ⟨by simp, fun hviable => hstalls.not_viable ?_⟩
    rw [List.map_append, List.map_cons, List.append_cons] at hviable
    exact hviable.of_append

theorem exists_compile_error {o : Options} {source : String}
    (h : ∀ tree : ClassDec, ¬ tree.Heads source) :
    ∃ fault, (history o source).fault = some fault := by
  cases hfault : (history o source).fault with
  | some fault => exact ⟨fault, rfl⟩
  | none =>
    obtain ⟨tree, htree⟩ := exists_heads_of_fault hfault
    exact absurd htree (h tree)

/-- A parse takes every token but the last one, so that there is always one to look at, and comes
to none of the branches for tokens that tell no alternative. A compilation then fails on an
unexpected token, a name or a constant, or it counts too many arguments. It fails if the source
holds no whole class, and when it does so on a token, that is the last one or one with which no
class goes on. -/
theorem fallbacks_unreachable (o : Options) (source : String) :
    (∀ t, .take t ∈ (parse (scan source.toList).toList).toList → t.kind ≠ .finish) ∧
      .exhausted ∉ (parse (scan source.toList).toList).toList ∧
      (branchingDescend (classItems.map .item) (tokenize source)).map Prod.fst =
        .ok (coreEvents (parse (scan source.toList).toList)) ∧
      (∀ fault, compile o source = .error fault →
        (fault.IsSemantic ∨ fault = .overflow ∧ Overflows source) ∨
        ∃ expected, ∃ found ∈ tokenize source,
          fault = .unexpected expected found (found.span.position source.toList)) ∧
      ((∀ tree : ClassDec, ¬ tree.Heads source) → ∃ fault, compile o source = .error fault ∧
        ((fault.IsSemantic ∨ fault = .overflow ∧ Overflows source) ∨ ∃ expected found,
          fault = .unexpected expected found (found.span.position source.toList) ∧
          (found = endToken source ∨ found ∈ (tokenize source).dropLast ∧
            ¬ Viable ((tokenize source).dropLast.map Token.kind)))) := by
  refine ⟨fun t => kind_ne_finish_of_mem_parse, exhausted_notMem_parse source, ?_,
    fun fault hcompile => ?_, fun hheads => ?_⟩
  · rw [branchingDescend_eq, core_parse]
    rfl
  · obtain ⟨f, hf, rfl⟩ := compile_eq_error_iff.mp hcompile
    rcases fault_cases hf with (hsemantic | ⟨rfl, hmany⟩) | ⟨expected, found, rfl⟩
    · exact .inl (.inl (Fault.isSemantic_map.mpr hsemantic))
    · exact .inl (.inr ⟨rfl, hmany⟩)
    · obtain ⟨u, rest, htokens, -, -⟩ := stalls_of_unexpected hf
      exact .inr ⟨expected, found, by simp [htokens], rfl⟩
  · obtain ⟨f, hf⟩ := exists_compile_error (o := o) hheads
    refine ⟨_, compile_eq_error_iff.mpr ⟨f, hf, rfl⟩, ?_⟩
    rcases fault_cases hf with (hsemantic | ⟨rfl, hmany⟩) | ⟨expected, found, rfl⟩
    · exact .inl (.inl (Fault.isSemantic_map.mpr hsemantic))
    · exact .inl (.inr ⟨rfl, hmany⟩)
    · exact .inr ⟨expected, found, rfl, found_cases hf⟩

theorem not_heads_of_unexpected {o : Options} {source : String} {expected : List Terminal}
    {found : Token} {place : Position}
    (h : compile o source = .error (.unexpected expected found place)) (tree : ClassDec) :
    ¬ tree.Heads source := by
  rintro ⟨u, rest, hu, es, hr⟩
  obtain ⟨fault, hfault, he⟩ := compile_eq_error_iff.mp h
  obtain ⟨index, rfl⟩ : ∃ index, fault = .unexpected expected found index := by
    cases fault with
    | unexpected expected' found' index =>
      obtain ⟨rfl, rfl, -⟩ := Fault.unexpected.inj he
      exact ⟨index, rfl⟩
    | _ => cases he
  obtain ⟨v, rest', hv, hstalls, -⟩ := stalls_of_unexpected hfault
  have hdescends := (descends_class hr rest).descend_eq
  have hstall := hstalls.not_descends rest'
  rw [← hu, hv] at hdescends
  rw [hdescends] at hstall
  cases hstall

def cutSource : String :=
  "class A \x7b function void f() \x7b do g(\"ab"

theorem fallbacks_unreachable_cutSource :
    compile {} cutSource =
        .error (.unexpected [.mark .rightParen] (endToken cutSource) ⟨1, 39⟩) ∧
      (∀ tree : ClassDec, ¬ tree.Heads cutSource) ∧
      ∃ fault, compile {} cutSource = .error fault ∧ ¬ fault.IsSemantic := by
  have hcompile : compile {} cutSource =
      .error (.unexpected [.mark .rightParen] (endToken cutSource) ⟨1, 39⟩) :=
    compile_eq_error_iff.mpr
      ⟨.unexpected [.mark .rightParen] (endToken cutSource) 38, by decide +kernel, by decide +kernel⟩
  have hheads := not_heads_of_unexpected hcompile
  obtain ⟨-, -, -, -, hcut⟩ := fallbacks_unreachable {} cutSource
  obtain ⟨fault, hfault, hcases⟩ := hcut hheads
  refine ⟨hcompile, hheads, fault, hfault, ?_⟩
  rw [hcompile] at hfault
  cases hfault
  exact id

/-! ## A call that is not closed -/

def openCallSource (n : Nat) : String :=
  argumentsHead ++ "\n" ++ argumentLines "" n

def behindArgument (t : Token) (callee : Callee) (count : Nat) (stack : List Item) : List Item :=
  [.act (.pushInteger t), .leave .term, .goal .operators, .leave .expression,
    .act (.countArguments count), .goal (.moreArguments callee count)] ++ stack

section

variable {o : Options} {c : Context} {t next : Token} {callee : Callee} {count : Nat}
  {stack : List Item}

theorem descend_behindArgument (hnext : BinaryOp.ofTerminal? next.kind = none)
    (tokens : List Token) :
    (descend (behindArgument t callee count stack) (next :: tokens)).1 =
      [Note.act (.pushInteger t), .leave .term, .leave .expression,
        .act (.countArguments count)].map .note ++
      (descend (.goal (.moreArguments callee count) :: stack) (next :: tokens)).1 := by
  have hpass : Goal.operators.move next = .pass [] := by
    simp only [Goal.move, hnext]
  rw [behindArgument, List.cons_append, List.cons_append, List.cons_append, List.cons_append,
    List.cons_append, List.cons_append, List.nil_append, Item.act, descend_note, Item.leave,
    descend_note, descend_pass hpass, Item.leave, descend_note, Item.act, descend_note]
  rfl

theorem fault_behindArgument (ht : t.lexeme = "0")
    (hnext : BinaryOp.ofTerminal? next.kind = none) (tokens : List Token) :
    (generateFrom o #[] c
        (descend (behindArgument t callee count stack) (next :: tokens)).1).fault =
      if count ≤ 65535 then
        (generateFrom o #[] c
          (descend (.goal (.moreArguments callee count) :: stack) (next :: tokens)).1).fault
      else some .overflow := by
  have hactions : ([Note.act (.pushInteger t), .leave .term, .leave .expression,
      .act (.countArguments count)].map Event.note).filterMap Event.action? =
        [.pushInteger t, .countArguments count] :=
    rfl
  have hzero : integerValue? t.lexeme = some 0 := by
    rw [ht]
    decide
  rw [descend_behindArgument hnext, fault_generateFrom_append isFault_note, hactions]
  by_cases hcount : count ≤ 65535
  · have hword : count < UInt16.size := Nat.lt_succ_of_le hcount
    simp [performAll, perform, hzero, argumentCount, hword, hcount, bind, Except.bind, pure,
      Except.pure]
  · have hword : ¬ count < UInt16.size := fun h => hcount (Nat.le_of_lt_succ h)
    simp [performAll, perform, hzero, argumentCount, hword, hcount, bind, Except.bind]

theorem fault_argumentTokens {finish : Token} (hfinish : finish.kind = .finish)
    (ht : t.lexeme = "0") (n d : Nat) (h : 65535 < count + n) :
    (generateFrom o #[] c (descend (behindArgument t callee count stack)
      (argumentTokens n d ++ [finish])).1).fault = some .overflow := by
  -- On the arguments that follow: the count grows with each of them, and the last one is counted
  -- before the end of the source is met.
  induction n generalizing t count d with
  | zero =>
    rw [argumentTokens, List.nil_append, fault_behindArgument ht (by rw [hfinish]; rfl)]
    exact if_neg (Nat.not_le_of_lt h)
  | succ n ih =>
    rw [argumentTokens, List.cons_append, List.cons_append, fault_behindArgument ht rfl]
    split
    · -- The comma is taken, and the number behind it.
      have hconsumes : Consumes (.goal (.moreArguments callee count) :: stack)
          [⟨.mark .comma, ⟨0 + d, 1⟩, ","⟩, ⟨.number, ⟨1 + d, 1⟩, "0"⟩] _
          (behindArgument ⟨.number, ⟨1 + d, 1⟩, "0"⟩ callee (count + 1) stack) :=
        .take rfl (.take rfl .done)
      have hdescend := hconsumes.descend_append (argumentTokens n (3 + d) ++ [finish])
      rw [List.cons_append, List.cons_append, List.nil_append] at hdescend
      rw [hdescend, fault_generateFrom_append hconsumes.not_isFault]
      exact ih rfl (3 + d) (by omega)
    · rfl

end

theorem exists_consumes_argumentsHead (o : Options) : ∃ es stack c p,
    Consumes classItems (tokenize argumentsHead).dropLast es
      (behindArgument ⟨.number, ⟨35, 1⟩, "0"⟩ (.own ⟨.ident, ⟨33, 1⟩, "g"⟩) 1 stack) ∧
    performAll o (.initial o) (es.filterMap Event.action?) = .ok (c, p) := by
  rw [tokenize_argumentsHead]
  unfold classItems
  -- What a token makes of the goal on top leaves one constructor for each item.
  exact ⟨_, _, _, _, by
    repeat first
      | exact .done
      | apply Consumes.note
      | apply Consumes.take rfl
      | apply Consumes.pass rfl, by rfl⟩

theorem exists_tokenize_openCallSource (n : Nat) : ∃ finish, finish.kind = .finish ∧
    tokenize (openCallSource n) =
      (tokenize argumentsHead).dropLast ++ (argumentTokens n 37 ++ [finish]) := by
  have hend : tokenize "" = [⟨.finish, ⟨0, 0⟩, ""⟩] := by decide +kernel
  obtain ⟨e, htokens⟩ := exists_tokenize_argumentsHead "" n
  exact ⟨_, rfl, by rw [openCallSource, htokens, hend, List.map_singleton]⟩

theorem compile_openCallSource (o : Options) {n : Nat} (h : 65535 ≤ n) :
    compile o (openCallSource n) = .error .overflow := by
  obtain ⟨es, stack, c, p, hconsumes, hrun⟩ := exists_consumes_argumentsHead o
  obtain ⟨finish, hfinish, htokens⟩ := exists_tokenize_openCallSource n
  have hmany : 65535 < 1 + n := by omega
  refine compile_eq_error_iff.mpr ⟨.overflow, ?_, rfl⟩
  rw [fault_history, htokens, hconsumes.descend_append,
    fault_generateFrom_append hconsumes.not_isFault, hrun]
  exact fault_argumentTokens hfinish rfl n 37 hmany

theorem kind_ne_rightBrace_of_mem {n d : Nat} :
    ∀ t ∈ argumentTokens n d, t.kind ≠ .mark .rightBrace := by
  induction n generalizing d with
  | zero => exact List.forall_mem_nil _
  | succ n ih =>
    exact List.forall_mem_cons.mpr ⟨by simp, List.forall_mem_cons.mpr ⟨by simp, ih⟩⟩

theorem not_heads_openCallSource (n : Nat) (tree : ClassDec) : ¬ tree.Heads (openCallSource n) := by
  rintro ⟨u, rest, hu, hspells⟩
  obtain ⟨front, brace, rfl, hbrace⟩ := hspells.exists_brace
  obtain ⟨finish, hfinish, htokens⟩ := exists_tokenize_openCallSource n
  have hmem : brace ∈ (tokenize argumentsHead).dropLast ++ (argumentTokens n 37 ++ [finish]) := by
    rw [← htokens, hu]
    simp
  have hnone : ∀ t ∈ (tokenize argumentsHead).dropLast, t.kind ≠ .mark .rightBrace := by
    decide +kernel
  rcases List.mem_append.mp hmem with hmem | hmem
  · exact hnone brace hmem hbrace
  rcases List.mem_append.mp hmem with hmem | hmem
  · exact kind_ne_rightBrace_of_mem brace hmem hbrace
  · obtain rfl := List.mem_singleton.mp hmem
    rw [hfinish] at hbrace
    cases hbrace

theorem fallbacks_unreachable_overflow : ¬ ∀ o source,
    (∀ tree : ClassDec, ¬ tree.Heads source) → ∃ fault, compile o source = .error fault ∧
      (fault.IsSemantic ∨ ∃ expected found,
        fault = .unexpected expected found (found.span.position source.toList)) := by
  intro h
  obtain ⟨fault, hfault, hcases⟩ := h {} _ (not_heads_openCallSource 65535)
  rw [compile_openCallSource {} le_rfl] at hfault
  cases hfault
  rcases hcases with hsemantic | ⟨expected, found, hfound⟩
  · exact hsemantic
  · cases hfound

end JackCompiler
