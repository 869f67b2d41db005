import JackCompiler.Proofs.Codegen.Emission
import JackCompiler.Proofs.Token.Layout

/-!
# Names and types are words

What a class is called, and what its subroutines, the types of its variables and the
subroutines that it calls are, is made of words of its source (`ClassDec.Heads.worded`).
-/

namespace JackCompiler

/-! ## Words -/

theorem IsWord.forall_isWordChar {word : List Char} (h : IsWord word) :
    ∀ c ∈ word, isWordChar c = true := by
  obtain ⟨c, cs, rfl, hc, hcs⟩ := h
  exact List.forall_mem_cons.mpr ⟨by rw [isWordChar, hc, Bool.true_or], hcs⟩

theorem IsWord.not_mem {word : List Char} (h : IsWord word) {c : Char}
    (hc : isWordChar c = false) : c ∉ word := by
  intro hmem
  rw [h.forall_isWordChar c hmem] at hc
  cases hc

def Terminal.isWord : Terminal → Bool
  | .ident => true
  | .keyword _ => true
  | _ => false

theorem isWord_of_mem_tokenize {source : String} {t : Token} (ht : t ∈ tokenize source)
    (hkind : t.kind.isWord = true) : IsWord t.lexeme.toList := by
  refine (Cursor.wordKind_of_spells (spells_of_mem_tokenize ht) ?_).1
  cases hk : t.kind with
  | ident => exact .inl rfl
  | keyword k => exact .inr ⟨k, rfl⟩
  | mark | number | text | finish =>
    rw [hk] at hkind
    cases hkind

/-! ## Tokens of scripts -/

def Script.Words (p : Script) (t : Token) : Prop :=
  Part.token t ∈ p ∧ t.kind.isWord = true

theorem Script.Words.mono {p q : Script} {t : Token} (h : p.Words t) (hpq : p ⊆ q) : q.Words t :=
  ⟨hpq h.1, h.2⟩

theorem Reads.mem_of_token {p : Script} {u : List Token} {es : List Event} (h : Reads p u es)
    {t : Token} (ht : Part.token t ∈ p) : t ∈ u := by
  induction h with
  | nil => cases ht
  | note _ ih => exact ih ((List.mem_cons.mp ht).resolve_left Part.noConfusion)
  | fixed _ ih =>
    exact List.mem_cons_of_mem _ (ih ((List.mem_cons.mp ht).resolve_left Part.noConfusion))
  | token _ ih =>
    rcases List.mem_cons.mp ht with he | ht
    · cases he
      exact List.mem_cons_self
    · exact List.mem_cons_of_mem _ (ih ht)

theorem ClassDec.Heads.isWord {tree : ClassDec} {source : String} (h : tree.Heads source)
    {t : Token} (ht : tree.script.Words t) : IsWord t.lexeme.toList := by
  obtain ⟨u, rest, hu, es, hreads⟩ := h
  have hmem : t ∈ tokenize source := by
    rw [hu]
    exact List.mem_append_left _ (hreads.mem_of_token ht.1)
  exact isWord_of_mem_tokenize hmem ht.2

theorem Name.isWord (name : Name) : name.token.kind.isWord = true := by
  rw [List.mem_singleton.mp name.kind_mem]
  rfl

theorem isWord_of_mem_variableTypes {kind : Terminal} (h : kind ∈ variableTypes) :
    kind.isWord = true := by
  have hall : variableTypes.all Terminal.isWord = true := by decide
  exact List.all_eq_true.mp hall kind h

/-! ## Words of declarations -/

theorem Declared.words_type (kind : VariableKind) (d : Declared) :
    (d.script kind).Words d.type.token :=
  ⟨by simp [script], isWord_of_mem_variableTypes d.type.kind_mem⟩

theorem words_parameter {ps : List Parameter} {p : Parameter} (h : p ∈ ps) :
    (parametersScript ps).Words p.type.token := by
  refine ⟨?_, isWord_of_mem_variableTypes p.type.kind_mem⟩
  cases ps with
  | nil => cases h
  | cons first ps =>
    rw [parametersScript, List.mem_append]
    rcases List.mem_cons.mp h with rfl | h
    · exact .inl List.mem_cons_self
    · refine .inr (List.mem_flatMap.mpr ⟨p, h, ?_⟩)
      exact List.mem_cons_of_mem _ List.mem_cons_self

def CallName.names : CallName → List Name
  | .own name => [name]
  | .member qualifier name => [qualifier, name]

theorem CallSite.Stands.words {site : CallSite} {p : Script} (h : site.Stands p) {name : Name}
    (hname : name ∈ site.target.names) : p.Words name.token := by
  obtain ⟨arguments, -, hp⟩ := h
  refine ⟨hp.subset ?_, name.isWord⟩
  have hmem : Part.token name.token ∈ site.target.nameScript := by
    cases htarget : site.target with
    | own own =>
      rw [htarget] at hname
      rw [List.mem_singleton.mp hname]
      exact List.mem_cons_self
    | member qualifier member =>
      rw [htarget] at hname
      rcases List.mem_cons.mp hname with rfl | hname
      · exact List.mem_cons_self
      · rw [List.mem_singleton.mp hname]
        exact List.mem_cons_of_mem _ (List.mem_cons_of_mem _ List.mem_cons_self)
  simp [CallName.script, hmem]

/-! ## Classes -/

/-- Of the class, what is a part of a name in its program is a word. -/
structure ClassDec.Worded (tree : ClassDec) : Prop where
  className : IsWord tree.name.token.lexeme.toList
  subroutine : ∀ s ∈ tree.subroutines, IsWord s.name.token.lexeme.toList
  outer : ∀ d ∈ tree.declarations, IsWord d.type.toList
  inner : ∀ s ∈ tree.subroutines, ∀ d ∈ tree.localDeclarations s, IsWord d.type.toList
  call : ∀ s ∈ tree.subroutines, ∀ site ∈ s.body.calls, ∀ name ∈ site.target.names,
    IsWord name.token.lexeme.toList

section

variable {tree : ClassDec} {s : SubroutineDec}

theorem ClassDec.subset_script (hs : s ∈ tree.subroutines) : s.script ⊆ tree.script := by
  intro x hx
  simp only [script, List.mem_append, List.mem_flatMap]
  exact .inl (.inr ⟨s, hs, hx⟩)

theorem Declared.type_of_mem {kind : VariableKind} {d : Declared} {e : Declaration}
    (h : e ∈ d.declarations kind) : e.type = d.type.token.lexeme := by
  obtain ⟨name, -, rfl⟩ := List.mem_map.mp h
  rfl

theorem ClassDec.Heads.worded {source : String} (h : tree.Heads source) : tree.Worded := by
  have hname : IsWord tree.name.token.lexeme.toList :=
    h.isWord ⟨by simp [script], tree.name.isWord⟩
  have hsubroutine : ∀ s ∈ tree.subroutines, ∀ t, s.script.Words t → IsWord t.lexeme.toList :=
    fun s hs t ht => h.isWord (ht.mono (subset_script hs))
  exact {
    className := hname
    subroutine := fun s hs =>
      hsubroutine s hs _ ⟨by simp [SubroutineDec.script], s.name.isWord⟩
    outer := fun e he => by
      obtain ⟨d, hd, he⟩ := List.mem_flatMap.mp he
      rw [Declared.type_of_mem he]
      refine h.isWord ((d.declared.words_type d.kind).mono fun x hx => ?_)
      simp only [script, ClassVarDec.script, List.mem_append, List.mem_flatMap]
      exact .inl (.inl (.inr ⟨d, hd, .inl (.inr hx)⟩))
    inner := fun s hs e he => by
      simp only [localDeclarations, List.mem_append, List.mem_map, List.mem_flatMap] at he
      rcases he with (he | ⟨p, hp, rfl⟩) | ⟨d, hd, he⟩
      · unfold receiverDeclarations at he
        split at he
        · rw [List.mem_singleton.mp he]
          exact hname
        · cases he
      · refine hsubroutine s hs _ ((words_parameter hp).mono fun x hx => ?_)
        simp [SubroutineDec.script, hx]
      · rw [Declared.type_of_mem he]
        refine hsubroutine s hs _ ((d.words_type .local).mono fun x hx => ?_)
        simp only [SubroutineDec.script, localsScript, List.mem_append, List.mem_flatMap]
        exact .inl (.inl (.inl (.inr ⟨d, hd, .inl (.inr hx)⟩)))
    call := fun s hs site hsite name hn => by
      refine hsubroutine s hs _ (((s.body.stands site hsite).words hn).mono fun x hx => ?_)
      simp [SubroutineDec.script, hx] }

end

end JackCompiler
