import JackCompiler.Proofs.Syntax.Fallbacks

/-!
# What follows a token

Behind a token that a goal takes, a parse goes on with the items that the goal leaves. The notes
on top of these are made before another token is looked at; a string constant is one that is
pushed at once (`exists_pushText`).
-/

namespace JackCompiler

def Takeless (es : List Event) : Prop :=
  ∀ t, .take t ∉ es

theorem takeless_nil : Takeless [] :=
  fun _ => List.not_mem_nil

theorem Takeless.append {es fs : List Event} (hes : Takeless es) (hfs : Takeless fs) :
    Takeless (es ++ fs) := by
  intro t ht
  rcases List.mem_append.mp ht with ht | ht
  · exact hes t ht
  · exact hfs t ht

theorem takeless_singleton {e : Event} (he : ∀ t, e ≠ .take t) : Takeless [e] := by
  intro t ht
  exact he t (List.mem_singleton.mp ht).symm

theorem takeless_notes (notes : List Note) : Takeless (notes.map .note) := by
  intro t ht
  obtain ⟨n, -, hn⟩ := List.mem_map.mp ht
  cases hn

theorem Takeless.ne_append {es before after : List Event} {t : Token} (hes : Takeless es) :
    es ≠ before ++ .take t :: after := by
  rintro rfl
  exact hes t (by simp)

theorem Takeless.eq_append {es fs before after : List Event} {t : Token} (hes : Takeless es)
    (h : es ++ fs = before ++ .take t :: after) :
    ∃ more, before = es ++ more ∧ fs = more ++ .take t :: after := by
  rcases List.append_eq_append_iff.mp h with ⟨more, rfl, hfs⟩ | ⟨more, rfl, htake⟩
  · exact ⟨more, rfl, hfs⟩
  · cases more with
    | nil => exact ⟨[], by simp, htake.symm⟩
    | cons e more =>
      obtain ⟨rfl, -⟩ := List.cons.inj htake
      exact absurd rfl hes.ne_append

/-! ## Parts of a parse -/

theorem takeless_settle (stack : List Item) : Takeless (settle #[] stack).1.toList := by
  induction stack with
  | nil => exact takeless_nil
  | cons item stack ih =>
    cases item with
    | goal g => exact takeless_nil
    | note n =>
      rw [settle, settle_eq]
      simpa using (takeless_notes [n]).append ih

theorem mem_of_mem_settle {stack : List Item} : ∀ i ∈ (settle #[] stack).2, i ∈ stack := by
  induction stack with
  | nil => simp [settle]
  | cons item stack ih =>
    cases item with
    | goal g => exact fun i hi => hi
    | note n =>
      rw [settle, settle_eq]
      exact fun i hi => List.mem_cons_of_mem _ (ih i hi)

/-- A token that is handed down the stack is taken last, by one of the goals, if it is taken. -/
def Handed (t : Token) (stack : List Item) (result : Array Event × Option (List Item)) : Prop :=
  (result.2 = none ∧ Takeless result.1.toList) ∨
    ∃ (es : Array Event) (g : Goal) (before : List Note) (after rest : List Item),
      result = (es.push (.take t), some (after ++ rest)) ∧ Takeless es.toList ∧
      .goal g ∈ stack ∧ rest ⊆ stack ∧ g.move t = .take before after

theorem Handed.behind {t : Token} {stack : List Item} {result : Array Event × Option (List Item)}
    (h : Handed t stack result) (item : Item) (notes : List Note) :
    Handed t (item :: stack) ((notes.map Event.note).toArray ++ result.1, result.2) := by
  rcases h with ⟨hnone, hresult⟩ | ⟨es, g, before, after, rest, rfl, hes, hg, hrest, hmove⟩
  · exact .inl ⟨hnone, by simpa using (takeless_notes notes).append hresult⟩
  · refine .inr ⟨(notes.map Event.note).toArray ++ es, g, before, after, rest, by simp,
      by simpa using (takeless_notes notes).append hes, List.mem_cons_of_mem _ hg,
      List.subset_cons_of_subset _ hrest, hmove⟩

theorem handed_offer (t : Token) (stack : List Item) : Handed t stack (offer t #[] stack) := by
  induction stack with
  | nil => exact .inl ⟨rfl, takeless_nil⟩
  | cons item stack ih =>
    cases item with
    | note n =>
      rw [offer, offer_eq]
      exact ih.behind _ [n]
    | goal g =>
      rw [offer]
      cases hg : g.move t with
      | take before after =>
        refine .inr ⟨_, g, before, after, stack, rfl, ?_, List.mem_cons_self,
          List.subset_cons_self _ _, hg⟩
        rw [pushNotes_eq]
        simpa using takeless_notes before
      | pass before =>
        simp only
        rw [offer_eq, pushNotes_eq, Array.empty_append]
        exact ih.behind _ before
      | refuse before expected =>
        refine .inl ⟨rfl, ?_⟩
        simp only
        rw [pushNotes_eq]
        simpa using (takeless_notes before).append (takeless_singleton fun _ => Event.noConfusion)

/-- Behind a token that is taken, the parse goes on with what the goal leaves to do. -/
theorem exists_parseFrom_of_take {stack : List Item} {tokens : List Scanned} {t : Token}
    {before after : List Event} (hstack : ∀ i ∈ stack, i.Fixed)
    (h : (parseFrom #[] stack tokens).toList = before ++ .take t :: after) :
    ∃ g notes items rest tokens', (Item.goal g).Fixed ∧ g.move t = .take notes items ∧
      after = (parseFrom #[] (items ++ rest) tokens').toList := by
  induction tokens generalizing stack before with
  | nil =>
    have htakeless : Takeless (parseFrom #[] stack []).toList := by
      rw [parseFrom]
      have hsettle := takeless_settle stack
      generalize settle #[] stack = result at hsettle ⊢
      obtain ⟨es, _ | ⟨item, rest⟩⟩ := result
      · exact hsettle
      · simpa using hsettle.append (takeless_singleton (e := .exhausted) fun _ => Event.noConfusion)
    exact absurd h htakeless.ne_append
  | cons s tokens ih =>
    rw [parseFrom] at h
    have hsettle := takeless_settle stack
    have hmem : ∀ i ∈ (settle #[] stack).2, i.Fixed := fun i hi => hstack i (mem_of_mem_settle i hi)
    generalize settle #[] stack = result at h hsettle hmem
    obtain ⟨es, top⟩ := result
    cases top with
    | nil =>
      simp only at h
      exact absurd h hsettle.ne_append
    | cons item top =>
      have hlook : Takeless (es.push (.look s.skipped)).toList := by
        simpa using
          hsettle.append (takeless_singleton (e := .look s.skipped) fun _ => Event.noConfusion)
      have hoffer := handed_offer s.token (item :: top)
      simp only at h hmem
      rw [offer_eq] at h
      generalize offer s.token #[] (item :: top) = handed at h hoffer
      rcases hoffer with ⟨hnone, hfs⟩ | ⟨fs, g, notes, items, rest, rfl, hfs, hg, hrest, hmove⟩
      · rw [hnone] at h
        simp only [Array.toList_append] at h
        exact absurd h (hlook.append hfs).ne_append
      · simp only at h
        rw [parseFrom_eq, Array.toList_append, Array.toList_append, @Array.toList_push _ fs,
          ← List.append_assoc, List.append_assoc _ [_]] at h
        obtain ⟨more, -, hmore⟩ := (hlook.append hfs).eq_append h
        -- The token is the one handed down just now, or it is taken later.
        cases more with
        | nil =>
          obtain ⟨ht, rfl⟩ := List.cons.inj hmore
          obtain rfl := Event.take.inj ht
          exact ⟨g, notes, items, rest, tokens, hmem _ hg, hmove, rfl⟩
        | cons e more =>
          have hitems : ∀ i ∈ items ++ rest, i.Fixed :=
            List.forall_mem_append.mpr ⟨fixed_after hmove, fun i hi => hmem i (hrest hi)⟩
          exact ih hitems (List.cons.inj hmore).2

theorem parseFrom_note (n : Note) (stack : List Item) (tokens : List Scanned) :
    (parseFrom #[] (.note n :: stack) tokens).toList =
      .note n :: (parseFrom #[] stack tokens).toList := by
  cases tokens with
  | nil =>
    rw [parseFrom, parseFrom, settle, settle_eq]
    rcases settle #[] stack with ⟨es, _ | ⟨item, rest⟩⟩ <;> simp
  | cons s tokens =>
    rw [parseFrom, parseFrom, settle, settle_eq]
    rcases settle #[] stack with ⟨es, _ | ⟨item, rest⟩⟩
    · simp
    · simp only
      rw [offer_eq, offer_eq s.token (es.push _)]
      rcases offer s.token #[] (item :: rest) with ⟨fs, _ | left⟩
      · simp
      · simp only
        rw [parseFrom_eq, parseFrom_eq (es.push _ ++ fs)]
        simp

/-! ## String constants -/

theorem items_of_take_text {g : Goal} {t : Token} {before : List Note} {after : List Item}
    (hg : (Item.goal g).Fixed) (h : g.move t = .take before after) (ht : t.kind = .text) :
    ∃ rest, after = .act (.pushText t) :: rest := by
  have honeOf : ∀ (kinds : List Terminal) (items : List Item), .text ∉ kinds →
      oneOf kinds t items ≠ .take before after := fun kinds items hkinds =>
    oneOf_ne_take (by rwa [ht]) _ _ _
  have hterm : ∀ (outer : List Note) (items : List Item),
      termMove outer t items = .take before after → ∃ rest, after = .act (.pushText t) :: rest := by
    intro outer items htake
    simp only [termMove, ht] at htake
    cases htake
    exact ⟨_, rfl⟩
  -- A string constant is a term, and no goal takes it but those that begin with one.
  cases g with
  | only kind =>
    refine absurd h (honeOf _ _ ?_)
    rw [List.mem_singleton]
    rintro rfl
    exact hg
  | className | declaredType | declaredName | resultType | subroutineName | parameterType
  | letTarget | callName | memberName => exact absurd h (honeOf _ _ (by decide))
  | expression | term => exact hterm _ _ h
  | classVars | subroutines | statements | operators | moreNames | moreParameters | locals
  | elseBranch | callRest | termRest | moreArguments =>
    simp [Goal.move, statementsMove, VariableKind.ofTerminal?, SubroutineKind.ofTerminal?,
      BinaryOp.ofTerminal?, ht] at h
  | parameters | letRest =>
    simp only [Goal.move, ht] at h
    exact absurd h (honeOf _ _ (by decide))
  | arguments | result =>
    simp only [Goal.move, ht] at h
    exact hterm _ _ h

/-- A string constant is pushed as soon as it is read. -/
theorem exists_pushText {tokens : List Scanned} {literal : Token} {before after : List Event}
    (h : (parse tokens).toList = before ++ .take literal :: after) (hkind : literal.kind = .text) :
    ∃ rest, after = .note (.act (.pushText literal)) :: rest := by
  obtain ⟨g, notes, items, rest, tokens', hg, hmove, rfl⟩ :=
    exists_parseFrom_of_take fixed_classItems h
  obtain ⟨items, rfl⟩ := items_of_take_text hg hmove hkind
  exact ⟨_, parseFrom_note _ _ _⟩

end JackCompiler
