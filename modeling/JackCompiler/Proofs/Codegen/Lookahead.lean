import JackCompiler.Proofs.Codegen.Emission
import JackCompiler.Proofs.Syntax.Continuation

/-!
# What is left to do behind a token

What is done behind a token before the next one is taken hardly depends on that one. The
names that it needs have been looked up before, but for the name that is the token itself
(`ready_of_consumes`).
-/

namespace JackCompiler

/-! ## Names that are known -/

def Context.Knows (c : Context) (known : List Token) : Prop :=
  ∀ t ∈ known, (c.scopes.find? t.lexeme).isSome

def Note.learn (known : List Token) : Note → List Token
  | .act (.resolve name) => name :: known
  | .act a => if a.inBody then known else []
  | _ => known

def Action.Secured (known : List Token) : Action → Prop
  | .store name => name ∈ known
  | .addressElement name => name ∈ known
  | .loadElement name => name ∈ known
  | .declare _ _ _ => False
  | .receiveObject => False
  | .pushInteger _ => False
  | .pushText _ => False
  | .resolve _ => False
  | .load _ => False
  | .pushReceiver (.member _ _) => False
  | _ => True

def Note.Secured (known : List Token) : Note → Prop
  | .act a => a.Secured known
  | _ => True

theorem Note.learn_mono {known known' : List Token} (h : known ⊆ known') (n : Note) :
    n.learn known ⊆ n.learn known' := by
  cases n with
  | enter | leave => exact h
  | act a =>
    cases a with
    | resolve name => exact List.cons_subset_cons name h
    | nameClass | declare | startSubroutine | receiveObject | nameSubroutine | startBody
    | endBody => exact List.nil_subset _
    | _ => exact h

theorem Note.Secured.mono {known known' : List Token} (h : known ⊆ known') {n : Note}
    (hn : n.Secured known) : n.Secured known' := by
  cases n with
  | enter | leave => trivial
  | act a =>
    cases a with
    | store | addressElement | loadElement => exact h hn
    | pushReceiver callee => cases callee <;> exact hn
    | _ => exact hn

theorem knows_learn {o : Options} {c d : Context} {a : Action} {effects : List Effect}
    {known : List Token} (h : perform o c a = .ok (d, effects)) (hc : c.Knows known) :
    d.Knows ((Note.act a).learn known) := by
  have hbody : a.inBody = true → d.Knows known := by
    intro ha t ht
    have hnames : d.scopes.find? = c.scopes.find? := congrArg Names.find? (names_perform ha h)
    rw [hnames]
    exact hc t ht
  cases a with
  | resolve name =>
    refine List.forall_mem_cons.mpr ⟨?_, hbody rfl⟩
    simp only [perform, Context.resolve] at h
    cases hv : c.scopes.find? name.lexeme with
    | none => rw [hv] at h; cases h
    | some v =>
      rw [hv] at h
      cases h
      rw [hv]
      rfl
  | nameClass | declare | startSubroutine | receiveObject | nameSubroutine | startBody
  | endBody => exact List.forall_mem_nil _
  | _ => exact hbody rfl

/-- Only an overflow can be in the way of the action then. -/
theorem perform_of_secured {c : Context} {a : Action} {known : List Token}
    (o : Options) (hc : c.Knows known) (h : a.Secured known) :
    (∃ d effects, perform o c a = .ok (d, effects)) ∨ perform o c a = .error .overflow := by
  cases a with
  | store name | addressElement name | loadElement name =>
    obtain ⟨v, hv⟩ := Option.isSome_iff_exists.mp (hc name h)
    simp only [perform, Context.resolve, hv]
    exact .inl ⟨_, _, rfl⟩
  | pushReceiver callee =>
    cases callee with
    | own name => exact .inl ⟨_, _, rfl⟩
    | member qualifier name => exact h.elim
  | declare | receiveObject | pushInteger | pushText | resolve | load => exact h.elim
  | countArguments n =>
    rcases argumentCount_cases n with ⟨w, hn⟩ | hn <;> simp only [perform, hn]
    · exact .inl ⟨_, _, rfl⟩
    · exact .inr rfl
  | call callee n =>
    rcases callCode_cases c n callee with ⟨name, w, hn⟩ | hn <;> simp only [perform, hn]
    · exact .inl ⟨_, _, rfl⟩
    · exact .inr rfl
  | _ => exact .inl ⟨_, _, rfl⟩

/-! ## Stacks -/

def Goal.inBody : Goal → Bool
  | .className => false
  | .classVars => false
  | .declaredType _ => false
  | .declaredName _ _ => false
  | .moreNames _ _ => false
  | .subroutines => false
  | .resultType => false
  | .subroutineName => false
  | .parameters => false
  | .parameterType => false
  | .moreParameters => false
  | .locals => false
  | _ => true

/-- The goal can be met where the names are known. Only a name that was the last token can be
one that is still to be looked up. -/
def Goal.Secured (last : Option Token) (known : List Token) : Goal → Prop
  | .only kind => kind ≠ .finish
  | .letRest target => target ∈ known
  | .termRest name => last = some name
  | _ => True

def Secured (known : List Token) : List Item → Prop
  | [] => True
  | .note n :: stack => n.Secured known ∧ Secured (n.learn known) stack
  | .goal g :: stack => g.Secured none known ∧ Secured (if g.inBody then known else []) stack

/-- The items can be done behind the last token. The notes on top are made whatever comes
next, and may fail. -/
def Ready (last : Option Token) (known : List Token) : List Item → Prop
  | [] => True
  | .note n :: stack => Ready last (n.learn known) stack
  | .goal g :: stack => g.Secured last known ∧ Secured (if g.inBody then known else []) stack

theorem Goal.Secured.mono {known known' : List Token} {last last' : Option Token} {g : Goal}
    (h : known ⊆ known') (hlast : ∀ t, last = some t → last' = some t)
    (hg : g.Secured last known) : g.Secured last' known' := by
  cases g with
  | letRest target => exact h hg
  | termRest name => exact hlast name hg
  | _ => exact hg

theorem Secured.mono {known known' : List Token} {stack : List Item} (h : known ⊆ known')
    (hs : Secured known stack) : Secured known' stack := by
  induction stack generalizing known known' with
  | nil => trivial
  | cons item stack ih =>
    cases item with
    | note n => exact ⟨hs.1.mono h, ih (n.learn_mono h) hs.2⟩
    | goal g =>
      refine ⟨hs.1.mono h fun _ => id, ih ?_ hs.2⟩
      split
      · exact h
      · exact List.Subset.refl _

theorem Secured.ready {known : List Token} {stack : List Item} (h : Secured known stack)
    (last : Option Token) : Ready last known stack := by
  induction stack generalizing known with
  | nil => trivial
  | cons item stack ih =>
    cases item with
    | note n => exact ih h.2
    | goal g => exact ⟨h.1.mono (List.Subset.refl _) (by simp), h.2⟩

/-! ## Moves -/

def Note.Plain : Note → Prop
  | .act _ => False
  | _ => True

theorem ready_plain_iff {last : Option Token} {known : List Token} {notes : List Note}
    {stack : List Item} (h : ∀ n ∈ notes, n.Plain) :
    Ready last known (notes.map .note ++ stack) ↔ Ready last known stack := by
  induction notes with
  | nil => exact Iff.rfl
  | cons n notes ih =>
    obtain ⟨hn, hnotes⟩ := List.forall_mem_cons.mp h
    cases n with
    | act a => exact hn.elim
    | enter | leave => exact ih hnotes

theorem ready_oneOf {kinds : List Terminal} {t : Token} {after items stack : List Item}
    {before : List Note} {known : List Token} (h : oneOf kinds t after = .take before items)
    (hrest : Ready (some t) known (after ++ stack)) :
    Ready (some t) known (before.map .note ++ (items ++ stack)) := by
  obtain ⟨-, rfl, rfl⟩ := oneOf_eq_take h
  exact hrest

theorem ready_termMove {outer before : List Note} {t : Token} {after items stack : List Item}
    {known : List Token} (houter : ∀ n ∈ outer, n.Plain)
    (h : termMove outer t after = .take before items) (hrest : Secured known (after ++ stack)) :
    Ready (some t) known (before.map .note ++ (items ++ stack)) := by
  have hbefore : ∀ n ∈ outer ++ [Note.enter .term], n.Plain :=
    List.forall_mem_append.mpr ⟨houter, List.forall_mem_singleton.mpr trivial⟩
  unfold termMove at h
  split at h <;> cases h
  case h_1 | h_2 | h_3 | h_4 | h_5 | h_6 =>
    rw [ready_plain_iff hbefore]
    exact hrest.ready _
  case h_7 | h_8 =>
    rw [ready_plain_iff hbefore]
    exact ⟨trivial, trivial, trivial, hrest⟩
  case h_9 =>
    rw [ready_plain_iff hbefore]
    exact ⟨trivial, Terminal.noConfusion, trivial, hrest⟩
  case h_10 =>
    rw [ready_plain_iff hbefore]
    exact ⟨rfl, trivial, hrest⟩

theorem ready_expressionMove {outer before : List Note} {t : Token} {after items stack : List Item}
    {known : List Token} (houter : ∀ n ∈ outer, n.Plain)
    (h : expressionMove outer t after = .take before items)
    (hrest : Secured known (after ++ stack)) :
    Ready (some t) known (before.map .note ++ (items ++ stack)) := by
  refine ready_termMove ?_ h ⟨trivial, trivial, hrest⟩
  exact List.forall_mem_append.mpr ⟨houter, List.forall_mem_singleton.mpr trivial⟩

theorem secured_block {known : List Token} {stack : List Item} (h : Secured known stack) :
    Secured known (.mark .leftBrace :: .enter .statements :: .goal .statements ::
      .leave .statements :: .mark .rightBrace :: stack) :=
  ⟨Terminal.noConfusion, trivial, trivial, trivial, Terminal.noConfusion, h⟩

theorem ready_statementsMove {before : List Note} {t : Token} {items stack : List Item}
    {known : List Token} (h : statementsMove t = .take before items)
    (hrest : Secured known stack) :
    Ready (some t) known (before.map .note ++ (items ++ stack)) := by
  have hnext : Secured known (.goal .statements :: stack) := ⟨trivial, hrest⟩
  unfold statementsMove at h
  split at h <;> cases h
  case h_1 => exact ⟨trivial, Terminal.noConfusion, trivial, hnext⟩
  case h_2 =>
    exact ⟨Terminal.noConfusion, trivial, Terminal.noConfusion, trivial,
      secured_block ⟨trivial, trivial, hnext⟩⟩
  case h_3 =>
    exact ⟨Terminal.noConfusion, trivial, Terminal.noConfusion, trivial,
      secured_block ⟨trivial, trivial, hnext⟩⟩
  case h_4 => exact ⟨trivial, Terminal.noConfusion, trivial, trivial, hnext⟩
  case h_5 => exact ⟨trivial, Terminal.noConfusion, trivial, trivial, hnext⟩

theorem ready_subroutineItems {last : Option Token} {stack : List Item} (h : Secured [] stack)
    (kind : SubroutineKind) : Ready last [] (subroutineItems kind ++ stack) := by
  have hbody : Secured [] (.mark .leftBrace :: .goal .locals :: .act (.startBody kind) ::
      .enter .statements :: .goal .statements :: .leave .statements :: .mark .rightBrace ::
      .leave .subroutineBody :: .act (.endBody kind) :: .leave .subroutineDec :: stack) :=
    ⟨Terminal.noConfusion, trivial, trivial, trivial, trivial, trivial, Terminal.noConfusion,
      trivial, trivial, trivial, h⟩
  cases kind <;>
    exact ⟨trivial, trivial, Terminal.noConfusion, trivial, trivial, trivial,
      Terminal.noConfusion, trivial, hbody⟩

theorem ready_of_take {g : Goal} {t : Token} {before : List Note} {after stack : List Item}
    {last : Option Token} {known : List Token} (hg : g.move t = .take before after)
    (h : Ready last known (.goal g :: stack)) :
    Ready (some t) known (before.map .note ++ (after ++ stack)) := by
  obtain ⟨hgoal, hrest⟩ := h
  cases g with
  | only => exact ready_oneOf hg (hrest.ready _)
  | className | declaredName | subroutineName => exact ready_oneOf hg (hrest.ready _)
  | resultType => exact ready_oneOf hg ((hrest.mono (List.nil_subset _)).ready _)
  | declaredType => exact ready_oneOf hg ⟨trivial, trivial, Terminal.noConfusion, hrest⟩
  | parameterType => exact ready_oneOf hg ⟨trivial, trivial, hrest⟩
  -- The name is resolved at once, so that it is known when its value is stored.
  | letTarget =>
    exact ready_oneOf hg ⟨List.mem_cons_self, hrest.mono (List.subset_cons_self t known)⟩
  | callName => exact ready_oneOf hg ⟨trivial, hrest⟩
  | memberName qualifier =>
    exact ready_oneOf hg ⟨Terminal.noConfusion, trivial, trivial, hrest⟩
  | statements => exact ready_statementsMove hg hrest
  | expression => exact ready_expressionMove (List.forall_mem_nil _) hg hrest
  | term => exact ready_termMove (List.forall_mem_nil _) hg hrest
  | classVars =>
    unfold Goal.move at hg
    simp only at hg
    split at hg <;> cases hg
    exact ⟨trivial, trivial, trivial, hrest⟩
  | moreNames kind type =>
    unfold Goal.move at hg
    simp only at hg
    split at hg <;> cases hg
    exact ⟨trivial, trivial, hrest⟩
  | subroutines =>
    unfold Goal.move at hg
    simp only at hg
    split at hg <;> cases hg
    have hmore : Secured [] (.goal .subroutines :: stack) := ⟨trivial, hrest⟩
    rw [List.append_assoc]
    exact ready_subroutineItems hmore _
  | parameters =>
    unfold Goal.move at hg
    simp only at hg
    split at hg
    · cases hg
    · exact ready_oneOf hg ⟨trivial, trivial, hrest⟩
  | moreParameters =>
    unfold Goal.move at hg
    simp only at hg
    split at hg <;> cases hg
    exact ⟨trivial, hrest⟩
  | locals =>
    unfold Goal.move at hg
    simp only at hg
    split at hg <;> cases hg
    exact ⟨trivial, trivial, trivial, hrest⟩
  | letRest target =>
    unfold Goal.move at hg
    simp only at hg
    split at hg
    · cases hg
      exact ⟨trivial, hgoal, Terminal.noConfusion, Terminal.noConfusion, trivial, trivial, hrest⟩
    · exact ready_oneOf hg ⟨trivial, hgoal, hrest⟩
  | elseBranch =>
    unfold Goal.move at hg
    simp only at hg
    split at hg <;> cases hg
    have hafter : Secured known (.act .endElse :: stack) := ⟨trivial, hrest⟩
    exact (secured_block hafter).ready _
  | callRest name =>
    unfold Goal.move at hg
    simp only at hg
    split at hg <;> cases hg
    · exact ⟨trivial, hrest⟩
    · exact ⟨trivial, hrest⟩
  | arguments callee =>
    unfold Goal.move at hg
    simp only at hg
    split at hg
    · cases hg
      exact hrest.ready _
    · exact ready_expressionMove (List.forall_mem_nil _) hg ⟨trivial, trivial, hrest⟩
  | moreArguments callee count =>
    unfold Goal.move at hg
    simp only at hg
    split at hg <;> cases hg
    · exact ⟨trivial, trivial, trivial, hrest⟩
    · exact hrest.ready _
  | result =>
    unfold Goal.move at hg
    simp only at hg
    split at hg
    · cases hg
    · exact ready_expressionMove (List.forall_mem_nil _) hg hrest
  | operators =>
    unfold Goal.move at hg
    simp only at hg
    split at hg <;> cases hg
    exact ⟨trivial, trivial, trivial, hrest⟩
  | termRest name =>
    unfold Goal.move at hg
    simp only at hg
    split at hg <;> cases hg
    · exact ⟨trivial, hrest⟩
    · exact ⟨trivial, hrest⟩
    -- The bracket makes the name an array's, which is resolved before the index is read.
    · exact ⟨trivial, Terminal.noConfusion, List.mem_cons_self,
        hrest.mono (List.subset_cons_self name known)⟩

theorem ready_of_pass {g : Goal} {t : Token} {before : List Note} {stack : List Item}
    {last : Option Token} {known : List Token} (hg : g.move t = .pass before)
    (h : Ready last known (.goal g :: stack)) :
    Ready last known (before.map .note ++ stack) := by
  obtain ⟨-, hrest⟩ := h
  cases Goal.passes_of_move hg with
  | classVars | moreNames | subroutines | parameters | moreParameters | locals =>
    exact (hrest.mono (List.nil_subset _)).ready _
  | statements | elseBranch | result | operators | termRest => exact hrest.ready _

/-! ## Runs -/

theorem ready_of_notes {o : Options} {notes : List Note} {stack : List Item}
    {last : Option Token} {known : List Token} {c d : Context} {p : List Instruction}
    (h : Ready last known (notes.map .note ++ stack)) (hc : c.Knows known)
    (hrun : performAll o c ((notes.map Event.note).filterMap Event.action?) = .ok (d, p)) :
    ∃ known', d.Knows known' ∧ Ready last known' stack := by
  induction notes generalizing c known p with
  | nil =>
    obtain ⟨rfl, -⟩ := performAll_nil_iff.mp hrun
    exact ⟨known, hc, h⟩
  | cons n notes ih =>
    cases n with
    | enter | leave => exact ih h hc hrun
    | act a =>
      obtain ⟨c₁, effects, q, ha, hrest, -⟩ := performAll_cons_iff.mp hrun
      exact ih h (knows_learn ha hc) hrest

theorem ready_of_consumes {o : Options} {stack left : List Item} {u : List Token}
    {es : List Event} {last : Option Token} {known : List Token} {c d : Context}
    {p : List Instruction} (h : Consumes stack u es left) (hready : Ready last known stack)
    (hc : c.Knows known) (hrun : performAll o c (es.filterMap Event.action?) = .ok (d, p)) :
    ∃ known', d.Knows known' ∧ Ready (u.getLast?.or last) known' left := by
  -- The names known grow with the run, and the token taken last is all that a goal may still look
  -- up.
  induction h generalizing c known last p with
  | done =>
    obtain ⟨rfl, -⟩ := performAll_nil_iff.mp hrun
    exact ⟨known, hc, hready⟩
  | @note n stack t u es left h ih =>
    rw [← List.singleton_append, List.filterMap_append, performAll_append_iff] at hrun
    obtain ⟨c₁, q, r, hn, hrest, -⟩ := hrun
    have hnote : Ready last known ([n].map .note ++ stack) := hready
    obtain ⟨known₁, hknown, hready⟩ := ready_of_notes hnote hc hn
    exact ih hready hknown hrest
  | @take g t before after stack u es left hg h ih =>
    rw [List.filterMap_append, performAll_append_iff] at hrun
    obtain ⟨c₁, q, r, hn, hrest, -⟩ := hrun
    obtain ⟨known₁, hknown, hready⟩ := ready_of_notes (ready_of_take hg hready) hc hn
    obtain ⟨known', hd, hleft⟩ := ih hready hknown hrest
    refine ⟨known', hd, ?_⟩
    rw [List.getLast?_cons]
    cases hu : u.getLast? <;> simpa [hu] using hleft
  | @pass g t before stack u es left hg h ih =>
    rw [List.filterMap_append, performAll_append_iff] at hrun
    obtain ⟨c₁, q, r, hn, hrest, -⟩ := hrun
    obtain ⟨known₁, hknown, hready⟩ := ready_of_notes (ready_of_pass hg hready) hc hn
    exact ih hready hknown hrest

theorem ready_classItems : Ready none [] classItems :=
  ⟨Terminal.noConfusion, trivial, Terminal.noConfusion, trivial, trivial, Terminal.noConfusion,
    trivial, trivial⟩

end JackCompiler
