import JackCompiler.Proofs.Syntax.Completeness
import JackCompiler.Proofs.Syntax.Language
import JackCompiler.Proofs.Syntax.Soundness

/-!
# Prefixes of classes

A descent that refuses a token has read a prefix of a class. No class goes on with the
refused token, and some class goes on with any terminal that the refusal names
(`Stalls.not_viable`, `Stalls.viable`).
-/

namespace JackCompiler

/-- Some word of the grammar begins with the kinds. -/
def Viable (kinds : List Terminal) : Prop :=
  ∃ word ∈ grammar.language, kinds <+: word

theorem Viable.of_append {ks ls : List Terminal} (h : Viable (ks ++ ls)) : Viable ks := by
  obtain ⟨word, hword, hprefix⟩ := h
  exact ⟨word, hword, (List.prefix_append ks ls).trans hprefix⟩

def Terminal.sample (kind : Terminal) : Token :=
  ⟨kind, ⟨0, 0⟩, ""⟩

/-- A class begins with tokens of the kinds, whatever their texts are. -/
theorem viable_kinds_iff {u : List Token} :
    Viable (u.map Token.kind) ↔ ∃ (c : ClassDec) (v : List Token), c.Spells (u ++ v) := by
  refine ⟨fun h => ?_, fun h => ?_⟩
  · obtain ⟨_, hword, more, rfl⟩ := h
    have hmore : (more.map Terminal.sample).map Token.kind = more := by
      rw [List.map_map]
      exact List.map_id more
    rw [← hmore, ← List.map_append] at hword
    obtain ⟨c, hc⟩ := exists_spells_iff.mpr hword
    exact ⟨c, _, hc⟩
  · obtain ⟨c, v, hc⟩ := h
    refine ⟨_, exists_spells_iff.mp ⟨c, hc⟩, v.map Token.kind, ?_⟩
    rw [List.map_append]

/-! ## Refusals -/

structure Goal.Awaits (g : Goal) (kinds : List Terminal) : Prop where
  ne_nil : kinds ≠ []
  takes : ∀ t : Token, t.kind ∈ kinds → ∃ before after, g.move t = .take before after

theorem oneOf_eq_refuse {kinds expected : List Terminal} {t : Token} {after : List Item}
    {before : List Note} (h : oneOf kinds t after = .refuse before expected) :
    expected = kinds := by
  unfold oneOf at h
  split at h <;> cases h
  rfl

theorem termMove_eq_refuse {expected : List Terminal} {t : Token} {after : List Item}
    {outer before : List Note} (h : termMove outer t after = .refuse before expected) :
    expected = termStarts := by
  unfold termMove at h
  split at h <;> cases h
  rfl

theorem exists_oneOf {kinds : List Terminal} {t : Token} (ht : t.kind ∈ kinds)
    (after : List Item) : ∃ before items, oneOf kinds t after = .take before items :=
  ⟨_, _, if_pos ht⟩

theorem exists_take_termMove {t : Token} (ht : t.kind ∈ termStarts) (outer : List Note)
    (after : List Item) : ∃ before items, termMove outer t after = .take before items := by
  obtain ⟨before, items, hmove⟩ := exists_termMove ht
  exact ⟨_, _, hmove outer after⟩

/-- A goal takes any token of the kinds that it names when it refuses one. -/
theorem awaits_of_refuse {g : Goal} {t : Token} {before : List Note} {expected : List Terminal}
    (h : g.move t = .refuse before expected) : g.Awaits expected := by
  cases g with
  | only | className | declaredType | declaredName | resultType | subroutineName
  | parameterType | letTarget | callName | memberName =>
    obtain rfl := oneOf_eq_refuse h
    exact ⟨List.cons_ne_nil _ _, fun _ hs => exists_oneOf hs _⟩
  | expression | term =>
    obtain rfl := termMove_eq_refuse h
    exact ⟨List.cons_ne_nil _ _, fun _ hs => exists_take_termMove hs _ _⟩
  | statements =>
    change statementsMove t = _ at h
    unfold statementsMove at h
    split at h <;> cases h
  | classVars | moreNames | subroutines | moreParameters | locals | elseBranch | operators
  | termRest =>
    unfold Goal.move at h
    simp only at h
    split at h <;> cases h
  | callRest name =>
    unfold Goal.move at h
    simp only at h
    split at h <;> cases h
    refine ⟨List.cons_ne_nil _ _, fun s hs => ?_⟩
    simp only [Goal.move, List.mem_singleton.mp hs]
    exact ⟨_, _, rfl⟩
  | moreArguments callee count =>
    unfold Goal.move at h
    simp only at h
    split at h <;> cases h
    refine ⟨List.cons_ne_nil _ _, fun s hs => ?_⟩
    simp only [Goal.move, List.mem_singleton.mp hs]
    exact ⟨_, _, rfl⟩
  -- From here on the goal tests for another kind first, which is none of those that it names.
  | parameters =>
    unfold Goal.move at h
    simp only at h
    split at h
    · cases h
    obtain rfl := oneOf_eq_refuse h
    refine ⟨List.cons_ne_nil _ _, fun s hs => ?_⟩
    have hparen : s.kind ≠ .mark .rightParen := ne_of_mem_of_not_mem hs (by decide)
    simp only [Goal.move, if_neg hparen]
    exact exists_oneOf hs _
  | letRest target =>
    unfold Goal.move at h
    simp only at h
    split at h
    · cases h
    obtain rfl := oneOf_eq_refuse h
    refine ⟨List.cons_ne_nil _ _, fun s hs => ?_⟩
    have hbracket : s.kind ≠ .mark .leftBracket := ne_of_mem_of_not_mem hs (by decide)
    simp only [Goal.move, if_neg hbracket]
    exact exists_oneOf hs _
  | arguments callee =>
    unfold Goal.move at h
    simp only at h
    split at h
    · cases h
    obtain rfl := termMove_eq_refuse h
    refine ⟨List.cons_ne_nil _ _, fun s hs => ?_⟩
    have hparen : s.kind ≠ .mark .rightParen := ne_of_mem_of_not_mem hs (by decide)
    simp only [Goal.move, if_neg hparen]
    exact exists_take_termMove hs _ _
  | result =>
    unfold Goal.move at h
    simp only at h
    split at h
    · cases h
    obtain rfl := termMove_eq_refuse h
    refine ⟨List.cons_ne_nil _ _, fun s hs => ?_⟩
    have hsemicolon : s.kind ≠ .mark .semicolon := ne_of_mem_of_not_mem hs (by decide)
    simp only [Goal.move, if_neg hsemicolon]
    exact exists_take_termMove hs _ _

/-! ## Every goal can be met -/

def Leaf.sample {kinds : List Terminal} (kind : Terminal) (h : kind ∈ kinds) : Leaf kinds :=
  ⟨kind.sample, h⟩

def Name.sample : Name :=
  Leaf.sample .ident (List.mem_singleton_self _)

def Expression.sample : Expression :=
  .mk (.var .sample) .nil

def sampleType : Leaf variableTypes :=
  .sample .ident (by decide)

theorem exists_scripts (g : Goal) : ∃ p, g.Scripts p := by
  cases g with
  | only => exact ⟨_, rfl⟩
  | className | declaredName | subroutineName => exact ⟨_, .sample, rfl⟩
  | classVars | moreNames | subroutines | parameters | moreParameters | locals =>
    exact ⟨_, [], rfl⟩
  | declaredType => exact ⟨_, ⟨sampleType, .sample, []⟩, rfl⟩
  | resultType => exact ⟨_, Leaf.sample .ident (by decide), rfl⟩
  | parameterType => exact ⟨_, ⟨sampleType, .sample⟩, [], rfl⟩
  | statements => exact ⟨_, .empty, rfl⟩
  | letTarget => exact ⟨_, .var .sample, .sample, rfl⟩
  -- Of a goal that holds a token, the script has to do for every name with that token.
  | letRest t =>
    refine ⟨[.mark .eq] ++ Expression.sample.script ++ [.act (.store t)], ?_⟩
    rintro name rfl
    exact ⟨.var name, .sample, by simp [assignmentScript, Target.script, Target.stored]⟩
  | elseBranch => exact ⟨_, .inl rfl⟩
  | callName => exact ⟨_, .own .sample, .nil, rfl⟩
  | callRest t =>
    refine ⟨[.act (.pushReceiver (.own t)), .mark .leftParen, .enter .expressionList] ++
      callEndScript (.own t) 0, ?_⟩
    rintro name rfl
    exact ⟨.own name, .nil, rfl⟩
  | memberName t =>
    have name : Name := .sample
    refine ⟨[.token name.token, .act (.pushReceiver (.member t name.token)), .mark .leftParen,
      .enter .expressionList] ++ callEndScript (.member t name.token) 0, ?_⟩
    rintro qualifier rfl
    exact ⟨.member qualifier name, .nil, rfl⟩
  | arguments | moreArguments => exact ⟨_, .nil, rfl⟩
  | result => exact ⟨_, none, rfl⟩
  | expression => exact ⟨_, .sample, rfl⟩
  | operators => exact ⟨_, .nil, rfl⟩
  | term => exact ⟨_, .var .sample, rfl⟩
  | termRest t =>
    refine ⟨[.act (.load t)], ?_⟩
    rintro name rfl
    exact ⟨.var name, rfl⟩

theorem exists_produces (stack : List Item) : ∃ p, Produces stack p := by
  induction stack with
  | nil => exact ⟨_, rfl⟩
  | cons item stack ih =>
    obtain ⟨p, hp⟩ := ih
    cases item with
    | note n => exact ⟨_, p, hp, rfl⟩
    | goal g =>
      obtain ⟨q, hq⟩ := exists_scripts g
      exact ⟨_, q, p, hq, hp, rfl⟩

theorem Script.exists_reads (p : Script) : ∃ u es, Reads p u es := by
  induction p with
  | nil => exact ⟨_, _, .nil⟩
  | cons x p ih =>
    obtain ⟨u, es, h⟩ := ih
    cases x with
    | note n => exact ⟨_, _, h.note⟩
    | fixed kind => exact ⟨_, _, h.fixed (t := kind.sample)⟩
    | token t => exact ⟨_, _, h.token⟩

/-! ## Descents that stall -/

/-- Doing the items takes the tokens `u` and then refuses `t`. -/
inductive Stalls : List Item → List Token → Token → List Terminal → Prop
  | note {n stack u t expected} (h : Stalls stack u t expected) :
      Stalls (.note n :: stack) u t expected
  | take {g s before after stack u t expected} (hg : Goal.move g s = .take before after)
      (h : Stalls (after ++ stack) u t expected) : Stalls (.goal g :: stack) (s :: u) t expected
  | pass {g before stack u t expected} (hg : Goal.move g (u.headD t) = .pass before)
      (h : Stalls stack u t expected) : Stalls (.goal g :: stack) u t expected
  | refuse {g before stack t expected} (hg : Goal.move g t = .refuse before expected) :
      Stalls (.goal g :: stack) [] t expected

theorem stalls_of_refuse_mem {stack : List Item} {tokens : List Token} {t : Token}
    {expected : List Terminal} (h : .refuse expected t ∈ (descend stack tokens).1) :
    ∃ u rest, tokens = u ++ t :: rest ∧ Stalls stack u t expected := by
  fun_induction descend stack tokens with
  | case1 => simp at h
  | case2 n stack tokens es left hd ih =>
    rw [hd] at ih
    obtain ⟨u, rest, rfl, hu⟩ := ih (by simpa using h)
    exact ⟨u, rest, rfl, hu.note⟩
  | case3 => simp at h
  | case4 g stack s tokens before after hg es left hd ih =>
    rw [hd] at ih
    obtain ⟨u, rest, rfl, hu⟩ := ih (by simpa using h)
    exact ⟨s :: u, rest, rfl, .take hg hu⟩
  | case5 g stack s tokens before hg es left hd ih =>
    rw [hd] at ih
    obtain ⟨u, rest, he, hu⟩ := ih (by simpa using h)
    -- The token that was looked at is still there: it comes next, or it is the one refused.
    have hhead : u.headD t = s := by
      cases u with
      | nil => exact (List.cons.inj he).1.symm
      | cons s' u => exact (List.cons.inj he).1.symm
    rw [← hhead] at hg
    exact ⟨u, rest, he, .pass hg hu⟩
  | case6 g stack s tokens before expected' hg =>
    obtain ⟨rfl, rfl⟩ : expected = expected' ∧ t = s := by simpa using h
    exact ⟨[], tokens, rfl, .refuse hg⟩

namespace Stalls

variable {stack : List Item} {u : List Token} {t : Token} {expected : List Terminal}

theorem expected_ne_nil (h : Stalls stack u t expected) : expected ≠ [] := by
  induction h with
  | note _ ih | take _ _ ih | pass _ _ ih => exact ih
  | refuse hg => exact (awaits_of_refuse hg).ne_nil

theorem not_descends (h : Stalls stack u t expected) (rest : List Token) :
    (descend stack (u ++ t :: rest)).2 = none := by
  induction h with
  | note _ ih =>
    rw [descend]
    exact ih
  | take hg _ ih =>
    rw [List.cons_append, descend, hg]
    exact ih
  | @pass g before stack u t expected hg h ih =>
    cases u with
    | nil =>
      rw [List.nil_append, descend, show g.move t = _ from hg]
      exact ih
    | cons s u =>
      rw [List.cons_append, descend, show g.move s = _ from hg]
      exact ih
  | refuse hg =>
    rw [List.nil_append, descend, hg]

/-- What has been read can go on with any token that the refusal names. -/
theorem exists_reads (h : Stalls stack u t expected) {s : Token} (hs : s.kind ∈ expected) :
    ∃ p v es, Produces stack p ∧ Reads p (u ++ s :: v) es := by
  induction h with
  | note _ ih =>
    obtain ⟨p, v, es, hp, hr⟩ := ih hs
    exact ⟨_, v, _, ⟨p, hp, rfl⟩, hr.note⟩
  | take hg _ ih =>
    obtain ⟨p, v, es, hp, hr⟩ := ih hs
    obtain ⟨q, hq, hr⟩ := reads_of_take hg hp hr
    exact ⟨q, v, _, hq, hr⟩
  | pass hg _ ih =>
    obtain ⟨p, v, es, hp, hr⟩ := ih hs
    obtain ⟨q, hq, hr⟩ := reads_of_pass hg hp hr
    exact ⟨q, v, _, hq, hr⟩
  | @refuse g before stack t expected hg =>
    obtain ⟨before', after, htake⟩ := (awaits_of_refuse hg).takes s hs
    obtain ⟨p, hp⟩ := exists_produces (after ++ stack)
    obtain ⟨v, es, hr⟩ := p.exists_reads
    obtain ⟨q, hq, hr⟩ := reads_of_take htake hp hr
    exact ⟨q, v, _, hq, hr⟩

/-! ## Classes -/

theorem viable (h : Stalls classItems u t expected) {kind : Terminal} (hkind : kind ∈ expected) :
    Viable (u.map Token.kind ++ [kind]) := by
  obtain ⟨p, v, es, hp, hr⟩ := h.exists_reads (s := kind.sample) hkind
  obtain ⟨c, rfl⟩ := produces_classItems hp
  have hclass : c.Spells (u ++ [kind.sample] ++ v) := by
    rw [List.append_assoc]
    exact ⟨es, hr⟩
  have hviable := viable_kinds_iff.mpr ⟨c, v, hclass⟩
  rwa [List.map_append] at hviable

theorem viable_read (h : Stalls classItems u t expected) : Viable (u.map Token.kind) := by
  obtain ⟨kind, hkind⟩ := List.exists_mem_of_ne_nil expected h.expected_ne_nil
  exact (h.viable hkind).of_append

theorem not_viable (h : Stalls classItems u t expected) :
    ¬ Viable (u.map Token.kind ++ [t.kind]) := by
  intro hviable
  rw [show u.map Token.kind ++ [t.kind] = (u ++ [t]).map Token.kind by rw [List.map_append]; rfl]
    at hviable
  obtain ⟨c, v, es, hr⟩ := viable_kinds_iff.mp hviable
  -- The class would be descended to its end, where the descent has stalled.
  have hdescends := (descends_class hr []).descend_eq
  have hstall := h.not_descends v
  rw [List.append_nil, List.append_assoc, List.singleton_append] at hdescends
  rw [hdescends] at hstall
  cases hstall

theorem kind_notMem (h : Stalls classItems u t expected) : t.kind ∉ expected :=
  fun ht => h.not_viable (h.viable ht)

end Stalls

end JackCompiler
