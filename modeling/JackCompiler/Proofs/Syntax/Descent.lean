import JackCompiler.Grammar.Parse

/-!
# Descents

A descent is a parse that forgets when tokens are looked at: the items on the stack
are done in order, each on the tokens that those before it leave over. The events of
a parse, without the looks, are those of a descent (`parseFrom_core`).
-/

namespace JackCompiler

/-- The events of doing the items, and the tokens left over unless a fault ends it. -/
def descend : List Item → List Token → List Event × Option (List Token)
  | [], tokens => ([], some tokens)
  | .note n :: stack, tokens =>
    let (es, rest) := descend stack tokens
    (.note n :: es, rest)
  | .goal _ :: _, [] => ([.exhausted], none)
  | .goal g :: stack, t :: tokens =>
    match g.move t with
    | .take before after =>
      let (es, rest) := descend (after ++ stack) tokens
      (before.map .note ++ .take t :: es, rest)
    | .pass before =>
      let (es, rest) := descend stack (t :: tokens)
      (before.map .note ++ es, rest)
    | .refuse before expected => (before.map .note ++ [.refuse expected t], none)
termination_by stack tokens => (tokens.length, stack.length)

/-! ## Descents without a fault -/

inductive Descends : List Item → List Token → List Event → List Token → Prop
  | nil {rest} : Descends [] rest [] rest
  | note {n stack tokens es rest} (h : Descends stack tokens es rest) :
      Descends (.note n :: stack) tokens (.note n :: es) rest
  | take {g t before after stack tokens es rest} (hg : Goal.move g t = .take before after)
      (h : Descends (after ++ stack) tokens es rest) :
      Descends (.goal g :: stack) (t :: tokens) (before.map .note ++ .take t :: es) rest
  | pass {g t before stack tokens es rest} (hg : Goal.move g t = .pass before)
      (h : Descends stack (t :: tokens) es rest) :
      Descends (.goal g :: stack) (t :: tokens) (before.map .note ++ es) rest

theorem descends_of_descend {stack : List Item} {tokens : List Token} {es : List Event}
    {rest : List Token} (h : descend stack tokens = (es, some rest)) :
    Descends stack tokens es rest := by
  fun_induction descend stack tokens generalizing es with
  | case1 tokens =>
    obtain ⟨rfl, rfl⟩ := by simpa using h
    exact .nil
  | case2 n stack tokens fs left hd ih =>
    obtain ⟨rfl, rfl⟩ := by simpa using h
    exact .note (ih hd)
  | case3 => cases h
  | case4 g stack t tokens before after hg fs left hd ih =>
    obtain ⟨rfl, rfl⟩ := by simpa using h
    exact .take hg (ih hd)
  | case5 g stack t tokens before hg fs left hd ih =>
    obtain ⟨rfl, rfl⟩ := by simpa using h
    exact .pass hg (ih hd)
  | case6 => cases h

namespace Descends

theorem descend_eq {stack : List Item} {tokens : List Token} {es : List Event}
    {rest : List Token} (h : Descends stack tokens es rest) :
    descend stack tokens = (es, some rest) := by
  induction h with
  | nil => rw [descend]
  | note _ ih => rw [descend, ih]
  | take hg _ ih => rw [descend, hg]; simp only [ih]
  | pass hg _ ih => rw [descend, hg]; simp only [ih]

theorem append {a b : List Item} {tokens left rest : List Token} {es fs : List Event}
    (ha : Descends a tokens es left) (hb : Descends b left fs rest) :
    Descends (a ++ b) tokens (es ++ fs) rest := by
  induction ha with
  | nil => exact hb
  | note _ ih => exact .note (ih hb)
  | take hg _ ih =>
    have h := ih hb
    rw [List.append_assoc] at h
    simpa using Descends.take hg h
  | pass hg _ ih => simpa using Descends.pass hg (ih hb)

end Descends

/-! ## Moves that pass -/

theorem oneOf_ne_pass (kinds : List Terminal) (t : Token) (after : List Item)
    (before : List Note) : oneOf kinds t after ≠ .pass before := by
  unfold oneOf
  split <;> exact Move.noConfusion

theorem termMove_ne_pass (outer : List Note) (t : Token) (after : List Item)
    (before : List Note) : termMove outer t after ≠ .pass before := by
  unfold termMove
  split <;> exact Move.noConfusion

/-- The goal can be passed, and then leaves the notes. -/
inductive Goal.Passes : Goal → List Note → Prop
  | classVars : Passes .classVars []
  | moreNames {kind type} : Passes (.moreNames kind type) []
  | subroutines : Passes .subroutines []
  | parameters : Passes .parameters []
  | moreParameters : Passes .moreParameters []
  | locals : Passes .locals []
  | statements : Passes .statements []
  | elseBranch : Passes .elseBranch [.act .endIf]
  | result : Passes .result [.act .pushNoResult]
  | operators : Passes .operators []
  | termRest {name} : Passes (.termRest name) [.act (.load name)]

theorem Goal.passes_of_move {g : Goal} {t : Token} {before : List Note}
    (h : g.move t = .pass before) : g.Passes before := by
  cases g with
  | only | className | declaredType | declaredName | resultType | subroutineName
  | parameterType | letTarget | callName | memberName => exact absurd h (oneOf_ne_pass _ _ _ _)
  | expression | term => exact absurd h (termMove_ne_pass _ _ _ _)
  | statements =>
    simp only [Goal.move, statementsMove] at h
    split at h <;> cases h
    constructor
  | classVars | moreNames | subroutines | moreParameters | locals | elseBranch | operators
  | termRest =>
    simp only [Goal.move] at h
    split at h <;> cases h
    constructor
  | callRest | moreArguments =>
    simp only [Goal.move] at h
    split at h <;> cases h
  -- A goal that tests for one kind first and is no choice among others behind that.
  | parameters =>
    simp only [Goal.move] at h
    split at h
    · cases h
      constructor
    · exact absurd h (oneOf_ne_pass _ _ _ _)
  | letRest =>
    simp only [Goal.move] at h
    split at h
    · cases h
    · exact absurd h (oneOf_ne_pass _ _ _ _)
  | arguments =>
    simp only [Goal.move] at h
    split at h
    · cases h
    · exact absurd h (termMove_ne_pass _ _ _ _)
  | result =>
    simp only [Goal.move] at h
    split at h
    · cases h
      constructor
    · exact absurd h (termMove_ne_pass _ _ _ _)

/-! ## Parses are descents -/

def Event.isLook : Event → Bool
  | .look _ => true
  | _ => false

def coreEvents (events : Array Event) : List Event :=
  events.toList.filter fun e => !e.isLook

theorem coreEvents_append (a b : Array Event) :
    coreEvents (a ++ b) = coreEvents a ++ coreEvents b := by
  simp [coreEvents]

theorem coreEvents_push (a : Array Event) (e : Event) (he : e.isLook = false) :
    coreEvents (a.push e) = coreEvents a ++ [e] := by
  simp [coreEvents, he]

theorem coreEvents_push_look (a : Array Event) (skipped : List Skipped) :
    coreEvents (a.push (.look skipped)) = coreEvents a := by
  simp [coreEvents, Event.isLook]

theorem coreEvents_pushNotes (a : Array Event) (notes : List Note) :
    coreEvents (pushNotes a notes) = coreEvents a ++ notes.map .note := by
  rw [pushNotes_eq, coreEvents_append]
  congr 1
  simp only [coreEvents, List.filter_eq_self]
  intro e he
  obtain ⟨n, -, rfl⟩ := List.mem_map.mp (by simpa using he)
  rfl

theorem descend_settle (stack : List Item) (tokens : List Token) :
    (descend stack tokens).1 =
      coreEvents (settle #[] stack).1 ++ (descend (settle #[] stack).2 tokens).1 := by
  induction stack with
  | nil => rfl
  | cons item stack ih =>
    cases item with
    | goal g => rfl
    | note n =>
      rw [descend, settle, settle_eq]
      simp only [coreEvents_append]
      rw [ih]
      rfl

theorem descend_offer (t : Token) (tokens : List Token) (stack : List Item) :
    (descend stack (t :: tokens)).1 = coreEvents (offer t #[] stack).1 ++
      match (offer t #[] stack).2 with
      | none => []
      | some stack => (descend stack tokens).1 := by
  induction stack with
  | nil => simp [descend, offer, coreEvents]
  | cons item stack ih =>
    cases item with
    | note n =>
      rw [descend, offer, offer_eq]
      simp only [coreEvents_append]
      rw [ih]
      rfl
    | goal g =>
      rw [descend, offer]
      cases hg : g.move t with
      | take before after =>
        simp only
        rw [coreEvents_push _ _ rfl, coreEvents_pushNotes]
        simp [coreEvents]
      | pass before =>
        simp only
        rw [offer_eq, coreEvents_append, coreEvents_pushNotes, ih]
        simp [coreEvents]
      | refuse before expected =>
        simp only
        rw [coreEvents_push _ _ rfl, coreEvents_pushNotes]
        simp [coreEvents]

theorem settle_ne_note (stack rest : List Item) (n : Note) :
    (settle #[] stack).2 ≠ .note n :: rest := by
  induction stack with
  | nil => simp [settle]
  | cons item stack ih =>
    cases item with
    | goal g => simp [settle]
    | note m =>
      rw [settle, settle_eq]
      exact ih

/-- Apart from the looks, parsing is a descent. -/
theorem parseFrom_core (stack : List Item) (tokens : List Scanned) :
    coreEvents (parseFrom #[] stack tokens) = (descend stack (tokens.map Scanned.token)).1 := by
  induction tokens generalizing stack with
  | nil =>
    rw [parseFrom, descend_settle]
    rcases h : settle #[] stack with ⟨done, rest⟩
    cases rest with
    | nil => simp [descend]
    | cons item rest =>
      cases item with
      | note n => exact absurd (congrArg Prod.snd h) (settle_ne_note stack rest n)
      | goal g =>
        rw [List.map_nil, descend]
        exact coreEvents_push done .exhausted rfl
  | cons s tokens ih =>
    rw [parseFrom, descend_settle]
    obtain ⟨done, rest⟩ := settle #[] stack
    cases rest with
    | nil => simp [descend]
    | cons item rest =>
      simp only [List.map_cons]
      rw [offer_eq, descend_offer]
      obtain ⟨added, after⟩ := offer s.token #[] (item :: rest)
      cases after with
      | none => simp [coreEvents_append, coreEvents_push_look]
      | some after =>
        simp only
        rw [parseFrom_eq, coreEvents_append, coreEvents_append, coreEvents_push_look, ih]
        simp

end JackCompiler
