import JackCompiler.Proofs.Syntax.Descent

/-!
# Descents that go on

A descent over some tokens either ends before it has taken them all, or leaves a stack with
which it goes on over whatever follows them (`consumes_or_ends`).
-/

namespace JackCompiler

/-! ## Events of the first item -/

theorem descend_note (n : Note) (stack : List Item) (tokens : List Token) :
    (descend (.note n :: stack) tokens).1 = [n].map .note ++ (descend stack tokens).1 := by
  rw [descend]
  rfl

theorem descend_pass {g : Goal} {t : Token} {before : List Note} (hg : g.move t = .pass before)
    (stack : List Item) (tokens : List Token) :
    (descend (.goal g :: stack) (t :: tokens)).1 =
      before.map .note ++ (descend stack (t :: tokens)).1 := by
  rw [descend, hg]

theorem descend_refuse {g : Goal} {t : Token} {before : List Note} {expected : List Terminal}
    (hg : g.move t = .refuse before expected) (stack : List Item) (tokens : List Token) :
    (descend (.goal g :: stack) (t :: tokens)).1 =
      before.map .note ++ [.refuse expected t] := by
  rw [descend, hg]

theorem descend_take {g : Goal} {t : Token} {before : List Note} {after : List Item}
    (hg : g.move t = .take before after) (stack : List Item) (tokens : List Token) :
    (descend (.goal g :: stack) (t :: tokens)).1 =
      before.map .note ++ .take t :: (descend (after ++ stack) tokens).1 := by
  rw [descend, hg]

/-! ## Tokens that are taken -/

/-- Doing the items takes the tokens and brings about the events; `left` is then to do. What
comes after the last take depends on the next token, and is not done. -/
inductive Consumes : List Item → List Token → List Event → List Item → Prop
  | done {stack} : Consumes stack [] [] stack
  | note {n stack t u es left} (h : Consumes stack (t :: u) es left) :
      Consumes (.note n :: stack) (t :: u) (.note n :: es) left
  | take {g t before after stack u es left} (hg : Goal.move g t = .take before after)
      (h : Consumes (after ++ stack) u es left) :
      Consumes (.goal g :: stack) (t :: u) (before.map .note ++ .take t :: es) left
  | pass {g t before stack u es left} (hg : Goal.move g t = .pass before)
      (h : Consumes stack (t :: u) es left) :
      Consumes (.goal g :: stack) (t :: u) (before.map .note ++ es) left

theorem Consumes.descend_append {stack left : List Item} {u : List Token} {es : List Event}
    (h : Consumes stack u es left) (more : List Token) :
    (descend stack (u ++ more)).1 = es ++ (descend left more).1 := by
  induction h with
  | done => rfl
  | note _ ih =>
    rw [descend_note, ih]
    rfl
  | take hg _ ih => rw [List.cons_append, descend_take hg, ih, List.append_assoc, List.cons_append]
  | pass hg _ ih =>
    rw [List.cons_append] at ih ⊢
    rw [descend_pass hg, ih, List.append_assoc]

theorem consumes_or_ends (stack : List Item) (u : List Token) :
    (∃ es left, Consumes stack u es left) ∨
      ∃ es, ∀ more, (descend stack (u ++ more)).1 = es := by
  fun_induction descend stack u with
  | case1 u =>
    cases u with
    | nil => exact .inl ⟨_, _, .done⟩
    | cons t u => exact .inr ⟨[], fun more => by rw [descend]⟩
  | case2 n stack u es rest hd ih =>
    cases u with
    | nil => exact .inl ⟨_, _, .done⟩
    | cons t u =>
      rcases ih with ⟨es, left, h⟩ | ⟨es, h⟩
      · exact .inl ⟨_, _, h.note⟩
      · exact .inr ⟨[n].map .note ++ es, fun more => by rw [descend_note, h]⟩
  | case3 => exact .inl ⟨_, _, .done⟩
  | case4 g stack t u before after hg es rest hd ih =>
    rcases ih with ⟨es, left, h⟩ | ⟨es, h⟩
    · exact .inl ⟨_, _, .take hg h⟩
    · refine .inr ⟨before.map .note ++ .take t :: es, fun more => ?_⟩
      rw [List.cons_append, descend_take hg, h]
  | case5 g stack t u before hg es rest hd ih =>
    rcases ih with ⟨es, left, h⟩ | ⟨es, h⟩
    · exact .inl ⟨_, _, .pass hg h⟩
    · refine .inr ⟨before.map .note ++ es, fun more => ?_⟩
      rw [List.cons_append, descend_pass hg, ← List.cons_append, h]
  | case6 g stack t u before expected hg =>
    refine .inr ⟨before.map .note ++ [.refuse expected t], fun more => ?_⟩
    rw [List.cons_append, descend_refuse hg]

end JackCompiler
