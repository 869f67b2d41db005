import JackCompiler.Proofs.Codegen.Separation
import JackCompiler.Proofs.Syntax.Language
import JackCompiler.Proofs.Text.Position

/-!
# Rows of subroutines

A class is written as a header, texts of single subroutines and the closing brace, each on
lines of its own. The subroutines are compiled as each of them is by itself
(`performAll_row_ok_iff`), up to the first that is not (`performAll_row_error_iff`).
-/

namespace JackCompiler

open Grammar

/-! ## Texts -/

def rowText : List String → String
  | [] => "\x7d"
  | s :: ss => s ++ "\n" ++ rowText ss

def classText (header : String) (ss : List String) : String :=
  header ++ "\n" ++ rowText ss

/-- The text begins a class: its name, the brace and the variables. -/
structure IsHeader (text : String) : Prop where
  closed : Closed text.toList
  derives : grammar.Derives [keyword .class_, ident, mark .leftBrace, part .classVarDecs]
    (kinds (tokenize text).dropLast)

structure IsSubroutine (text : String) : Prop where
  closed : Closed text.toList
  derived : Derived .subroutineDec (tokenize text).dropLast

theorem toList_rowText (before : List String) (s : String) (after : List String) :
    (rowText (before ++ s :: after)).toList =
      linesOf (before.map String.toList) ++ (s.toList ++ '\n' :: (rowText after).toList) := by
  induction before with
  | nil => simp [rowText, linesOf]
  | cons b before ih =>
    rw [List.cons_append, rowText, String.toList_append, String.toList_append, ih]
    simp [linesOf]

def rowTokens (d : Nat) : List String → List Token
  | [] => (tokenize "\x7d").map (Token.move d)
  | s :: ss =>
    ((tokenize s).dropLast).map (Token.move d) ++ rowTokens (d + (byteSize s.toList + 1)) ss

theorem map_move_rowTokens (d e : Nat) (ss : List String) :
    (rowTokens d ss).map (Token.move e) = rowTokens (d + e) ss := by
  induction ss generalizing d with
  | nil => rw [rowTokens, Token.map_move_move, rowTokens]
  | cons s ss ih =>
    rw [rowTokens, List.map_append, Token.map_move_move, ih, rowTokens, Nat.add_right_comm]

theorem tokenize_rowText {ss : List String} (h : ∀ s ∈ ss, IsSubroutine s) :
    tokenize (rowText ss) = rowTokens 0 ss := by
  have hzero : ∀ u : List Token, u.map (Token.move 0) = u := fun u => List.map_id u
  induction ss with
  | nil => exact (hzero _).symm
  | cons s ss ih =>
    obtain ⟨hs, hss⟩ := List.forall_mem_cons.mp h
    rw [rowText, tokenize_append_line hs.closed, ih hss, map_move_rowTokens, rowTokens, hzero]

theorem tokenize_classText {header : String} {ss : List String} (hheader : IsHeader header)
    (h : ∀ s ∈ ss, IsSubroutine s) :
    tokenize (classText header ss) =
      (tokenize header).dropLast ++ rowTokens (byteSize header.toList + 1) ss := by
  rw [classText, tokenize_append_line hheader.closed, tokenize_rowText h, map_move_rowTokens,
    Nat.zero_add]

/-! ## The actions of a text -/

def closingBrace : Token :=
  ⟨.mark .rightBrace, ⟨0, 0⟩, ""⟩

def textActions (s : String) : List Action :=
  (descend [.goal .subroutines] ((tokenize s).dropLast ++ [closingBrace])).1.filterMap
    Event.action?

theorem filterMap_action_map (f : Token → Token) (es : List Event) :
    (es.map (Event.map f)).filterMap Event.action? =
      (es.filterMap Event.action?).map (Action.map f) := by
  rw [List.filterMap_map, List.map_filterMap]
  congr 1
  funext e
  cases e with
  | note n => cases n <;> rfl
  | _ => rfl

theorem SubroutineDec.actions_eq_descend {t : SubroutineDec} {u : List Token} {b : Token}
    (h : t.script.Spelled u) (hb : b.kind = .mark .rightBrace) :
    t.script.actions = (descend [.goal .subroutines] (u ++ [b])).1.filterMap Event.action? := by
  obtain ⟨es, hes⟩ := Script.spelled_iff_exists_reads.mp h
  have hrow : Reads ([t].flatMap SubroutineDec.script) u es := by simpa using hes
  have hdescends := accepts_subroutines [t] u es hrow b [] (by simp [hb])
  rw [hdescends.descend_eq, hes.actions]

namespace IsSubroutine

variable {s : String}

theorem exists_tree (h : IsSubroutine s) :
    ∃ t : SubroutineDec, t.script.Spelled (tokenize s).dropLast ∧
      t.script.actions = textActions s := by
  obtain ⟨v, _, hu, ⟨t, ht⟩, rfl⟩ := row_of_derives builds h.derived
  rw [List.append_nil] at hu
  subst hu
  exact ⟨t, ht, t.actions_eq_descend ht rfl⟩

/-- The text means the same wherever it stands. -/
theorem exists_moved (h : IsSubroutine s) (d : Nat) :
    ∃ t : SubroutineDec, t.script.Spelled ((tokenize s).dropLast.map (Token.move d)) ∧
      t.script.actions = (textActions s).map (Action.map (Token.move d)) := by
  have hkinds : kinds ((tokenize s).dropLast.map (Token.move d)) = kinds (tokenize s).dropLast := by
    rw [kinds, List.map_map]
    rfl
  have hderived : Derived .subroutineDec ((tokenize s).dropLast.map (Token.move d)) := by
    rw [Derived, hkinds]
    exact h.derived
  obtain ⟨v, _, hu, ⟨t, ht⟩, rfl⟩ := row_of_derives builds hderived
  rw [List.append_nil] at hu
  rw [← hu] at ht
  refine ⟨t, ht, ?_⟩
  have hdescend := descend_map (f := Token.move d) (fun _ => rfl) [.goal .subroutines]
    ((tokenize s).dropLast ++ [closingBrace])
  rw [List.map_append] at hdescend
  rw [textActions, ← filterMap_action_map,
    t.actions_eq_descend (b := closingBrace.move d) ht rfl]
  exact congrArg (fun r => r.1.filterMap Event.action?) hdescend

variable {o : Options} {c d : Context} {p : List Instruction} {fault : Fault Nat}

theorem performAll_congr (h : IsSubroutine s) (hc : c.SameClass d) :
    performAll o d (textActions s) = performAll o c (textActions s) := by
  obtain ⟨t, -, ht⟩ := h.exists_tree
  rw [← ht]
  exact t.performAll_congr hc

theorem sameClass (h : IsSubroutine s) (hd : performAll o c (textActions s) = .ok (d, p)) :
    c.SameClass d := by
  obtain ⟨t, -, ht⟩ := h.exists_tree
  rw [← ht] at hd
  exact t.sameClass hd

end IsSubroutine

theorem place_le_of_textActions {o : Options} {c : Context} {s : String} {fault : Fault Nat}
    (h : performAll o c (textActions s) = .error fault) :
    ∀ place ∈ fault.place?, place ≤ byteSize s.toList := by
  intro place hplace
  obtain ⟨a, ha, t, ht, hcovers⟩ := place?_performAll h place hplace
  obtain ⟨e, he, hact⟩ := List.mem_filterMap.mp ha
  obtain rfl : e = .note (.act a) := by
    unfold Event.action? at hact
    split at hact
    · cases hact
      rfl
    · cases hact
  have hmem := mem_of_act_mem_descend (fun _ => rfl) he t ht
  rcases List.mem_append.mp hmem with hmem | hmem
  · exact Nat.le_trans hcovers.2 (stop_le_of_mem_tokenize (List.mem_of_mem_dropLast hmem))
  · rw [List.mem_singleton] at hmem
    subst hmem
    exact Nat.le_trans hcovers.2 (Nat.zero_le _)

/-! ## Rows of texts -/

def rowActions (d : Nat) : List String → List Action
  | [] => []
  | s :: ss =>
    (textActions s).map (Action.map (Token.move d)) ++ rowActions (d + (byteSize s.toList + 1)) ss

theorem exists_row {ss : List String} (h : ∀ s ∈ ss, IsSubroutine s) (d : Nat) :
    ∃ (ts : List SubroutineDec) (u rest : List Token), rowTokens d ss = u ++ rest ∧
      Script.Spelled (ts.flatMap SubroutineDec.script ++ endScript) u ∧
      Script.actions (ts.flatMap SubroutineDec.script) = rowActions d ss ∧
      ts.length = ss.length := by
  induction ss generalizing d with
  | nil =>
    have hbrace : tokenize "\x7d" =
        [⟨.mark .rightBrace, ⟨0, 1⟩, "\x7d"⟩, ⟨.finish, ⟨1, 0⟩, ""⟩] := by
      decide +kernel
    refine ⟨[], [_], [_], by rw [rowTokens, hbrace]; rfl, ?_, rfl, rfl⟩
    exact ⟨_, _, rfl, rfl, rfl⟩
  | cons s ss ih =>
    obtain ⟨hs, hss⟩ := List.forall_mem_cons.mp h
    obtain ⟨t, ht, hactions⟩ := hs.exists_moved d
    obtain ⟨ts, u, rest, htokens, hu, hrest, hlength⟩ := ih hss (d + (byteSize s.toList + 1))
    refine ⟨t :: ts, (tokenize s).dropLast.map (Token.move d) ++ u, rest, ?_, ?_, ?_,
      congrArg (· + 1) hlength⟩
    · rw [rowTokens, htokens, List.append_assoc]
    · rw [List.flatMap_cons, List.append_assoc]
      exact ht.append hu
    · rw [List.flatMap_cons, Script.actions_append, hactions, hrest, rowActions]

def linesSize (ss : List String) : Nat :=
  byteSize (linesOf (ss.map String.toList))

theorem linesSize_cons (s : String) (ss : List String) :
    linesSize (s :: ss) = byteSize s.toList + 1 + linesSize ss := by
  have hline : byteSize ['\n'] = 1 := by decide
  simp only [linesSize, linesOf, List.map_cons, List.flatMap_cons, byteSize_append, hline]

def sourceCode (o : Options) (c : Context) (s : String) : List Instruction :=
  match performAll o c (textActions s) with
  | .ok (_, p) => p
  | .error _ => []

theorem performAll_move_ok_iff {o : Options} {c : Context} {d : Nat} {as : List Action}
    {r : Context × List Instruction} :
    performAll o c (as.map (Action.map (Token.move d))) = .ok r ↔ performAll o c as = .ok r := by
  rw [performAll_move]
  cases performAll o c as <;> simp [mapError_ok, mapError_error]

theorem performAll_move_error_iff {o : Options} {c : Context} {d : Nat} {as : List Action}
    {fault : Fault Nat} :
    performAll o c (as.map (Action.map (Token.move d))) = .error fault ↔
      ∃ f, performAll o c as = .error f ∧ fault = f.map (· + d) := by
  rw [performAll_move]
  cases performAll o c as <;> simp [mapError_ok, mapError_error, eq_comm]

section Rows

variable {o : Options} {c d : Context} {ss : List String}

theorem sourceCode_congr (h : ∀ s ∈ ss, IsSubroutine s) (hc : c.SameClass d) :
    ss.flatMap (sourceCode o d) = ss.flatMap (sourceCode o c) := by
  rw [List.flatMap_congr]
  intro s hs
  rw [sourceCode, (h s hs).performAll_congr hc]
  rfl

theorem performAll_row_ok_iff (h : ∀ s ∈ ss, IsSubroutine s) (n : Nat) {p : List Instruction} :
    (∃ e, performAll o c (rowActions n ss) = .ok (e, p)) ↔
      (∀ s ∈ ss, ∃ r, performAll o c (textActions s) = .ok r) ∧
        p = ss.flatMap (sourceCode o c) := by
  induction ss generalizing c n p with
  | nil =>
    simp only [rowActions, performAll_nil_iff]
    simp
  | cons s ss ih =>
    obtain ⟨hs, hss⟩ := List.forall_mem_cons.mp h
    -- What a subroutine leaves behind does not matter to the next, since the class is the same.
    have hrest : ∀ {d : Context}, c.SameClass d →
        ((∀ s ∈ ss, ∃ r, performAll o d (textActions s) = .ok r) ↔
          ∀ s ∈ ss, ∃ r, performAll o c (textActions s) = .ok r) := by
      intro d hd
      refine forall₂_congr fun s hs => ?_
      rw [(hss s hs).performAll_congr hd]
    rw [List.forall_mem_cons, List.flatMap_cons, rowActions]
    refine ⟨fun hp => ?_, fun hp => ?_⟩
    · obtain ⟨e, hp⟩ := hp
      obtain ⟨d, q, r, hq, hr, rfl⟩ := performAll_append_iff.mp hp
      rw [performAll_move_ok_iff] at hq
      have hsame := hs.sameClass hq
      obtain ⟨hall, rfl⟩ := (ih hss _).mp ⟨e, hr⟩
      refine ⟨⟨⟨_, hq⟩, (hrest hsame).mp hall⟩, ?_⟩
      rw [sourceCode_congr hss hsame, sourceCode, hq]
    · obtain ⟨⟨⟨⟨d, q⟩, hq⟩, hall⟩, rfl⟩ := hp
      have hsame := hs.sameClass hq
      obtain ⟨e, he⟩ := (ih hss (n + (byteSize s.toList + 1))).mpr ⟨(hrest hsame).mpr hall, rfl⟩
      refine ⟨e, performAll_append_iff.mpr ⟨d, q, _, performAll_move_ok_iff.mpr hq, he, ?_⟩⟩
      rw [sourceCode_congr hss hsame, sourceCode, hq]

theorem performAll_row_error_iff (h : ∀ s ∈ ss, IsSubroutine s) (n : Nat) {fault : Fault Nat} :
    performAll o c (rowActions n ss) = .error fault ↔
      ∃ before s after f, ss = before ++ s :: after ∧
        (∀ s' ∈ before, ∃ r, performAll o c (textActions s') = .ok r) ∧
        performAll o c (textActions s) = .error f ∧
        fault = f.map (· + (n + linesSize before)) := by
  induction ss generalizing c n with
  | nil => simp [rowActions, performAll]
  | cons s ss ih =>
    obtain ⟨hs, hss⟩ := List.forall_mem_cons.mp h
    rw [rowActions, performAll_append_error_iff]
    refine ⟨fun hp => ?_, fun hp => ?_⟩
    · rcases hp with hp | ⟨d, q, hq, hp⟩
      · obtain ⟨f, hf, rfl⟩ := performAll_move_error_iff.mp hp
        exact ⟨[], s, ss, f, rfl, by simp, hf, rfl⟩
      · rw [performAll_move_ok_iff] at hq
        have hsame := hs.sameClass hq
        obtain ⟨before, s', after, f, rfl, hbefore, hf, rfl⟩ := (ih hss _).mp hp
        refine ⟨s :: before, s', after, f, rfl, ?_, ?_, ?_⟩
        · refine List.forall_mem_cons.mpr ⟨⟨_, hq⟩, fun t ht => ?_⟩
          rw [← (hss t (by simp [ht])).performAll_congr hsame]
          exact hbefore t ht
        · rw [← (hss s' (by simp)).performAll_congr hsame]
          exact hf
        · rw [linesSize_cons, Nat.add_assoc n]
    · obtain ⟨before, s', after, f, hlist, hbefore, hf, rfl⟩ := hp
      cases before with
      | nil =>
        obtain ⟨rfl, rfl⟩ := List.cons.inj hlist
        exact .inl (performAll_move_error_iff.mpr ⟨f, hf, rfl⟩)
      | cons b before =>
        obtain ⟨rfl, rfl⟩ := List.cons.inj hlist
        obtain ⟨⟨⟨d, q⟩, hq⟩, hbefore⟩ := List.forall_mem_cons.mp hbefore
        have hsame := hs.sameClass hq
        refine .inr ⟨d, q, performAll_move_ok_iff.mpr hq, (ih hss _).mpr ?_⟩
        refine ⟨before, s', after, f, rfl, fun t ht => ?_, ?_, ?_⟩
        · rw [(hss t (by simp [ht])).performAll_congr hsame]
          exact hbefore t ht
        · rw [(hss s' (by simp)).performAll_congr hsame]
          exact hf
        · rw [linesSize_cons, Nat.add_assoc n]

end Rows

end JackCompiler
