import JackCompiler.Proofs.Token.Gaps

/-!
# Trivia

What may stand in a gap between tokens: blanks, comments and characters that no token
starts with. The scanner steps over such a text and over no other (`leaves_skipGap`,
`Trivia.exists_skipGap`).
-/

namespace JackCompiler

/-! ## First characters -/

section

variable {c : Char}

theorem isDigit_iff : c.isDigit = true ↔ 48 ≤ c.toNat ∧ c.toNat ≤ 57 := by
  apply Bool.and_eq_true_iff.trans
  exact and_congr decide_eq_true_iff decide_eq_true_iff

theorem isUpper_iff : c.isUpper = true ↔ 65 ≤ c.toNat ∧ c.toNat ≤ 90 :=
  decide_eq_true_iff

theorem isLower_iff : c.isLower = true ↔ 97 ≤ c.toNat ∧ c.toNat ≤ 122 := by
  apply Bool.and_eq_true_iff.trans
  exact and_congr decide_eq_true_iff decide_eq_true_iff

theorem isLetter_iff : isLetter c = true ↔
    (65 ≤ c.toNat ∧ c.toNat ≤ 90) ∨ (97 ≤ c.toNat ∧ c.toNat ≤ 122) ∨ c.toNat = 95 := by
  have halpha : c.isAlpha = true ↔ c.isUpper = true ∨ c.isLower = true := Bool.or_eq_true_iff
  have hunderscore : c = '_' ↔ c.toNat = 95 := by
    rw [← Char.toNat_inj]
    exact Iff.rfl
  rw [isLetter, Bool.or_eq_true_iff, halpha, isUpper_iff, isLower_iff, beq_iff_eq, hunderscore,
    or_assoc]

theorem not_isLetter_of_isDigit (h : c.isDigit = true) : ¬ isLetter c = true := by
  rw [isDigit_iff] at h
  rw [isLetter_iff]
  omega

theorem not_isBlank_of_ascii (hlow : 33 ≤ c.toNat) (hhigh : c.toNat ≤ 126) :
    ¬ isBlank c = true := by
  simp only [isBlank, blankRanges, List.any_cons, List.any_nil, Bool.or_eq_true,
    Bool.and_eq_true, decide_eq_true_eq, Bool.false_eq_true, or_false]
  omega

end

namespace Lead

variable {c : Char} {lead : Lead}

theorem ofChar?_of_suits (h : lead.Suits c) : ofChar? c = some lead := by
  cases lead with
  | quote =>
    obtain rfl : c = '"' := h
    rfl
  | letter =>
    have hletter : isLetter c = true := h
    have hquote : c ≠ '"' := by rintro rfl; revert hletter; decide
    rw [ofChar?, if_neg hquote, if_pos hletter]
  | digit =>
    have hdigit : c.isDigit = true := h
    have hquote : c ≠ '"' := by rintro rfl; revert hdigit; decide
    rw [ofChar?, if_neg hquote, if_neg (not_isLetter_of_isDigit hdigit), if_pos hdigit]
  | mark m =>
    obtain rfl : m.char = c := h
    cases m <;> decide

theorem ofChar?_eq_some_iff : ofChar? c = some lead ↔ lead.Suits c :=
  ⟨suits_of_ofChar?, ofChar?_of_suits⟩

theorem ofChar?_eq_none_iff : ofChar? c = none ↔ ∀ lead : Lead, ¬ lead.Suits c := by
  simp only [Option.eq_none_iff_forall_ne_some, ne_eq, ofChar?_eq_some_iff]

theorem Suits.not_isBlank (h : lead.Suits c) : ¬ isBlank c = true := by
  cases lead with
  | quote =>
    obtain rfl : c = '"' := h
    decide
  | letter =>
    have hletter := isLetter_iff.mp h
    exact not_isBlank_of_ascii (by omega) (by omega)
  | digit =>
    have hdigit := isDigit_iff.mp h
    exact not_isBlank_of_ascii (by omega) (by omega)
  | mark m =>
    obtain rfl : m.char = c := h
    cases m <;> decide

end Lead

theorem isBlank_of_isLineEnd {c : Char} (h : isLineEnd c = true) : isBlank c = true := by
  rcases (by simpa [isLineEnd] using h : c = '\n' ∨ c = '\r') with rfl | rfl <;> decide

/-! ## Comments -/

def Unclosed (body : List Char) : Prop :=
  ¬ ['*', '/'] <:+: body

theorem unclosed_nil : Unclosed [] := by
  unfold Unclosed
  decide

theorem unclosed_cons_iff {c : Char} {cs : List Char} :
    Unclosed (c :: cs) ↔ (c = '*' → ∀ d ∈ cs.head?, d ≠ '/') ∧ Unclosed cs := by
  have hprefix : ['*', '/'] <+: c :: cs ↔ c = '*' ∧ '/' ∈ cs.head? := by
    cases cs <;> simp [List.cons_prefix_cons, eq_comm]
  unfold Unclosed
  rw [List.infix_cons_iff, hprefix]
  constructor
  · intro h
    refine ⟨fun hc d hd hslash => h (.inl ⟨hc, hslash ▸ hd⟩), fun hcs => h (.inr hcs)⟩
  · rintro ⟨hhead, hcs⟩ (⟨hc, hd⟩ | h)
    · exact hhead hc _ hd rfl
    · exact hcs h

/-- The characters may stand in a gap before `rest`, which begins with a token or is empty. -/
inductive Trivia (rest : List Char) : List Char → Prop
  | nil : Trivia rest []
  | blank {c gap} (hc : isBlank c = true) (h : Trivia rest gap) : Trivia rest (c :: gap)
  /-- A character that no token starts with. -/
  | odd {c gap} (hblank : ¬ isBlank c = true) (hc : ∀ lead : Lead, ¬ lead.Suits c)
      (h : Trivia rest gap) : Trivia rest (c :: gap)
  | line {body gap} (hbody : ∀ c ∈ body, ¬ isLineEnd c = true)
      (hend : ∀ c ∈ (gap ++ rest).head?, isLineEnd c = true) (h : Trivia rest gap) :
      Trivia rest ('/' :: '/' :: (body ++ gap))
  | block {body gap} (hbody : Unclosed body) (h : Trivia rest gap) :
      Trivia rest ('/' :: '*' :: (body ++ '*' :: '/' :: gap))
  | openBlock {body} (hrest : rest = []) (hbody : Unclosed body) :
      Trivia rest ('/' :: '*' :: body)

/-! ## Gaps are trivia -/

def Gap.Leaves (rest : List Char) : Gap → List Char → Prop
  | .between, text => Trivia rest text
  | .line, text => ∃ body gap, text = body ++ gap ∧ (∀ c ∈ body, ¬ isLineEnd c = true) ∧
      (∀ c ∈ (gap ++ rest).head?, isLineEnd c = true) ∧ Trivia rest gap
  | .block, text =>
    (∃ body gap, text = body ++ '*' :: '/' :: gap ∧ Unclosed body ∧ Trivia rest gap) ∨
      rest = [] ∧ Unclosed text

theorem leaves_skipGap (gap : Gap) (skipped : List Skipped) (offset : Nat) (a : List Char) :
    ∃ text, a = text ++ (skipGap gap skipped offset a).rest ∧
      gap.Leaves (skipGap gap skipped offset a).rest text := by
  fun_induction skipGap gap skipped offset a with
  | case1 gap skipped offset =>
    refine ⟨[], rfl, ?_⟩
    cases gap with
    | between => exact .nil
    | line => exact ⟨[], [], rfl, List.forall_mem_nil _, by simp [Landing.rest], .nil⟩
    | block => exact .inr ⟨rfl, unclosed_nil⟩
  | case2 skipped offset c cs hblank ih =>
    obtain ⟨text, hcs, h⟩ := ih
    exact ⟨c :: text, congrArg _ hcs, .blank hblank h⟩
  | case3 skipped offset cs hblank ih =>
    obtain ⟨text, hcs, body, gap, rfl, hbody, hend, h⟩ := ih
    exact ⟨'/' :: '/' :: (body ++ gap), congrArg (fun x => '/' :: '/' :: x) hcs,
      .line hbody hend h⟩
  | case4 skipped offset cs hblank ih =>
    obtain ⟨text, hcs, ⟨body, gap, rfl, hbody, h⟩ | ⟨hrest, hbody⟩⟩ := ih
    · exact ⟨'/' :: '*' :: (body ++ '*' :: '/' :: gap), congrArg (fun x => '/' :: '*' :: x) hcs,
        .block hbody h⟩
    · exact ⟨'/' :: '*' :: text, congrArg (fun x => '/' :: '*' :: x) hcs, .openBlock hrest hbody⟩
  | case5 | case6 => exact ⟨[], rfl, .nil⟩
  | case7 skipped offset c cs hblank hslash hlead ih =>
    obtain ⟨text, hcs, h⟩ := ih
    exact ⟨c :: text, congrArg _ hcs, .odd hblank (Lead.ofChar?_eq_none_iff.mp hlead) h⟩
  | case8 skipped offset c cs hend ih =>
    -- The line end is not part of the comment.
    obtain ⟨text, hcs, h⟩ := ih
    refine ⟨c :: text, congrArg _ hcs, [], c :: text, rfl, List.forall_mem_nil _, ?_,
      .blank (isBlank_of_isLineEnd hend) h⟩
    intro d hd
    obtain rfl := Option.mem_some_iff.mp hd
    exact hend
  | case9 skipped offset c cs hend ih =>
    obtain ⟨text, hcs, body, gap, rfl, hbody, hhead, h⟩ := ih
    exact ⟨c :: (body ++ gap), congrArg _ hcs, c :: body, gap, rfl,
      List.forall_mem_cons.mpr ⟨hend, hbody⟩, hhead, h⟩
  | case10 skipped offset cs ih =>
    obtain ⟨text, hcs, h⟩ := ih
    exact ⟨'*' :: '/' :: text, congrArg (fun x => '*' :: '/' :: x) hcs,
      .inl ⟨[], text, rfl, unclosed_nil, h⟩⟩
  | case11 skipped offset cs hslash ih =>
    obtain ⟨text, hcs, h⟩ := ih
    -- The star closes nothing, here or in front of the rest of the body.
    have hhead : ∀ d ∈ text.head?, d ≠ '/' := by
      intro d hd
      apply head?_ne hslash d
      rw [hcs, List.head?_append, Option.mem_def.mp hd]
      rfl
    refine ⟨'*' :: text, congrArg _ hcs, ?_⟩
    rcases h with ⟨body, gap, rfl, hbody, h⟩ | ⟨hrest, hbody⟩
    · refine .inl ⟨'*' :: body, gap, rfl, unclosed_cons_iff.mpr ⟨fun _ => ?_, hbody⟩, h⟩
      cases body with
      | nil => simp
      | cons d ds => exact hhead
    · exact .inr ⟨hrest, unclosed_cons_iff.mpr ⟨fun _ => hhead, hbody⟩⟩
  | case12 skipped offset c cs hstar ih =>
    obtain ⟨text, hcs, h⟩ := ih
    refine ⟨c :: text, congrArg _ hcs, ?_⟩
    rcases h with ⟨body, gap, rfl, hbody, h⟩ | ⟨hrest, hbody⟩
    · exact .inl ⟨c :: body, gap, rfl, unclosed_cons_iff.mpr ⟨fun hc => absurd hc hstar, hbody⟩, h⟩
    · exact .inr ⟨hrest, unclosed_cons_iff.mpr ⟨fun hc => absurd hc hstar, hbody⟩⟩

/-! ## Trivia are gaps -/

section

variable (skipped : List Skipped) (offset : Nat)

theorem skipGap_lineComment (cs : List Char) :
    skipGap .between skipped offset ('/' :: '/' :: cs) =
      skipGap .line skipped (offset + 2) cs := by
  have hblank : ¬ isBlank '/' = true := by decide
  rw [skipGap.eq_def]
  simp only [if_neg hblank, if_true]

theorem skipGap_blockComment (cs : List Char) :
    skipGap .between skipped offset ('/' :: '*' :: cs) =
      skipGap .block skipped (offset + 2) cs := by
  have hblank : ¬ isBlank '/' = true := by decide
  rw [skipGap.eq_def]
  simp only [if_neg hblank, if_true]

theorem skipGap_lineBody {body : List Char} (h : ∀ c ∈ body, ¬ isLineEnd c = true)
    (cs : List Char) :
    skipGap .line skipped offset (body ++ cs) =
      skipGap .line skipped (offset + byteSize body) cs := by
  induction body generalizing offset with
  | nil => rfl
  | cons c body ih =>
    obtain ⟨hc, hbody⟩ := List.forall_mem_cons.mp h
    rw [List.cons_append, skipGap_line _ _ _ hc, ih _ hbody, byteSize_cons, Nat.add_assoc]

theorem skipGap_line_eq_between {cs : List Char} (h : ∀ c ∈ cs.head?, isLineEnd c = true) :
    skipGap .line skipped offset cs = skipGap .between skipped offset cs := by
  cases cs with
  | nil => rfl
  | cons c cs =>
    have hc : isLineEnd c = true := h c rfl
    -- A line end is blank, so that it does not matter whether it still is in the comment.
    rw [skipGap_lineEnd _ _ _ hc, skipGap_blank _ _ _ (isBlank_of_isLineEnd hc),
      utf8Size_lineEnd hc]

theorem skipGap_unclosed {body cs : List Char} (h : Unclosed body)
    (hcs : ∀ c ∈ cs.head?, c ≠ '/') :
    skipGap .block skipped offset (body ++ cs) =
      skipGap .block skipped (offset + byteSize body) cs := by
  have hstar : '*'.utf8Size = 1 := by decide
  induction body generalizing offset with
  | nil => rfl
  | cons c body ih =>
    obtain ⟨hc, hbody⟩ := unclosed_cons_iff.mp h
    rw [List.cons_append, byteSize_cons, ← Nat.add_assoc]
    by_cases hstar' : c = '*'
    · subst hstar'
      have hhead : ∀ d ∈ (body ++ cs).head?, d ≠ '/' := by
        cases body with
        | nil => exact hcs
        | cons d ds => exact hc rfl
      rw [skipGap_star _ _ hhead, ih _ hbody, hstar]
    · rw [skipGap_block _ _ _ hstar', ih _ hbody]

theorem Trivia.exists_skipGap {rest gap : List Char} (h : Trivia rest gap) :
    ∃ skipped', skipGap .between skipped offset (gap ++ rest) =
      skipGap .between skipped' (offset + byteSize gap) rest := by
  have hslash : '/'.utf8Size = 1 := by decide
  have hstar : '*'.utf8Size = 1 := by decide
  induction h generalizing skipped offset with
  | nil => exact ⟨skipped, rfl⟩
  | blank hc h ih =>
    rw [List.cons_append, skipGap_blank _ _ _ hc, byteSize_cons, ← Nat.add_assoc]
    exact ih _ _
  | odd hblank hc h ih =>
    rename_i c gap
    have hlead := Lead.ofChar?_eq_none_iff.mpr hc
    rw [List.cons_append, skipGap_odd _ _ _ hblank (ofChar?_ne hlead).2 hlead, byteSize_cons,
      ← Nat.add_assoc]
    exact ih _ _
  | @line body gap hbody hend h ih =>
    obtain ⟨skipped', hgap⟩ := ih skipped (offset + 2 + byteSize body)
    refine ⟨skipped', ?_⟩
    rw [List.cons_append, List.cons_append, List.append_assoc, skipGap_lineComment,
      skipGap_lineBody _ _ hbody, skipGap_line_eq_between _ _ hend, hgap]
    simp only [byteSize_cons, byteSize_append, hslash, ← Nat.add_assoc]
  -- The body cannot close the comment early, not even together with the mark behind it.
  | @block body gap hbody h ih =>
    obtain ⟨skipped', hgap⟩ := ih skipped (offset + 2 + byteSize body + 2)
    have hmark : ∀ c ∈ ('*' :: '/' :: (gap ++ rest)).head?, c ≠ '/' := by
      simp
    have hclose : skipGap .block skipped (offset + 2 + byteSize body)
        ('*' :: '/' :: (gap ++ rest)) =
        skipGap .between skipped (offset + 2 + byteSize body + 2) (gap ++ rest) := by
      simp [skipGap]
    refine ⟨skipped', ?_⟩
    rw [List.cons_append, List.cons_append, List.append_assoc, skipGap_blockComment]
    refine (skipGap_unclosed _ _ hbody hmark).trans (hclose.trans (hgap.trans ?_))
    simp only [byteSize_cons, byteSize_append, hslash, hstar, ← Nat.add_assoc]
  | @openBlock body hrest hbody =>
    subst hrest
    refine ⟨skipped, ?_⟩
    rw [List.cons_append, List.cons_append, skipGap_blockComment]
    have hend : ∀ c ∈ ([] : List Char).head?, c ≠ '/' := by simp
    refine (skipGap_unclosed _ _ hbody hend).trans ?_
    simp only [byteSize_cons, hslash, hstar, ← Nat.add_assoc]
    rfl

end

end JackCompiler
