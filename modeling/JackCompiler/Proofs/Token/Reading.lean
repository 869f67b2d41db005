import Mathlib.Data.List.Flatten
import Mathlib.Logic.Function.Iterate
import JackCompiler.Proofs.Token.Lines
import JackCompiler.Token.Reader

/-!
# Reading tokens one by one

A reader answers as a bookmark in the list of the source's tokens does, whatever it is asked
(`Reader.answers_eq`). It scans no token before that is asked for, and has reported just the
characters skipped before the tokens that it has scanned.
-/

namespace JackCompiler

/-! ## Calls and answers -/

inductive Reader.Call
  | next
  | peek
  | peekKind
  | previous
  | check (kinds : List Terminal)
  | accept (kind : Terminal)
  | expect (kinds : List Terminal)

inductive Reader.Answer
  | token (token : Option Token)
  | kind (kind : Option Terminal)
  | truth (truth : Bool)
  | result (result : Except (Fault Position) Token)
deriving DecidableEq

def Reader.Call.answers {State : Type} (answer : State → Call → Answer × State) (s : State) :
    List Call → List Answer × State
  | [] => ([], s)
  | c :: cs =>
    let (a, s) := answer s c
    let (as, s) := answers answer s cs
    (a :: as, s)

def Reader.answer (r : Reader) : Call → Answer × Reader
  | .next => (.token r.next.1, r.next.2)
  | .peek => (.token r.peek.1, r.peek.2)
  | .peekKind => (.kind r.peekKind.1, r.peekKind.2)
  | .previous => (.token r.previous, r)
  | .check kinds => (.truth (r.check kinds).1, (r.check kinds).2)
  | .accept kind => (.truth (r.accept kind).1, (r.accept kind).2)
  | .expect kinds =>
    (.result ((r.expect kinds).1.mapError (Fault.map (Position.ofOffset r.source))),
      (r.expect kinds).2)

/-! ## Bookmarks -/

/-- A place in the list of a source's tokens, and the token that was taken last. -/
structure Bookmark where
  source : String
  place : Nat
  previous : Option Token

namespace Bookmark

def start (source : String) : Bookmark :=
  ⟨source, 0, none⟩

def current (b : Bookmark) : Option Token :=
  (tokenize b.source)[b.place]?

def advance (b : Bookmark) : Bookmark :=
  { b with place := b.place + 1, previous := b.current }

def stands (b : Bookmark) (kinds : List Terminal) : Bool :=
  b.current.any (kinds.contains ·.kind)

def answer (b : Bookmark) : Reader.Call → Reader.Answer × Bookmark
  | .next => (.token b.current, b.advance)
  | .peek => (.token b.current, b)
  | .peekKind => (.kind (b.current.map Token.kind), b)
  | .previous => (.token b.previous, b)
  | .check kinds => (.truth (b.stands kinds), b)
  | .accept kind =>
    if b.stands [kind] then (.truth true, b.advance) else (.truth false, b)
  | .expect kinds =>
    match b.current with
    | none => (.result (.error .endOfSource), b)
    | some t =>
      if t.kind ∈ kinds then (.result (.ok t), b.advance)
      else (.result (.error (.unexpected kinds t (t.span.position b.source.toList))), b)

end Bookmark

/-! ## Where characters are skipped -/

def skippedIn (source : String) : List Skipped :=
  (scan source.toList).toList.flatMap Scanned.skipped

/-- The characters are skipped one behind the other, from one offset on and before another. -/
structure SkippedBetween (start stop : Nat) (skipped : List Skipped) : Prop where
  le : start ≤ stop
  ordered : skipped.Pairwise (·.offset < ·.offset)
  bounds : ∀ s ∈ skipped, start ≤ s.offset ∧ s.offset < stop

namespace SkippedBetween

variable {start start' stop stop' : Nat} {skipped : List Skipped}

theorem nil (start : Nat) : SkippedBetween start start [] :=
  ⟨Nat.le_refl _, .nil, List.forall_mem_nil _⟩

theorem mono (h : SkippedBetween start stop skipped) (hstart : start' ≤ start)
    (hstop : stop ≤ stop') : SkippedBetween start' stop' skipped :=
  ⟨Nat.le_trans hstart (Nat.le_trans h.le hstop), h.ordered, fun s hs =>
    ⟨Nat.le_trans hstart (h.bounds s hs).1, Nat.lt_of_lt_of_le (h.bounds s hs).2 hstop⟩⟩

theorem concat (h : SkippedBetween start stop skipped) (c : Char) (hstop : stop < stop') :
    SkippedBetween start stop' (skipped ++ [⟨c, stop⟩]) := by
  have hbefore := h.mono (Nat.le_refl _) (Nat.le_of_lt hstop)
  refine ⟨hbefore.le, List.pairwise_append.mpr ⟨h.ordered, List.pairwise_singleton _ _, ?_⟩,
    List.forall_mem_append.mpr ⟨hbefore.bounds, List.forall_mem_singleton.mpr ⟨h.le, hstop⟩⟩⟩
  intro s hs t ht
  rw [List.mem_singleton.mp ht]
  exact (h.bounds s hs).2

theorem landing (gap : Gap) {offset : Nat} (a : List Char)
    (h : SkippedBetween start offset skipped.reverse) :
    SkippedBetween start (skipGap gap skipped offset a).offset
      (skipGap gap skipped offset a).skipped := by
  fun_induction skipGap gap skipped offset a with
  | case1 | case5 | case6 => exact h
  | case7 skipped offset c cs hblank hslash hlead ih =>
    apply ih
    rw [List.reverse_cons]
    exact h.concat c (Nat.lt_add_of_pos_right c.utf8Size_pos)
  | case2 _ _ _ _ _ ih | case3 _ _ _ _ ih | case4 _ _ _ _ ih | case8 _ _ _ _ _ ih
  | case9 _ _ _ _ _ ih | case10 _ _ _ ih | case11 _ _ _ _ ih | case12 _ _ _ _ _ ih =>
    exact ih (h.mono (Nat.le_refl _) (Nat.le_add_right _ _))

end SkippedBetween

namespace Cursor

theorem offset_le_index_read (offset : Nat) (c : Char) (cs : List Char) (lead : Lead) :
    offset ≤ (read offset c cs lead).1.span.index := by
  cases lead with
  | quote => exact Nat.le_succ offset
  | letter | digit | mark => exact Nat.le_refl offset

theorem skippedBetween_next (c : Cursor) :
    SkippedBetween c.offset c.next.1.token.span.index c.next.1.skipped := by
  have hgap : SkippedBetween c.offset (skipGap .between [] c.offset c.rest).offset
      (skipGap .between [] c.offset c.rest).skipped :=
    .landing .between c.rest (.nil c.offset)
  cases hfound : (skipGap .between [] c.offset c.rest).found with
  | none =>
    rw [next_of_none hfound]
    exact hgap
  | some found =>
    obtain ⟨lead, d, cs⟩ := found
    rw [next_of_found hfound]
    exact hgap.mono (Nat.le_refl _) (offset_le_index_read _ d cs lead)

theorem scanned_skipped (c : Cursor) :
    (∀ x ∈ c.scanned, SkippedBetween c.offset x.token.span.index x.skipped) ∧
      c.scanned.Pairwise fun x y =>
        SkippedBetween x.token.span.index y.token.span.index y.skipped := by
  have hnext := c.skippedBetween_next
  by_cases hkind : c.next.1.token.kind = .finish
  · rw [scanned_of_finish hkind]
    exact ⟨List.forall_mem_singleton.mpr hnext, List.pairwise_singleton _ _⟩
  · have hlength := length_next_lt hkind
    have hindex : c.next.1.token.span.index ≤ c.next.2.offset :=
      Nat.le_trans (Nat.le_add_right _ _) c.stop_next_le
    obtain ⟨hrest, hordered⟩ := c.next.2.scanned_skipped
    rw [scanned_of_ne_finish hkind, List.forall_mem_cons, List.pairwise_cons]
    exact ⟨⟨hnext, fun x hx => (hrest x hx).mono (Nat.le_trans hnext.le hindex) (Nat.le_refl _)⟩,
      fun x hx => (hrest x hx).mono hindex (Nat.le_refl _), hordered⟩
termination_by c.rest.length

end Cursor

theorem ordered_skippedIn (source : String) :
    (skippedIn source).Pairwise (·.offset < ·.offset) := by
  obtain ⟨hskipped, hordered⟩ := (Cursor.ofList source.toList).scanned_skipped
  refine List.pairwise_flatMap.mpr ⟨fun x hx => (hskipped x hx).ordered, ?_⟩
  refine hordered.imp_of_mem fun {x y} hx hy hxy s hs t ht => ?_
  exact Nat.lt_of_lt_of_le ((hskipped x hx).bounds s hs).2 (hxy.bounds t ht).1

def skippedBefore (source : String) (t? : Option Token) : List Skipped :=
  (skippedIn source).filter fun s => t?.any (s.offset < ·.span.index)

theorem skipped_take (source : String) (n : Nat) :
    ((scan source.toList).toList.take n).flatMap Scanned.skipped =
      skippedBefore source ((tokenize source).take n).getLast? := by
  obtain ⟨hskipped, hordered⟩ := (Cursor.ofList source.toList).scanned_skipped
  have hscan : (scan source.toList).toList = (Cursor.ofList source.toList).scanned := rfl
  rw [skippedBefore, tokenize, skippedIn, hscan, ← List.map_take]
  generalize (Cursor.ofList source.toList).scanned = all at hskipped hordered
  have hsplit : all.flatMap Scanned.skipped =
      (all.take n).flatMap Scanned.skipped ++ (all.drop n).flatMap Scanned.skipped := by
    rw [← List.flatMap_append, List.take_append_drop]
  -- `x` is the last token taken: all that is skipped up to it has a lower offset, all behind it
  -- none.
  rcases List.eq_nil_or_concat (all.take n) with htake | ⟨front, x, htake⟩
  · rw [htake]
    exact (List.filter_eq_nil_iff.mpr fun s hs => Bool.false_ne_true).symm
  rw [List.concat_eq_append] at htake
  rw [← List.take_append_drop n all, htake] at hskipped hordered
  obtain ⟨hfront, -, hbehind⟩ := List.pairwise_append.mp hordered
  have hbefore : ∀ s ∈ (front ++ [x]).flatMap Scanned.skipped, s.offset < x.token.span.index := by
    intro s hs
    obtain ⟨y, hy, hs⟩ := List.mem_flatMap.mp hs
    have hlt := ((hskipped y (List.mem_append_left _ hy)).bounds s hs).2
    rcases List.mem_append.mp hy with hy | hy
    · have hle := (List.pairwise_append.mp hfront).2.2 y hy x (List.mem_singleton_self x)
      exact Nat.lt_of_lt_of_le hlt hle.le
    · rwa [List.mem_singleton.mp hy] at hlt
  have hafter : ∀ s ∈ (all.drop n).flatMap Scanned.skipped, x.token.span.index ≤ s.offset := by
    intro s hs
    obtain ⟨y, hy, hs⟩ := List.mem_flatMap.mp hs
    exact ((hbehind x (List.mem_concat_self) y hy).bounds s hs).1
  have hlast : ((front ++ [x]).map Scanned.token).getLast? = some x.token := by simp
  rw [hsplit, htake, hlast, List.filter_append, List.filter_eq_self.mpr, List.filter_eq_nil_iff.mpr,
    List.append_nil]
  · exact fun s hs hlt => Nat.not_lt.mpr (hafter s hs) (of_decide_eq_true hlt)
  · exact fun s hs => decide_eq_true (hbefore s hs)

/-! ## Readers and bookmarks -/

theorem Cursor.scanned_eq (c : Cursor) :
    c.scanned =
      c.next.1 :: if c.next.1.token.kind == .finish then [] else c.next.2.scanned := by
  by_cases h : c.next.1.token.kind = .finish
  · rw [scanned_of_finish h, if_pos (beq_iff_eq.mpr h)]
  · rw [scanned_of_ne_finish h, if_neg (fun hkind => h (beq_iff_eq.mp hkind))]

def Cursor.after (c : Cursor) : Cursor :=
  c.next.2

namespace Reader

/-- The reader has scanned the first `n` tokens, and what it is asked next it answers as the
bookmark does. -/
structure Follows (r : Reader) (b : Bookmark) (n : Nat) : Prop where
  source_eq : r.source = b.source.toList
  previous_eq : r.previous = b.previous
  cursor_eq : r.cursor = Cursor.after^[n] (.ofList r.source)
  rest_eq : (if r.finished then [] else r.cursor.scanned) = (scan r.source).toList.drop n
  skipped_eq : r.skipped.reverse = ((scan r.source).toList.take n).flatMap Scanned.skipped
  ahead_eq :
    r.ahead = none ∧ n = min b.place (tokenize b.source).length ∨
      r.ahead = b.current ∧ n = b.place + 1 ∧ n ≤ (tokenize b.source).length

variable {r : Reader} {b : Bookmark} {n : Nat}

theorem follows_start (source : String) :
    (ofList source.toList).Follows (.start source) 0 where
  source_eq := rfl
  previous_eq := rfl
  cursor_eq := rfl
  rest_eq := rfl
  skipped_eq := rfl
  ahead_eq := .inl ⟨rfl, (Nat.zero_min _).symm⟩

theorem look_eq_self (h : r.ahead.isSome = true ∨ r.finished = true) : r.look = r := by
  rw [Reader.look, if_pos (Bool.or_eq_true_iff.mpr h)]

theorem look_of_none (hahead : r.ahead = none) (hfinished : r.finished = false) :
    r.look = { r with
      cursor := r.cursor.after
      ahead := some r.cursor.next.1.token
      finished := r.cursor.next.1.token.kind == .finish
      skipped := r.cursor.next.1.skipped.reverse ++ r.skipped } := by
  simp [Reader.look, hahead, hfinished, Cursor.after]

namespace Follows

theorem length_eq (h : r.Follows b n) :
    (tokenize b.source).length = (scan r.source).toList.length := by
  rw [tokenize, List.length_map, h.source_eq]

theorem current_eq (h : r.Follows b n) :
    b.current = (scan r.source).toList[b.place]?.map Scanned.token := by
  rw [Bookmark.current, tokenize, ← h.source_eq, List.getElem?_map]

theorem drop_eq (h : r.Follows b n) (hfinished : r.finished = false) :
    (scan r.source).toList.drop n = r.cursor.next.1 ::
      if r.cursor.next.1.token.kind == .finish then [] else r.cursor.after.scanned := by
  rw [← h.rest_eq, hfinished, if_neg Bool.false_ne_true, Cursor.scanned_eq]
  rfl

theorem look_of_none (h : r.Follows b n) (hahead : r.ahead = none) (hfinished : r.finished = false)
    (hplace : n = min b.place (tokenize b.source).length) :
    r.look.Follows b (n + 1) ∧ r.look.ahead = b.current := by
  have hdrop := h.drop_eq hfinished
  have hn : n < (scan r.source).toList.length := by
    rw [← Nat.sub_pos_iff_lt, ← List.length_drop, hdrop]
    exact Nat.succ_pos _
  -- The bookmark is not past the end, as there is a token left to scan.
  obtain rfl : n = b.place := by
    rw [h.length_eq] at hplace
    omega
  rw [List.drop_eq_getElem_cons hn] at hdrop
  obtain ⟨hscanned, hrest⟩ := List.cons.inj hdrop
  have hcurrent : b.current = some r.cursor.next.1.token := by
    rw [h.current_eq, List.getElem?_eq_getElem hn, hscanned]
    rfl
  rw [Reader.look_of_none hahead hfinished, hcurrent]
  refine ⟨?_, rfl⟩
  exact {
    source_eq := h.source_eq
    previous_eq := h.previous_eq
    cursor_eq := by
      rw [Function.iterate_succ_apply', ← h.cursor_eq]
    rest_eq := hrest.symm
    skipped_eq := by
      rw [List.reverse_append, List.reverse_reverse, h.skipped_eq,
        List.take_succ_eq_append_getElem hn, List.flatMap_append, hscanned, List.flatMap_singleton]
    ahead_eq := .inr ⟨hcurrent.symm, rfl, h.length_eq ▸ hn⟩ }

theorem look (h : r.Follows b n) : ∃ m, r.look.Follows b m ∧ r.look.ahead = b.current := by
  have hlength := h.length_eq
  rcases h.ahead_eq with ⟨hahead, hn⟩ | ⟨hahead, hn, hle⟩
  · cases hfinished : r.finished with
    | true =>
      have hdone := h.rest_eq
      rw [hfinished, if_pos rfl] at hdone
      have hall := List.drop_eq_nil_iff.mp hdone.symm
      have hcurrent : b.current = none := List.getElem?_eq_none_iff.mpr (by omega)
      rw [look_eq_self (.inr hfinished), hahead, hcurrent]
      exact ⟨n, h, rfl⟩
    | false => exact ⟨n + 1, h.look_of_none hahead hfinished hn⟩
  · have hcurrent : b.current = some (tokenize b.source)[b.place] := List.getElem?_eq_getElem _
    rw [look_eq_self (.inl (by rw [hahead, hcurrent]; rfl))]
    exact ⟨n, h, hahead⟩

theorem next (h : r.Follows b n) :
    r.next.1 = b.current ∧ ∃ m, r.next.2.Follows b.advance m := by
  obtain ⟨m, hm, hahead⟩ := h.look
  refine ⟨hahead, m, ?_⟩
  exact {
    source_eq := hm.source_eq
    previous_eq := hahead
    cursor_eq := hm.cursor_eq
    rest_eq := hm.rest_eq
    skipped_eq := hm.skipped_eq
    ahead_eq := by
      refine .inl ⟨rfl, ?_⟩
      have hplace : b.advance.place = b.place + 1 := rfl
      have hsource : b.advance.source = b.source := rfl
      rw [hplace, hsource]
      rcases hm.ahead_eq with ⟨hnone, hmin⟩ | ⟨-, hplace, hle⟩
      · have hend := List.getElem?_eq_none_iff.mp (hahead.symm.trans hnone)
        omega
      · omega }

theorem check (h : r.Follows b n) (kinds : List Terminal) :
    (r.check kinds).1 = b.stands kinds ∧ ∃ m, (r.check kinds).2.Follows b m := by
  obtain ⟨m, hm, hahead⟩ := h.look
  exact ⟨congrArg (Option.any fun t : Token => kinds.contains t.kind) hahead, m, hm⟩

/-- Whatever is asked, the answers are the same, and so are all later ones. -/
theorem answer (h : r.Follows b n) (c : Call) :
    (r.answer c).1 = (b.answer c).1 ∧ ∃ m, (r.answer c).2.Follows (b.answer c).2 m := by
  cases c with
  | next => exact ⟨congrArg Answer.token h.next.1, h.next.2⟩
  | peek =>
    obtain ⟨m, hm, hahead⟩ := h.look
    exact ⟨congrArg Answer.token hahead, m, hm⟩
  | peekKind =>
    obtain ⟨m, hm, hahead⟩ := h.look
    exact ⟨congrArg (Answer.kind ∘ Option.map Token.kind) hahead, m, hm⟩
  | previous => exact ⟨congrArg Answer.token h.previous_eq, n, h⟩
  | check kinds => exact ⟨congrArg Answer.truth (h.check kinds).1, (h.check kinds).2⟩
  | accept kind =>
    obtain ⟨hfound, m, hm⟩ := h.check [kind]
    simp only [Reader.answer, accept, Bookmark.answer, hfound]
    cases b.stands [kind] with
    | false => exact ⟨rfl, m, hm⟩
    | true => exact ⟨rfl, hm.next.2⟩
  | expect kinds =>
    obtain ⟨m, hm, hahead⟩ := h.look
    simp only [Reader.answer, expect, Bookmark.answer, hahead]
    -- Past the end nothing is consumed, and nothing is found.
    cases b.current with
    | none => exact ⟨rfl, m, hm⟩
    | some t =>
      by_cases ht : t.kind ∈ kinds
      · simp only [List.contains_iff_mem, ht, if_true]
        exact ⟨rfl, hm.next.2⟩
      · simp only [List.contains_iff_mem, ht, if_false]
        exact ⟨by rw [h.source_eq]; rfl, m, hm⟩

theorem answers (h : r.Follows b n) (calls : List Call) :
    (Call.answers Reader.answer r calls).1 = (Call.answers Bookmark.answer b calls).1 ∧
      ∃ m, (Call.answers Reader.answer r calls).2.Follows
        (Call.answers Bookmark.answer b calls).2 m := by
  induction calls generalizing r b n with
  | nil => exact ⟨rfl, n, h⟩
  | cons c calls ih =>
    obtain ⟨hanswer, m, hm⟩ := h.answer c
    obtain ⟨hanswers, hend⟩ := ih hm
    exact ⟨congrArg₂ List.cons hanswer hanswers, hend⟩

end Follows

/-- A reader at a bookmark: it has scanned no token behind the bookmark's, and has reported
each character that it skipped in front of the last token scanned, once and in order. -/
structure At (r : Reader) (b : Bookmark) : Prop where
  source_eq : r.source = b.source.toList
  previous_eq : r.previous = b.previous
  scanned : ∃ n, n ≤ b.place + 1 ∧ n ≤ (tokenize b.source).length ∧
    r.cursor = Cursor.after^[n] (.ofList b.source.toList) ∧
    r.skipped.reverse = skippedBefore b.source ((tokenize b.source).take n).getLast? ∧
    (b.place ≤ n ∨ n = (tokenize b.source).length)
  ordered : r.skipped.reverse.Pairwise (·.offset < ·.offset)

theorem Follows.at (h : r.Follows b n) : r.At b := by
  have hskipped := h.skipped_eq
  rw [h.source_eq, skipped_take] at hskipped
  exact {
    source_eq := h.source_eq
    previous_eq := h.previous_eq
    scanned := by
      refine ⟨n, ?_, ?_, h.source_eq ▸ h.cursor_eq, hskipped, ?_⟩ <;>
        rcases h.ahead_eq with ⟨-, hn⟩ | ⟨-, hn, hle⟩ <;> omega
    ordered := hskipped ▸ (ordered_skippedIn b.source).filter _ }

/-- A reader answers every row of calls as the bookmark in the list of tokens does. -/
theorem answers_eq (source : String) (calls : List Call) :
    (Call.answers Reader.answer (ofList source.toList) calls).1 =
        (Call.answers Bookmark.answer (.start source) calls).1 ∧
      (Call.answers Reader.answer (ofList source.toList) calls).2.At
        (Call.answers Bookmark.answer (.start source) calls).2 := by
  obtain ⟨hanswers, n, hend⟩ := (follows_start source).answers calls
  exact ⟨hanswers, hend.at⟩

end Reader

end JackCompiler
