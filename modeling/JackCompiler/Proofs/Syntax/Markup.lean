import JackCompiler.Codegen.Step
import JackCompiler.Proofs.Token.Layout

/-!
# Marked-up trees

A grammar trace is the text of a tree, whose nodes are grammar rules and whose leaves are
tokens but for their places. A tree can be read back off its text, if its leaves have texts
that tokens of their kinds can have (`Markup.ofText?_text`).
-/

namespace JackCompiler

inductive Markup
  | leaf (kind : Terminal) (lexeme : String)
  | node (rule : Rule) (children : List Markup)

/-! ## Lines -/

def Terminal.placeless (kind : Terminal) (lexeme : String) : Token :=
  ⟨kind, ⟨0, 0⟩, lexeme⟩

namespace Markup

mutual

def lines : Markup → List TraceLine
  | leaf kind lexeme => [.leaf (kind.placeless lexeme)]
  | node rule children => .enter rule :: (linesOf children ++ [.leave rule])

def linesOf : List Markup → List TraceLine
  | [] => []
  | m :: ms => m.lines ++ linesOf ms

end

mutual

def leaves : Markup → List (Terminal × String)
  | leaf kind lexeme => [(kind, lexeme)]
  | node _ children => leavesOf children

def leavesOf : List Markup → List (Terminal × String)
  | [] => []
  | m :: ms => m.leaves ++ leavesOf ms

end

def text (m : Markup) : String :=
  joinLines (m.lines.map TraceLine.text)

/-! ## Trees of lines -/

/-- Builds the trees that the lines go on with. The rules that are open stand in `stack`,
each with the trees before it, last one first like those in `done`. -/
def build : List (Rule × List Markup) → List Markup → List TraceLine → Option (List Markup)
  | [], done, [] => some done.reverse
  | _ :: _, _, [] => none
  | stack, done, .enter rule :: lines => build ((rule, done) :: stack) [] lines
  | [], _, .leave _ :: _ => none
  | (rule, before) :: stack, done, .leave rule' :: lines =>
    if rule' = rule then build stack (.node rule done.reverse :: before) lines else none
  | stack, done, .leaf t :: lines => build stack (.leaf t.kind t.lexeme :: done) lines

mutual

theorem build_lines (stack : List (Rule × List Markup)) (done : List Markup)
    (rest : List TraceLine) :
    ∀ m : Markup, build stack done (m.lines ++ rest) = build stack (m :: done) rest
  | leaf kind lexeme => by
    rw [lines, List.singleton_append, build]
    rfl
  | node rule children => by
    rw [lines, List.cons_append, build, List.append_assoc, build_linesOf _ _ _ children,
      List.singleton_append, build, if_pos rfl, List.append_nil, List.reverse_reverse]

theorem build_linesOf (stack : List (Rule × List Markup)) (done : List Markup)
    (rest : List TraceLine) :
    ∀ ms : List Markup, build stack done (linesOf ms ++ rest) =
      build stack (ms.reverse ++ done) rest
  | [] => rfl
  | m :: ms => by
    rw [linesOf, List.append_assoc, build_lines stack done _ m, build_linesOf stack _ rest ms,
      List.reverse_cons, List.append_assoc, List.singleton_append]

end

end Markup

/-! ## Lines of texts -/

/-- Undoes `markupChar` on a whole text, which has none of the other references. -/
def unescape : List Char → Option (List Char)
  | [] => some []
  | '&' :: 'l' :: 't' :: ';' :: cs => (unescape cs).map ('<' :: ·)
  | '&' :: 'g' :: 't' :: ';' :: cs => (unescape cs).map ('>' :: ·)
  | '&' :: 'q' :: 'u' :: 'o' :: 't' :: ';' :: cs => (unescape cs).map ('"' :: ·)
  | '&' :: 'a' :: 'm' :: 'p' :: ';' :: cs => (unescape cs).map ('&' :: ·)
  | c :: cs => if c = '&' then none else (unescape cs).map (c :: ·)

theorem unescape_append (c : Char) (cs : List Char) :
    unescape (markupChar c ++ cs) = (unescape cs).map (c :: ·) := by
  unfold markupChar
  split_ifs with hlt hgt hquote hamp
  · rw [hlt]; rfl
  · rw [hgt]; rfl
  · rw [hquote]; rfl
  · rw [hamp]; rfl
  · rw [List.singleton_append, unescape, if_neg hamp]
    all_goals
      intros
      exact hamp ‹_›

theorem unescape_markup (cs : List Char) : unescape (cs.flatMap markupChar) = some cs := by
  induction cs with
  | nil => rfl
  | cons c cs ih => rw [List.flatMap_cons, unescape_append, ih]; rfl

theorem mem_markupChar {c : Char} : ∀ d ∈ markupChar c, d ≠ '<' ∧ (d = c ∨ d ≠ '\n') := by
  by_cases hspecial : c = '<' ∨ c = '>' ∨ c = '"' ∨ c = '&'
  · rcases hspecial with rfl | rfl | rfl | rfl <;> simp [markupChar]
  · simp only [not_or] at hspecial
    obtain ⟨hlt, hgt, hquote, hamp⟩ := hspecial
    intro d hd
    obtain rfl : d = c := by simpa [markupChar, hlt, hgt, hquote, hamp] using hd
    exact ⟨hlt, .inl rfl⟩

/-- The kind of the tokens with the tag, which is that of the text if the tag is that of
several kinds. -/
def Terminal.ofTag? (tag : String) (lexeme : List Char) : Option Terminal :=
  match tag with
  | "symbol" =>
    match lexeme with
    | [c] => (Mark.ofChar? c).map .mark
    | _ => none
  | "identifier" => some .ident
  | "keyword" => (Keyword.ofSpelling? (String.ofList lexeme)).map .keyword
  | "integerConstant" => some .number
  | "stringConstant" => some .text
  | "eof" => some .finish
  | _ => none

theorem Terminal.ofTag?_tag {kind : Terminal} {lexeme : List Char} (h : kind.Spells lexeme) :
    ofTag? kind.tag lexeme = some kind := by
  cases kind with
  | mark m =>
    obtain rfl : lexeme = [m.char] := h
    have hmark : Mark.ofChar? m.char = some m := Mark.ofChar?_eq_some_iff.mpr rfl
    simp [ofTag?, tag, hmark]
  | keyword k =>
    obtain rfl : lexeme = k.spelling.toList := h
    have hkeyword : Keyword.ofSpelling? k.spelling = some k :=
      Keyword.ofSpelling?_eq_some_iff.mpr rfl
    simp [ofTag?, tag, hkeyword]
  | ident | number | text | finish => rfl

namespace Rule

def all : List Rule :=
  [.classDec, .classVarDec, .subroutineDec, .parameterList, .subroutineBody, .varDec,
    .statements, .letStatement, .ifStatement, .whileStatement, .doStatement, .returnStatement,
    .expression, .term, .expressionList]

def ofName? (name : String) : Option Rule :=
  all.find? (·.name == name)

end Rule

/-- The token that an element stands for, `tag` being its name and `behind` what stands
behind the space after its opening tag. -/
def Token.ofElement? (tag behind : List Char) : Option Token :=
  let content := behind.takeWhile (· != '<')
  if behind.dropWhile (· != '<') = '<' :: '/' :: tag ++ ['>'] ∧ content.getLast? = some ' ' then do
    let lexeme ← unescape content.dropLast
    let kind ← Terminal.ofTag? (String.ofList tag) lexeme
    return kind.placeless (String.ofList lexeme)
  else none

def TraceLine.ofChars? : List Char → Option TraceLine
  | '<' :: '/' :: cs =>
    if cs.dropWhile (· != '>') = ['>'] then
      (Rule.ofName? (String.ofList (cs.takeWhile (· != '>')))).map .leave
    else none
  | '<' :: cs =>
    match cs.dropWhile (· != '>') with
    | ['>'] => (Rule.ofName? (String.ofList (cs.takeWhile (· != '>')))).map .enter
    | '>' :: ' ' :: behind => (Token.ofElement? (cs.takeWhile (· != '>')) behind).map .leaf
    | _ => none
  | _ => none

def TraceLine.ofText? (text : String) : Option (List TraceLine) :=
  let lines := text.toList.splitOn '\n'
  if lines.getLast? = some [] then lines.dropLast.mapM ofChars? else none

def Markup.ofText? (text : String) : Option Markup := do
  let lines ← TraceLine.ofText? text
  match ← build [] [] lines with
  | [m] => some m
  | _ => none

/-! ## Texts are read back -/

theorem Rule.ofName?_name (r : Rule) : ofName? r.name = some r := by
  cases r <;> decide

theorem Terminal.tag_chars (kind : Terminal) : ∀ c ∈ kind.tag.toList, (c != '>') = true := by
  rw [← List.all_eq_true]
  cases kind <;> simp only [tag] <;> decide

theorem Rule.name_chars (r : Rule) : ∀ c ∈ r.name.toList, c.isAlpha = true := by
  rw [← List.all_eq_true]
  cases r <;> decide

theorem Rule.takeWhile_name (r : Rule) :
    (r.name.toList ++ ['>']).takeWhile (· != '>') = r.name.toList ∧
      (r.name.toList ++ ['>']).dropWhile (· != '>') = ['>'] := by
  have hname : ∀ c ∈ r.name.toList, (c != '>') = true := by
    intro c hc
    rw [bne_iff_ne]
    rintro rfl
    exact absurd (r.name_chars _ hc) (by decide)
  have hend : ∀ c ∈ ['>'].head?, ¬ (c != '>') = true := by simp
  exact ⟨takeWhile_append_of_ends hname hend, dropWhile_append_of_ends hname hend⟩

theorem TraceLine.ofChars?_enter (r : Rule) :
    ofChars? (TraceLine.enter r).text.toList = some (.enter r) := by
  have htext : (TraceLine.enter r).text.toList = '<' :: (r.name.toList ++ ['>']) := by
    simp [text]
  have hstart : ∀ cs, r.name.toList ++ ['>'] ≠ '/' :: cs := by
    intro cs he
    have hmem : '/' ∈ r.name.toList ++ ['>'] := he ▸ List.mem_cons_self
    rcases List.mem_append.mp hmem with hslash | hslash
    · exact absurd (r.name_chars _ hslash) (by decide)
    · exact absurd hslash (by decide)
  rw [htext, ofChars?, r.takeWhile_name.1, r.takeWhile_name.2, String.ofList_toList]
  · rw [r.ofName?_name]
    rfl
  · exact hstart

theorem TraceLine.ofChars?_leave (r : Rule) :
    ofChars? (TraceLine.leave r).text.toList = some (.leave r) := by
  have htext : (TraceLine.leave r).text.toList = '<' :: '/' :: (r.name.toList ++ ['>']) := by
    simp [text]
  rw [htext, ofChars?, if_pos r.takeWhile_name.2, r.takeWhile_name.1, String.ofList_toList,
    r.ofName?_name]
  rfl

theorem Token.ofElement?_markup {kind : Terminal} {lexeme : List Char} (h : kind.Spells lexeme) :
    ofElement? kind.tag.toList (lexeme.flatMap markupChar ++
      (' ' :: '<' :: '/' :: (kind.tag.toList ++ ['>']))) =
      some (kind.placeless (String.ofList lexeme)) := by
  have hcontent : ∀ c ∈ lexeme.flatMap markupChar ++ [' '], (c != '<') = true := by
    intro c hc
    rcases List.mem_append.mp hc with hc | hc
    · obtain ⟨d, -, hd⟩ := List.mem_flatMap.mp hc
      simpa using (mem_markupChar c hd).1
    · obtain rfl := List.mem_singleton.mp hc
      rfl
  have hsplit : lexeme.flatMap markupChar ++ (' ' :: '<' :: '/' :: (kind.tag.toList ++ ['>'])) =
      (lexeme.flatMap markupChar ++ [' ']) ++ '<' :: '/' :: (kind.tag.toList ++ ['>']) := by
    rw [List.append_assoc, List.singleton_append]
  have hclosing : ∀ c ∈ ('<' :: '/' :: (kind.tag.toList ++ ['>'])).head?, ¬ (c != '<') = true := by
    simp
  rw [ofElement?, hsplit, takeWhile_append_of_ends hcontent hclosing,
    dropWhile_append_of_ends hcontent hclosing]
  simp [unescape_markup, Terminal.ofTag?_tag h]

theorem TraceLine.ofChars?_element {tag : List Char} (htag : ∀ c ∈ tag, (c != '>') = true)
    (hslash : tag.head? ≠ some '/') (behind : List Char) :
    ofChars? ('<' :: (tag ++ '>' :: ' ' :: behind)) = (Token.ofElement? tag behind).map .leaf := by
  have hbehind : ∀ c ∈ ('>' :: ' ' :: behind).head?, ¬ (c != '>') = true := by simp
  have hstart : ∀ cs, tag ++ '>' :: ' ' :: behind ≠ '/' :: cs := by
    intro cs he
    cases tag with
    | nil => cases he
    | cons c tag => exact hslash (by rw [(List.cons.inj he).1]; rfl)
  rw [ofChars?, takeWhile_append_of_ends htag hbehind, dropWhile_append_of_ends htag hbehind]
  · rfl
  · exact hstart

theorem TraceLine.ofChars?_leaf {kind : Terminal} {lexeme : String}
    (h : kind.Spells lexeme.toList) :
    ofChars? (TraceLine.leaf (kind.placeless lexeme)).text.toList =
      some (.leaf (kind.placeless lexeme)) := by
  have htext : (TraceLine.leaf (kind.placeless lexeme)).text.toList =
      '<' :: (kind.tag.toList ++ '>' :: ' ' :: (lexeme.toList.flatMap markupChar ++
        (' ' :: '<' :: '/' :: (kind.tag.toList ++ ['>'])))) := by
    simp [text, Token.markup, Terminal.placeless, markupText]
  have hslash : kind.tag.toList.head? ≠ some '/' := by
    cases kind <;> simp only [Terminal.tag] <;> decide
  rw [htext, ofChars?_element kind.tag_chars hslash, Token.ofElement?_markup h,
    String.ofList_toList]
  rfl

theorem Terminal.Spells.newline_notMem {kind : Terminal} {lexeme : List Char}
    (h : kind.Spells lexeme) : '\n' ∉ lexeme := by
  cases kind with
  | mark m =>
    obtain rfl : lexeme = [m.char] := h
    cases m <;> decide
  | ident =>
    obtain ⟨c, cs, rfl, hc, hcs⟩ := h.1
    intro hmem
    rcases List.mem_cons.mp hmem with rfl | hmem
    · exact absurd hc (by decide)
    · exact absurd (hcs _ hmem) (by decide)
  | keyword k =>
    obtain rfl : lexeme = k.spelling.toList := h
    cases k <;> decide
  | number =>
    intro hmem
    exact absurd (h.2 _ hmem) (by decide)
  | text =>
    intro hmem
    exact absurd (h _ hmem) (by decide)
  | finish =>
    obtain rfl : lexeme = [] := h
    exact List.not_mem_nil

structure TraceLine.Readable (l : TraceLine) : Prop where
  newline_notMem : '\n' ∉ l.text.toList
  ofChars?_text : ofChars? l.text.toList = some l

theorem Rule.newline_notMem (r : Rule) : '\n' ∉ r.name.toList := fun hmem =>
  absurd (r.name_chars _ hmem) (by decide)

theorem TraceLine.readable_enter (r : Rule) : (TraceLine.enter r).Readable :=
  ⟨by simp [text, r.newline_notMem], ofChars?_enter r⟩

theorem TraceLine.readable_leave (r : Rule) : (TraceLine.leave r).Readable :=
  ⟨by simp [text, r.newline_notMem], ofChars?_leave r⟩

theorem TraceLine.readable_leaf {kind : Terminal} {lexeme : String}
    (h : kind.Spells lexeme.toList) : (TraceLine.leaf (kind.placeless lexeme)).Readable := by
  refine ⟨?_, ofChars?_leaf h⟩
  have htag : '\n' ∉ kind.tag.toList := by
    cases kind <;> simp only [Terminal.tag] <;> decide
  have hcontent : '\n' ∉ lexeme.toList.flatMap markupChar := by
    intro hmem
    obtain ⟨c, hc, hd⟩ := List.mem_flatMap.mp hmem
    rcases (mem_markupChar _ hd).2 with rfl | hne
    · exact h.newline_notMem hc
    · exact hne rfl
  simp [text, Token.markup, Terminal.placeless, markupText, htag, hcontent]

theorem TraceLine.mapM_ofChars? {ls : List TraceLine} (h : ∀ l ∈ ls, l.Readable) :
    (ls.map fun l => l.text.toList).mapM ofChars? = some ls := by
  induction ls with
  | nil => rfl
  | cons l ls ih =>
    rw [List.forall_mem_cons] at h
    rw [List.map_cons, List.mapM_cons, h.1.ofChars?_text, ih h.2]
    rfl

theorem TraceLine.ofText?_joinLines {ls : List TraceLine} (h : ∀ l ∈ ls, l.Readable) :
    ofText? (joinLines (ls.map text)) = some ls := by
  have hsplit := splitOn_newline_lines (ls.map fun l => l.text.toList) fun line hline => by
    obtain ⟨l, hl, rfl⟩ := List.mem_map.mp hline
    exact (h l hl).newline_notMem
  rw [List.flatMap_map] at hsplit
  rw [ofText?, toList_joinLines, List.flatMap_map, hsplit]
  simp [mapM_ofChars? h]

/-! ## Texts of trees -/

def Markup.Spelled (m : Markup) : Prop :=
  ∀ content ∈ m.leaves, content.1.Spells content.2.toList

namespace Markup

mutual

theorem readable_lines : ∀ m : Markup, m.Spelled → ∀ l ∈ m.lines, l.Readable
  | leaf kind lexeme, h, l, hl => by
    obtain rfl := List.mem_singleton.mp hl
    exact TraceLine.readable_leaf (h _ (List.mem_singleton_self _))
  | node rule children, h, l, hl => by
    rw [lines, List.mem_cons, List.mem_append, List.mem_singleton] at hl
    rcases hl with rfl | hl | rfl
    · exact TraceLine.readable_enter rule
    · exact readable_linesOf children h l hl
    · exact TraceLine.readable_leave rule

theorem readable_linesOf : ∀ ms : List Markup,
    (∀ content ∈ leavesOf ms, content.1.Spells content.2.toList) → ∀ l ∈ linesOf ms, l.Readable
  | [], _, _, hl => by cases hl
  | m :: ms, h, l, hl => by
    rcases List.mem_append.mp hl with hl | hl
    · exact readable_lines m (fun content hc => h content (List.mem_append_left _ hc)) l hl
    · exact readable_linesOf ms (fun content hc => h content (List.mem_append_right _ hc)) l hl

end

theorem ofText?_text {m : Markup} (h : m.Spelled) : ofText? m.text = some m := by
  have hlines : TraceLine.ofText? m.text = some m.lines :=
    TraceLine.ofText?_joinLines (m.readable_lines h)
  have hbuild := build_lines [] [] [] m
  rw [List.append_nil] at hbuild
  simp [ofText?, hlines, hbuild, build]

end Markup

end JackCompiler
