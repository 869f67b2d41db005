import Mathlib.Data.List.Basic
import Mathlib.Data.List.Induction
import JackCompiler.Machine.Text
import JackCompiler.Text.Blank

/-!
# Reading programs

A program can be read back off its text, line by line and word by word. What can be read are
just the texts of programs whose names are words (`decode?_eq_some_iff`).
-/

namespace JackCompiler

/-! ## Names -/

def NoBlank (text : List Char) : Prop :=
  ∀ c ∈ text, isBlank c = false

instance (text : List Char) : Decidable (NoBlank text) :=
  decidable_of_iff (text.any isBlank = false) (by simp [NoBlank])

theorem NoBlank.append {p q : List Char} (hp : NoBlank p) (hq : NoBlank q) : NoBlank (p ++ q) :=
  List.forall_mem_append.mpr ⟨hp, hq⟩

theorem NoBlank.notMem {text : List Char} (h : NoBlank text) {c : Char} (hc : isBlank c = true) :
    c ∉ text := by
  intro hmem
  rw [h c hmem] at hc
  cases hc

/-- The text can be a word of a line: there is something, and nothing is blank. -/
def IsName (name : String) : Prop :=
  name ≠ "" ∧ NoBlank name.toList

instance (name : String) : Decidable (IsName name) :=
  inferInstanceAs (Decidable (name ≠ "" ∧ NoBlank name.toList))

namespace Instruction

def name? : Instruction → Option String
  | .label name => some name
  | .goto name => some name
  | .ifGoto name => some name
  | .call name _ => some name
  | .function name _ => some name
  | _ => none

def WellNamed (i : Instruction) : Prop :=
  ∀ name ∈ i.name?, IsName name

end Instruction

/-! ## Numbers -/

structure IsNumeral (digits : List Char) : Prop where
  ne_nil : digits ≠ []
  isDigit : ∀ d ∈ digits, d.isDigit = true
  head_zero : digits.head? = some '0' → digits = ['0']

instance (digits : List Char) : Decidable (IsNumeral digits) :=
  decidable_of_iff
    (digits ≠ [] ∧ digits.all Char.isDigit = true ∧ (digits.head? = some '0' → digits = ['0']))
    ⟨fun h => ⟨h.1, List.all_eq_true.mp h.2.1, h.2.2⟩,
      fun h => ⟨h.ne_nil, List.all_eq_true.mpr h.isDigit, h.head_zero⟩⟩

theorem digitChar_of_isDigit {d : Char} (h : d.isDigit = true) :
    d.toNat - '0'.toNat < 10 ∧ Nat.digitChar (d.toNat - '0'.toNat) = d := by
  have hall : ∀ n < 10, Nat.digitChar n = Char.ofNat (48 + n) := by decide
  obtain ⟨hlow, hhigh⟩ : 48 ≤ d.toNat ∧ d.toNat ≤ 57 := by
    simpa [Char.isDigit, UInt32.le_iff_toNat_le] using h
  have hzero : '0'.toNat = 48 := rfl
  have hlt : d.toNat - '0'.toNat < 10 := by omega
  refine ⟨hlt, ?_⟩
  rw [hall _ hlt, hzero, Nat.add_sub_cancel' hlow, Char.ofNat_toNat]

namespace IsNumeral

theorem toDigits_ofDigitChars {digits : List Char} (h : IsNumeral digits) :
    Nat.toDigits 10 (Nat.ofDigitChars 10 digits 0) = digits := by
  induction digits using List.reverseRecOn with
  | nil => exact absurd rfl h.ne_nil
  | append_singleton ds d ih =>
    obtain ⟨hd, hchar⟩ := digitChar_of_isDigit (h.isDigit d List.mem_concat_self)
    rw [Nat.ofDigitChars_append, Nat.ofDigitChars_cons, Nat.ofDigitChars_nil]
    generalize d.toNat - '0'.toNat = n at hd hchar
    cases ds with
    | nil =>
      rw [Nat.ofDigitChars_nil, Nat.mul_zero, Nat.zero_add, Nat.toDigits_of_lt_base hd, hchar]
      rfl
    | cons c cs =>
      have hc : c ≠ '0' := by
        rintro rfl
        simpa using h.head_zero rfl
      have hdigits := ih ⟨List.cons_ne_nil c cs,
        fun e he => h.isDigit e (List.mem_append_left _ he),
        fun hhead => absurd (Option.some.inj hhead) hc⟩
      generalize Nat.ofDigitChars 10 (c :: cs) 0 = m at hdigits
      have hpos : m ≠ 0 := by
        rintro rfl
        exact hc (List.cons.inj hdigits).1.symm
      have hdiv : (10 * m + n) / 10 = m := by omega
      have hmod : (10 * m + n) % 10 = n := by omega
      rw [Nat.toDigits_of_base_le (by decide) (by omega), hdiv, hmod, hdigits, hchar]

theorem toDigits (n : Nat) : IsNumeral (Nat.toDigits 10 n) := by
  refine ⟨Nat.toDigits_ne_nil,
    fun d hd => Nat.isDigit_of_mem_toDigits (by decide) (by decide) hd, ?_⟩
  induction n using Nat.strongRecOn with
  | ind n ih =>
    by_cases hn : n < 10
    · rw [Nat.toDigits_of_lt_base hn]
      exact fun hhead => congrArg ([·]) (Option.some.inj hhead)
    · rw [Nat.toDigits_of_base_le (by decide) (by omega),
        List.head?_append_of_ne_nil _ Nat.toDigits_ne_nil]
      intro hhead
      -- The tenth part of the number is not zero.
      have hvalue := congrArg (Nat.ofDigitChars 10 · 0) (ih (n / 10) (by omega) hhead)
      have hten : n / 10 = 0 := Nat.ofDigitChars_ten_toDigits.symm.trans hvalue
      omega

end IsNumeral

def number? (word : String) : Option UInt16 :=
  let value := Nat.ofDigitChars 10 word.toList 0
  if IsNumeral word.toList ∧ value ≤ 65535 then some (UInt16.ofNat value) else none

theorem number?_eq_some_iff {word : String} {n : UInt16} :
    number? word = some n ↔ toString n.toNat = word := by
  simp only [number?, Option.ite_none_right_eq_some, Option.some.injEq,
    Nat.toString_eq_ofList_toDigits]
  constructor
  · rintro ⟨⟨hnumeral, hvalue⟩, rfl⟩
    rw [UInt16.toNat_ofNat_of_lt' (Nat.lt_succ_of_le hvalue), hnumeral.toDigits_ofDigitChars,
      String.ofList_toList]
  · rintro rfl
    have hn := n.toNat_lt
    rw [String.toList_ofList, Nat.ofDigitChars_ten_toDigits]
    exact ⟨⟨.toDigits _, by omega⟩, UInt16.ofNat_toNat⟩

/-! ## Words -/

def Segment.ofText? (word : String) : Option Segment :=
  all.find? fun segment => segment.text == word

def Operation.ofText? (word : String) : Option Operation :=
  all.find? fun operation => operation.text == word

theorem Segment.ofText?_eq_some_iff {word : String} {segment : Segment} :
    ofText? word = some segment ↔ segment.text = word := by
  refine ⟨fun h => ?_, ?_⟩
  · have htext := List.find?_some h
    exact beq_iff_eq.mp htext
  · rintro rfl
    cases segment <;> rfl

theorem Operation.ofText?_eq_some_iff {word : String} {operation : Operation} :
    ofText? word = some operation ↔ operation.text = word := by
  refine ⟨fun h => ?_, ?_⟩
  · have htext := List.find?_some h
    exact beq_iff_eq.mp htext
  · rintro rfl
    cases operation <;> rfl

namespace Instruction

def ofWords? : List String → Option Instruction
  | ["push", segment, index] => do
    return .push (← Segment.ofText? segment) (← number? index)
  | ["pop", segment, index] => do
    return .pop (← Segment.ofText? segment) (← number? index)
  | ["label", name] => if IsName name then some (.label name) else none
  | ["goto", name] => if IsName name then some (.goto name) else none
  | ["if-goto", name] => if IsName name then some (.ifGoto name) else none
  | ["call", name, arguments] =>
    if IsName name then (number? arguments).map (.call name) else none
  | ["function", name, locals] =>
    if IsName name then (number? locals).map (.function name) else none
  | ["return"] => some .return
  | [operation] => (Operation.ofText? operation).map .operate
  | _ => none

theorem ofWords?_words {i : Instruction} (h : i.WellNamed) : ofWords? i.words = some i := by
  have hsegment : ∀ segment : Segment, Segment.ofText? segment.text = some segment :=
    fun _ => Segment.ofText?_eq_some_iff.mpr rfl
  have hnumber : ∀ n : UInt16, number? (toString n.toNat) = some n :=
    fun _ => number?_eq_some_iff.mpr rfl
  cases i with
  | push segment index | pop segment index =>
    simp only [words, ofWords?, hsegment, hnumber]
    rfl
  | operate operation => cases operation <;> rfl
  | label name | goto name | ifGoto name =>
    rw [words, ofWords?, if_pos (h name rfl)]
  | call name n | function name n =>
    rw [words, ofWords?, if_pos (h name rfl), hnumber]
    rfl
  | «return» => rfl

theorem wellNamed_of_name? {i : Instruction} {name : String} (hi : i.name? = some name)
    (h : IsName name) : i.WellNamed := by
  intro other hother
  rw [hi] at hother
  exact Option.some.inj hother ▸ h

theorem wellNamed_of_no_name {i : Instruction} (hi : i.name? = none) : i.WellNamed := by
  intro name hname
  rw [hi] at hname
  cases hname

theorem of_ofWords? {ws : List String} {i : Instruction} (h : ofWords? ws = some i) :
    i.words = ws ∧ i.WellNamed := by
  unfold ofWords? at h
  split at h
  case h_1 segment index | h_2 segment index =>
    simp only [Option.bind_eq_bind, Option.bind_eq_some_iff] at h
    obtain ⟨s, hs, n, hn, hi⟩ := h
    obtain rfl := Option.some.inj hi
    rw [words, Segment.ofText?_eq_some_iff.mp hs, number?_eq_some_iff.mp hn]
    exact ⟨rfl, wellNamed_of_no_name rfl⟩
  case h_3 name | h_4 name | h_5 name =>
    obtain ⟨hname, hi⟩ := Option.ite_none_right_eq_some.mp h
    obtain rfl := Option.some.inj hi
    exact ⟨rfl, wellNamed_of_name? rfl hname⟩
  case h_6 name count | h_7 name count =>
    obtain ⟨hname, hcount⟩ := Option.ite_none_right_eq_some.mp h
    obtain ⟨n, hn, rfl⟩ := Option.map_eq_some_iff.mp hcount
    rw [words, number?_eq_some_iff.mp hn]
    exact ⟨rfl, wellNamed_of_name? rfl hname⟩
  case h_8 =>
    obtain rfl := Option.some.inj h
    exact ⟨rfl, wellNamed_of_no_name rfl⟩
  case h_9 =>
    obtain ⟨op, hop, rfl⟩ := Option.map_eq_some_iff.mp h
    rw [words, Operation.ofText?_eq_some_iff.mp hop]
    exact ⟨rfl, wellNamed_of_no_name rfl⟩
  case h_10 => cases h

end Instruction

/-! ## Lines -/

theorem notMem_intercalate {c separator : Char} (hc : c ≠ separator) {ls : List (List Char)}
    (h : ∀ l ∈ ls, c ∉ l) : c ∉ [separator].intercalate ls := by
  induction ls with
  | nil => exact List.not_mem_nil
  | cons l ls ih =>
    rw [List.forall_mem_cons] at h
    cases ls with
    | nil =>
      rw [List.intercalate_singleton]
      exact h.1
    | cons l' ls =>
      rw [List.intercalate_cons_cons]
      simp [h.1, hc, ih h.2]

theorem intercalate_concat_nil (separator : Char) (ls : List (List Char)) :
    [separator].intercalate (ls ++ [[]]) = ls.flatMap fun l => l ++ [separator] := by
  induction ls with
  | nil => rfl
  | cons l ls ih =>
    rw [List.cons_append, List.intercalate_cons_of_ne_nil (by simp), ih, List.flatMap_cons]

theorem isBlank_of_isDigit {c : Char} (h : c.isDigit = true) : isBlank c = false := by
  obtain ⟨hlt, hc⟩ := digitChar_of_isDigit h
  have hall : ∀ n < 10, isBlank (Nat.digitChar n) = false := by decide
  exact hc ▸ hall _ hlt

theorem noBlank_toString (n : Nat) : NoBlank (toString n).toList := by
  rw [Nat.toString_eq_ofList_toDigits, String.toList_ofList]
  exact fun c hc => isBlank_of_isDigit ((IsNumeral.toDigits n).isDigit c hc)

namespace Instruction

theorem noBlank_words {i : Instruction} (h : i.WellNamed) :
    ∀ word ∈ i.words, NoBlank word.toList := by
  have hsegment : ∀ segment : Segment, NoBlank segment.text.toList := by
    intro segment
    cases segment <;> decide
  have hoperation : ∀ operation : Operation, NoBlank operation.text.toList := by
    intro operation
    cases operation <;> decide
  cases i with
  | push segment index | pop segment index =>
    simp only [words, List.forall_mem_cons]
    exact ⟨by decide, hsegment segment, noBlank_toString index.toNat, List.forall_mem_nil _⟩
  | operate operation => exact List.forall_mem_singleton.mpr (hoperation operation)
  | label name | goto name | ifGoto name =>
    simp only [words, List.forall_mem_cons]
    exact ⟨by decide, (h name rfl).2, List.forall_mem_nil _⟩
  | call name n | function name n =>
    simp only [words, List.forall_mem_cons]
    exact ⟨by decide, (h name rfl).2, noBlank_toString n.toNat, List.forall_mem_nil _⟩
  | «return» => exact List.forall_mem_singleton.mpr (by decide)

theorem words_ne_nil (i : Instruction) : i.words ≠ [] := by
  cases i <;> exact List.cons_ne_nil _ _

theorem toList_text (i : Instruction) :
    i.text.toList = [' '].intercalate (i.words.map String.toList) := by
  rw [text, String.toList_intercalate]
  rfl

theorem newline_notMem_text {i : Instruction} (h : i.WellNamed) : '\n' ∉ i.text.toList := by
  rw [toList_text]
  refine notMem_intercalate (by decide) fun chars hchars => ?_
  obtain ⟨word, hword, rfl⟩ := List.mem_map.mp hchars
  exact (noBlank_words h word hword).notMem (by decide)

def ofLine? (line : List Char) : Option Instruction :=
  ofWords? ((line.splitOn ' ').map String.ofList)

theorem ofLine?_eq_some_iff {line : List Char} {i : Instruction} :
    ofLine? line = some i ↔ i.text.toList = line ∧ i.WellNamed := by
  have hchars : ∀ words : List (List Char),
      (words.map String.ofList).map String.toList = words := by
    intro words
    simp
  constructor
  · intro h
    obtain ⟨hwords, hnamed⟩ := of_ofWords? h
    refine ⟨?_, hnamed⟩
    rw [toList_text, hwords, hchars, List.intercalate_splitOn]
  · rintro ⟨rfl, h⟩
    have hspace : ∀ word ∈ i.words.map String.toList, ' ' ∉ word := by
      intro chars hchars
      obtain ⟨word, hword, rfl⟩ := List.mem_map.mp hchars
      exact (noBlank_words h word hword).notMem (by decide)
    have hne : i.words.map String.toList ≠ [] :=
      fun he => i.words_ne_nil (List.map_eq_nil_iff.mp he)
    rw [ofLine?, toList_text, List.splitOn_intercalate ' ' hspace hne, List.map_map]
    simp [Function.comp_def, ofWords?_words h]

end Instruction

/-! ## Programs -/

/-- The instructions of the lines, each of which ends with a line feed. -/
def decode? (text : String) : Option (List Instruction) :=
  let lines := text.toList.splitOn '\n'
  if lines.getLast? = some [] then lines.dropLast.mapM Instruction.ofLine? else none

theorem mapM_ofLine?_eq_some_iff {lines : List (List Char)} {p : List Instruction} :
    lines.mapM Instruction.ofLine? = some p ↔
      p.map (fun i => i.text.toList) = lines ∧ ∀ i ∈ p, i.WellNamed := by
  induction lines generalizing p with
  | nil =>
    cases p <;> simp
  | cons line lines ih =>
    rw [List.mapM_cons]
    simp only [Option.bind_eq_bind, Option.bind_eq_some_iff, Instruction.ofLine?_eq_some_iff, ih]
    constructor
    · rintro ⟨i, ⟨rfl, hi⟩, q, ⟨rfl, hq⟩, hp⟩
      obtain rfl := Option.some.inj hp
      exact ⟨rfl, List.forall_mem_cons.mpr ⟨hi, hq⟩⟩
    · rintro ⟨hlines, h⟩
      obtain ⟨i, q, rfl, hi, hq⟩ := List.map_eq_cons_iff.mp hlines
      rw [List.forall_mem_cons] at h
      exact ⟨i, ⟨hi, h.1⟩, q, ⟨hq, h.2⟩, rfl⟩

theorem toList_programText (p : List Instruction) :
    (programText p).toList = (p.map fun i => i.text.toList).flatMap (· ++ ['\n']) := by
  rw [programText, toList_joinLines, List.flatMap_map, List.flatMap_map]

/-- What can be read is the text of what is read, and of nothing else whose names are words. -/
theorem decode?_eq_some_iff {text : String} {p : List Instruction} :
    decode? text = some p ↔ programText p = text ∧ ∀ i ∈ p, i.WellNamed := by
  rw [decode?, Option.ite_none_right_eq_some, mapM_ofLine?_eq_some_iff]
  constructor
  · rintro ⟨hlast, hlines, h⟩
    refine ⟨String.toList_injective ?_, h⟩
    obtain ⟨front, hfront⟩ := List.getLast?_eq_some_iff.mp hlast
    rw [hfront, List.dropLast_concat] at hlines
    rw [toList_programText, hlines, ← intercalate_concat_nil, ← hfront, List.intercalate_splitOn]
  · rintro ⟨rfl, h⟩
    have hsplit := splitOn_newline_lines (p.map fun i => i.text.toList) fun line hline => by
      obtain ⟨i, hi, rfl⟩ := List.mem_map.mp hline
      exact Instruction.newline_notMem_text (h i hi)
    rw [toList_programText, hsplit, List.dropLast_concat]
    exact ⟨by simp, rfl, h⟩

example : decode? "push constant 7\nreturn\n" = some [.push .constant 7, .return] ∧
    decode? "push constant 07\n" = none ∧ decode? "label  L\n" = none := by
  decide

end JackCompiler
