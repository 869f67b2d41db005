import JackCompiler.Proofs.Codegen.Computation
import JackCompiler.Proofs.Codegen.Diagnostics
import JackCompiler.Proofs.Syntax.Adjacency

/-!
# String constants

The code of a string constant makes an empty string with room for the constant's characters and
appends them one by one. The constant can be read back from that code, and where the library does
its part the code leaves a string with those characters on the stack. A constant that cannot be
pushed as a whole has no code at all (`text_built_or_refused`).
-/

namespace JackCompiler

open Machine

/-! ## Constants that can be pushed -/

structure Pushable (text : List Char) : Prop where
  length_le : text.length ≤ 32767
  code_le : ∀ c ∈ text, c.toNat ≤ 32767

theorem toNat_ofNat_of_le {n : Nat} (h : n ≤ 32767) : (UInt16.ofNat n).toNat = n :=
  UInt16.toNat_ofNat_of_lt' (Nat.lt_of_le_of_lt h (by decide))

inductive TextRefusal (text : List Char) (start : Nat) : Fault Nat → Prop
  | long (hlength : 32767 < text.length) :
    TextRefusal text start (.stringTooLong text.length start)
  | wide (front : List Char) (c : Char) (back : List Char) (hlength : text.length ≤ 32767)
      (htext : text = front ++ c :: back) (hfront : ∀ d ∈ front, d.toNat ≤ 32767)
      (hc : 32767 < c.toNat) :
    TextRefusal text start (.charOutOfRange c (start + byteSize front))

section

variable {literal : Token}

theorem textCode?_of_pushable (h : Pushable literal.lexeme.toList) :
    textCode? literal = .ok (textCode literal.lexeme.toList) := by
  have hlength : literal.lexeme.toList.length ≤ maxConstant := h.length_le
  simp only [textCode?]
  rw [if_pos hlength, firstWide?_eq_none_iff.mpr h.code_le]

theorem textCode?_of_not_pushable (h : ¬ Pushable literal.lexeme.toList) :
    ∃ fault, textCode? literal = .error fault ∧
      TextRefusal literal.lexeme.toList literal.span.index fault := by
  simp only [textCode?]
  by_cases hlength : literal.lexeme.toList.length ≤ maxConstant
  · rw [if_pos hlength]
    cases hwide : firstWide? literal.span.index literal.lexeme.toList with
    | none => exact absurd ⟨hlength, firstWide?_eq_none_iff.mp hwide⟩ h
    | some found =>
      obtain ⟨front, back, htext, hindex, hfront, hc⟩ := firstWide?_eq_some hwide
      refine ⟨_, rfl, ?_⟩
      rw [hindex]
      exact .wide front found.1 back hlength htext hfront hc
  · rw [if_neg hlength]
    exact ⟨_, rfl, .long (Nat.lt_of_not_le hlength)⟩

end

/-! ## Reading a constant back -/

/-- The character that the code appends to a string, if that is what it does, and the code
behind. -/
def readAppended? : List Instruction → Option (Char × List Instruction)
  | .push .constant code :: .call name count :: rest =>
    if name = "String.appendChar" ∧ count = 2 then some (.ofNat code.toNat, rest) else none
  | _ => none

def readChars? : Nat → List Instruction → Option (List Char)
  | 0, _ => some []
  | n + 1, code => do
    let (c, code) ← readAppended? code
    let cs ← readChars? n code
    return c :: cs

def readText? : List Instruction → Option (List Char)
  | .push .constant length :: .call name count :: code =>
    if name = "String.new" ∧ count = 1 then readChars? length.toNat code else none
  | _ => none

theorem readChars?_appendCode {text : List Char} (h : ∀ c ∈ text, c.toNat ≤ 32767)
    (behind : List Instruction) :
    readChars? text.length (text.flatMap appendCode ++ behind) = some text := by
  induction text with
  | nil => rfl
  | cons c text ih =>
    obtain ⟨hc, htext⟩ := List.forall_mem_cons.mp h
    have hchar : Char.ofNat (UInt16.ofNat c.toNat).toNat = c := by
      rw [toNat_ofNat_of_le hc, Char.ofNat_toNat]
    have hread : readAppended? (appendCode c ++ (text.flatMap appendCode ++ behind)) =
        some (c, text.flatMap appendCode ++ behind) := by
      simp only [appendCode, pushConstant, List.cons_append, List.nil_append, readAppended?,
        and_self, if_true, hchar]
    rw [List.length_cons, List.flatMap_cons, List.append_assoc, readChars?, hread]
    simp [ih htext]

theorem readText?_textCode {text : List Char} (h : Pushable text) (behind : List Instruction) :
    readText? (textCode text ++ behind) = some text := by
  simp only [textCode, pushConstant, List.cons_append, readText?, toNat_ofNat_of_le h.length_le]
  simpa using readChars?_appendCode h.code_le behind

/-! ## Running the code -/

/-- A string of the library: how many characters it has room for, and those that it holds. -/
structure HeldString where
  room : Nat
  codes : List UInt16
deriving DecidableEq, Repr

def HeldString.append (held : HeldString) (code : UInt16) : HeldString :=
  { held with codes := held.codes ++ [code] }

/-- The calls make and extend strings, `strings` telling those that there are from what the
program shares. A new one is not among those before, as long as not every word stands for one;
a string is extended while it has room. -/
structure StringLibrary {World : Type} (w : Callees World)
    (strings : Memory World → UInt16 → Option HeldString) : Prop where
  new : ∀ m length, (∃ word, strings m word = none) →
    ∃ text m', w.result ⟨"String.new", [length], m⟩ = some (text, m') ∧
      strings m text = none ∧
      strings m' = Function.update (strings m) text (some ⟨length.toNat, []⟩)
  append : ∀ m text held code, strings m text = some held → held.codes.length < held.room →
    ∃ m', w.result ⟨"String.appendChar", [text, code], m⟩ = some (text, m') ∧
      strings m' = Function.update (strings m) text (some (held.append code))

def HeldString.full (text : List Char) : HeldString :=
  ⟨text.length, text.map fun c => .ofNat c.toNat⟩

section

variable {World : Type} {w : Callees World} {strings : Memory World → UInt16 → Option HeldString}

theorem StringLibrary.appendText (h : StringLibrary w strings) {cs : List Char} {text : UInt16}
    {held : HeldString} {s : Store World} (hheld : strings s.memory text = some held)
    (hroom : held.codes.length + cs.length ≤ held.room) :
    ∃ m, JackCompiler.appendText w cs text s = .ok (text, { s with memory := m }) ∧
      strings m = Function.update (strings s.memory) text
        (some { held with codes := held.codes ++ cs.map fun c => .ofNat c.toNat }) := by
  induction cs generalizing held s with
  | nil =>
    refine ⟨s.memory, rfl, ?_⟩
    rw [List.map_nil, List.append_nil, ← hheld, Function.update_eq_self]
  | cons c cs ih =>
    rw [List.length_cons] at hroom
    -- The string has room for this character and for those that follow.
    obtain ⟨m, hresult, hm⟩ := h.append s.memory text held (.ofNat c.toNat) hheld (by omega)
    have hinvoke : Eval.invoke w "String.appendChar" [text, .ofNat c.toNat] s =
        .ok (text, { s with memory := m }) := by
      simp only [Eval.invoke, hresult]
    have hlonger : strings m text = some (held.append (.ofNat c.toNat)) := by
      rw [hm, Function.update_self]
    obtain ⟨m', hrest, hm'⟩ := ih (s := { s with memory := m }) hlonger
      (by simp [HeldString.append]; omega)
    refine ⟨m', ?_, ?_⟩
    · rw [JackCompiler.appendText, Eval.bind_of_ok hinvoke, hrest]
    · rw [hm', hm, Function.update_idem]
      simp [HeldString.append]

theorem StringLibrary.evalText (h : StringLibrary w strings) {text : List Char} {s : Store World}
    (hlength : text.length ≤ 32767) (hfree : ∃ word, strings s.memory word = none) :
    ∃ word m, JackCompiler.evalText w text s = .ok (word, { s with memory := m }) ∧
      strings s.memory word = none ∧
      strings m = Function.update (strings s.memory) word (some (.full text)) := by
  obtain ⟨word, m, hresult, hfresh, hm⟩ := h.new s.memory (.ofNat text.length) hfree
  rw [toNat_ofNat_of_le hlength] at hm
  have hinvoke : Eval.invoke w "String.new" [.ofNat text.length] s =
      .ok (word, { s with memory := m }) := by
    simp only [Eval.invoke, hresult]
  have hempty : strings m word = some ⟨text.length, []⟩ := by rw [hm, Function.update_self]
  have hroom : ([] : List UInt16).length + text.length ≤ text.length := by simp
  obtain ⟨m', hrest, hm'⟩ := h.appendText (s := { s with memory := m }) hempty hroom
  refine ⟨word, m', ?_, hfresh, ?_⟩
  · rw [JackCompiler.evalText, Eval.bind_of_ok hinvoke, hrest]
  · rw [hm', hm, Function.update_idem]
    simp [HeldString.full]

theorem StringLibrary.reaches (h : StringLibrary w strings) {text : List Char}
    (hlength : text.length ≤ 32767) (body behind : List Instruction) (stack : List UInt16)
    (store : Store World) (scratch : Scratch) (hfree : ∃ word, strings store.memory word = none) :
    ∃ word m scratch', Reaches w body ⟨textCode text ++ behind, ⟨stack, store, scratch⟩⟩
        ⟨behind, ⟨word :: stack, { store with memory := m }, scratch'⟩⟩ ∧
      strings store.memory word = none ∧
      strings m = Function.update (strings store.memory) word (some (.full text)) := by
  obtain ⟨word, m, heval, hfresh, hm⟩ := h.evalText hlength hfree
  have hcomputes := computes_text (w := w) stack text body behind store scratch
  rw [heval] at hcomputes
  obtain ⟨scratch', hreaches⟩ := hcomputes
  exact ⟨word, m, scratch', hreaches, hfresh, hm⟩

end

/-- The code builds the text, as far as instructions and the library have a say. -/
structure BuildsText (code : List Instruction) (text : List Char) : Prop where
  eq : code = .push .constant (.ofNat text.length) :: .call "String.new" 1 ::
    text.flatMap fun c => [.push .constant (.ofNat c.toNat), .call "String.appendChar" 2]
  toNat_length : (UInt16.ofNat text.length).toNat = text.length
  toNat_code : ∀ c ∈ text, (UInt16.ofNat c.toNat).toNat = c.toNat
  reads : ∀ behind, readText? (code ++ behind) = some text
  /-- One string is pushed, a new one that holds the text; there is no other change to those
  that there are and none to what is below on the stack. -/
  reaches : ∀ {World : Type} {w : Callees World}
    {strings : Memory World → UInt16 → Option HeldString}, StringLibrary w strings →
    ∀ (body behind : List Instruction) (stack : List UInt16) (store : Store World)
      (scratch : Scratch), (∃ word, strings store.memory word = none) →
    ∃ word m scratch', Reaches w body ⟨code ++ behind, ⟨stack, store, scratch⟩⟩
        ⟨behind, ⟨word :: stack, { store with memory := m }, scratch'⟩⟩ ∧
      strings store.memory word = none ∧
      strings m = Function.update (strings store.memory) word (some (.full text))

theorem buildsText_textCode {text : List Char} (h : Pushable text) :
    BuildsText (textCode text) text where
  eq := rfl
  toNat_length := toNat_ofNat_of_le h.length_le
  toNat_code c hc := toNat_ofNat_of_le (h.code_le c hc)
  reads := readText?_textCode h
  reaches library := library.reaches h.length_le

/-! ## Compilations -/

/-- A run over events that meet no fault goes on over those behind them. -/
theorem exists_generateFrom_append {o : Options} {c : Context} {es : List Event}
    (h : (generateFrom o #[] c es).fault = none) :
    ∃ d, ∀ more,
      (generateFrom o #[] c (es ++ more)).fault = (generateFrom o #[] d more).fault ∧
      (generateFrom o #[] c (es ++ more)).program =
        (generateFrom o #[] c es).program ++ (generateFrom o #[] d more).program := by
  induction es generalizing c with
  | nil => exact ⟨c, fun more => ⟨rfl, rfl⟩⟩
  | cons e es ih =>
    rw [generateFrom] at h
    cases hstep : step o c e with
    | error fault =>
      rw [hstep] at h
      cases h
    | ok result =>
      obtain ⟨c₁, effects⟩ := result
      rw [hstep] at h
      simp only at h
      rw [fault_generateFrom] at h
      obtain ⟨d, hd⟩ := ih h
      refine ⟨d, fun more => ?_⟩
      obtain ⟨hfault, hprogram⟩ := hd more
      rw [List.cons_append, generateFrom, generateFrom, hstep]
      simp only
      rw [fault_generateFrom, program_generateFrom, program_generateFrom o (#[] ++ effects), hfault,
        hprogram, List.append_assoc]
      exact ⟨rfl, rfl⟩

section

variable {o : Options} {c : Context} {literal : Token}

theorem generateFrom_text_of_ok {code : List Instruction} (h : textCode? literal = .ok code)
    (more : List Event) :
    let run := generateFrom o #[] c (.take literal :: .note (.act (.pushText literal)) :: more)
    run.fault = (generateFrom o #[] c more).fault ∧
      run.program = code ++ (generateFrom o #[] c more).program := by
  have hperform : step o c (.note (.act (.pushText literal))) = .ok (c, code.map .emit) := by
    simp only [step, perform, h]
    rfl
  simp only [generateFrom, show step o c (.take literal) = .ok (c, [.record (.leaf literal)]) from rfl,
    hperform]
  rw [fault_generateFrom, program_generateFrom]
  have hemitted : (Effect.record (.leaf literal) :: code.map .emit).filterMap Effect.instruction? =
      code := Yields.filterMap_emit code
  simpa using hemitted

theorem generateFrom_text_of_error {fault : Fault Nat} (h : textCode? literal = .error fault)
    (more : List Event) :
    let run := generateFrom o #[] c (.take literal :: .note (.act (.pushText literal)) :: more)
    run.fault = some fault ∧ run.program = [] := by
  have hperform : step o c (.note (.act (.pushText literal))) = .error fault := by
    simp only [step, perform, h]
    rfl
  simp only [generateFrom, show step o c (.take literal) = .ok (c, [.record (.leaf literal)]) from rfl,
    hperform]
  exact ⟨trivial, rfl⟩

end

/-- A string constant that is read, behind what compiles, is built by code of its own, which ends
up in the program. If it cannot be pushed, the compilation ends there, with no more code than
there was. -/
theorem text_built_or_refused {o : Options} {source : String} {literal : Token}
    {before after : List Event}
    (hevents : (parse (scan source.toList).toList).toList = before ++ .take literal :: after)
    (hkind : literal.kind = .text) (hbefore : (generate o before).fault = none) :
    ∃ rest, after = .note (.act (.pushText literal)) :: rest ∧
      (Pushable literal.lexeme.toList → ∃ code, BuildsText code literal.lexeme.toList ∧
        let built := generate o (before ++ [.take literal, .note (.act (.pushText literal))])
        built.fault = none ∧ built.program = (generate o before).program ++ code ∧
        built.program <+: (history o source).program) ∧
      (¬ Pushable literal.lexeme.toList →
        ∃ fault, TextRefusal literal.lexeme.toList literal.span.index fault ∧
          compile o source = .error (fault.map (Position.ofOffset source.toList)) ∧
          (history o source).program = (generate o before).program) := by
  obtain ⟨rest, rfl⟩ := exists_pushText hevents hkind
  obtain ⟨c, hc⟩ := exists_generateFrom_append hbefore
  have hhistory := hc (.take literal :: .note (.act (.pushText literal)) :: rest)
  have hrun : generateFrom o #[] (.initial o)
      (before ++ .take literal :: .note (.act (.pushText literal)) :: rest) = history o source := by
    rw [← hevents]
    rfl
  rw [hrun] at hhistory
  obtain ⟨hfault, hprogram⟩ := hhistory
  refine ⟨rest, rfl, fun hpushable => ?_, fun hrefused => ?_⟩
  · have hcode := textCode?_of_pushable hpushable
    -- First the run up to the constant, then the whole one.
    obtain ⟨hfault', hprogram'⟩ := hc [.take literal, .note (.act (.pushText literal))]
    obtain ⟨hnone, hemitted⟩ := generateFrom_text_of_ok (o := o) (c := c) hcode []
    obtain ⟨-, hmore⟩ := generateFrom_text_of_ok (o := o) (c := c) hcode rest
    have hbuilt : (generate o (before ++ [.take literal, .note (.act (.pushText literal))])).program =
        (generate o before).program ++ textCode literal.lexeme.toList := by
      refine hprogram'.trans ?_
      rw [hemitted]
      exact congrArg _ (List.append_nil _)
    refine ⟨_, buildsText_textCode hpushable, hfault'.trans hnone, hbuilt, ?_⟩
    rw [hbuilt, hprogram, hmore, ← List.append_assoc]
    exact List.prefix_append _ _
  · obtain ⟨fault, htext, hrefusal⟩ := textCode?_of_not_pushable hrefused
    obtain ⟨hsome, hnothing⟩ := generateFrom_text_of_error (o := o) (c := c) htext rest
    refine ⟨fault, hrefusal, compile_eq_error_iff.mpr ⟨fault, hfault.trans hsome, rfl⟩, ?_⟩
    rw [hprogram, hnothing, List.append_nil]
    rfl

/-! ## A library -/

def listedStrings (m : Memory (List HeldString)) (word : UInt16) : Option HeldString :=
  m.world[word.toNat]?

def listLibrary : Callees (List HeldString) where
  result
    | ⟨"String.new", [length], m⟩ =>
      if m.world.length < UInt16.size then
        some (.ofNat m.world.length, { m with world := m.world ++ [⟨length.toNat, []⟩] })
      else none
    | ⟨"String.appendChar", [text, code], m⟩ => do
      let held ← listedStrings m text
      if held.codes.length < held.room then
        some (text, { m with world := m.world.set text.toNat (held.append code) })
      else none
    | _ => none
  scratch _ s := s

theorem stringLibrary_listLibrary : StringLibrary listLibrary listedStrings where
  new m length hfree := by
    obtain ⟨free, hfree⟩ := hfree
    have hlength : m.world.length < UInt16.size :=
      Nat.lt_of_le_of_lt (List.getElem?_eq_none_iff.mp hfree) free.toNat_lt
    have hword : (UInt16.ofNat m.world.length).toNat = m.world.length :=
      UInt16.toNat_ofNat_of_lt' hlength
    refine ⟨.ofNat m.world.length, { m with world := m.world ++ [⟨length.toNat, []⟩] }, ?_, ?_, ?_⟩
    · simp only [listLibrary, if_pos hlength]
    · rw [listedStrings, hword]
      exact List.getElem?_eq_none (Nat.le_refl _)
    · funext word
      simp only [listedStrings, Function.update_apply]
      by_cases h : word = .ofNat m.world.length
      · rw [if_pos h, h, hword, List.getElem?_concat_length]
      · have hne : word.toNat ≠ m.world.length := fun e => h (by rw [← e, UInt16.ofNat_toNat])
        rw [if_neg h]
        by_cases hlt : word.toNat < m.world.length
        · rw [List.getElem?_append_left hlt]
        · rw [List.getElem?_eq_none (by simp; omega), List.getElem?_eq_none (by omega)]
  append m text held code hheld hroom := by
    refine ⟨{ m with world := m.world.set text.toNat (held.append code) }, ?_, ?_⟩
    · simp only [listLibrary, hheld, Option.bind_eq_bind, Option.bind_some, if_pos hroom]
    · funext word
      simp only [listedStrings, Function.update_apply]
      by_cases h : word = text
      · have hlt : text.toNat < m.world.length := (List.getElem?_eq_some_iff.mp hheld).1
        rw [if_pos h, h, List.getElem?_set_self hlt]
      · rw [if_neg h, List.getElem?_set_ne fun e => h (UInt16.toNat_inj.mp e.symm)]

/-! ## A constant with a character of two bytes -/

def textSource : String :=
  "class A \x7b function void f() \x7b do g(\"Jé\"); return; \x7d \x7d"

def textLiteral : Token :=
  ⟨.text, ⟨36, 3⟩, "Jé"⟩

def emptyStore : Store (List HeldString) :=
  ⟨fun _ => 0, fun _ => 0, 0, ⟨fun _ => 0, fun _ => 0, []⟩⟩

theorem text_built_or_refused_textSource :
    Pushable textLiteral.lexeme.toList ∧ ∃ code, BuildsText code ['J', 'é'] ∧
      code <:+: (history {} textSource).program ∧
      ∃ word m scratch, Reaches listLibrary [] ⟨code ++ [], ⟨[7], emptyStore, ⟨0, fun _ => 0⟩⟩⟩
          ⟨[], ⟨[word, 7], { emptyStore with memory := m }, scratch⟩⟩ ∧
        listedStrings m word = some ⟨2, [74, 233]⟩ := by
  have hnarrow : firstWide? 0 textLiteral.lexeme.toList = none := by decide +kernel
  have hpushable : Pushable textLiteral.lexeme.toList :=
    ⟨by decide +kernel, firstWide?_eq_none_iff.mp hnarrow⟩
  have hevents : (parse (scan textSource.toList).toList).toList =
      ((parse (scan textSource.toList).toList).toList.take 40) ++ .take textLiteral ::
        ((parse (scan textSource.toList).toList).toList.drop 41) := by
    decide +kernel
  have hbefore : (generate {} ((parse (scan textSource.toList).toList).toList.take 40)).fault =
      none := by
    decide +kernel
  obtain ⟨rest, -, hbuilt, -⟩ := text_built_or_refused hevents rfl hbefore
  obtain ⟨code, hcode, -, hprogram, hprefix⟩ := hbuilt hpushable
  rw [hprogram] at hprefix
  have htext : textLiteral.lexeme.toList = ['J', 'é'] := by decide +kernel
  rw [htext] at hcode
  obtain ⟨word, m, scratch, hreaches, -, hm⟩ := hcode.reaches stringLibrary_listLibrary [] [] [7]
    emptyStore ⟨0, fun _ => 0⟩ ⟨0, rfl⟩
  refine ⟨hpushable, code, hcode, ?_, word, m, scratch, hreaches, ?_⟩
  · obtain ⟨more, hmore⟩ := hprefix
    exact ⟨_, more, hmore⟩
  · rw [hm, Function.update_self]
    decide

end JackCompiler
