import JackCompiler.Proofs.Codegen.Labels
import JackCompiler.Proofs.Codegen.Runs

/-!
# Options as passes over a program

The options for the output change no fault. Their programs are made from the plain one:
labels are qualified by the function they stand in, and each function gets the prologue
of its subroutine (`options_are_passes`). The grammar trace is a function of the source.
-/

namespace JackCompiler

/-! ## The passes -/

def Instruction.qualify (scope : String) : Instruction → Instruction
  | .label name => .label (scope ++ name)
  | .goto name => .goto (scope ++ name)
  | .ifGoto name => .ifGoto (scope ++ name)
  | i => i

def qualifyFrom (scope : String) : List Instruction → List Instruction
  | [] => []
  | .function name locals :: p => .function name locals :: qualifyFrom (name ++ "$") p
  | i :: p => i.qualify scope :: qualifyFrom scope p

def qualifyLabels (p : List Instruction) : List Instruction :=
  qualifyFrom "" p

/-- Inserts the codes behind the functions, the first one behind the first function. -/
def insertPrologues : List (List Instruction) → List Instruction → List Instruction
  | code :: codes, .function name locals :: p =>
    .function name locals :: (code ++ insertPrologues codes p)
  | codes, i :: p => i :: insertPrologues codes p
  | _, [] => []

def ClassDec.prologues (c : ClassDec) : List (List Instruction) :=
  c.subroutines.map fun s => prologue c.fieldCount s.kind

namespace Options

def plain (o : Options) : Options :=
  { o with trace := false, qualifyLabels := false, objectSetup := false }

/-- What the options make of the plain program of the class. -/
def passes (o : Options) (c : ClassDec) (p : List Instruction) : List Instruction :=
  let p := if o.qualifyLabels then JackCompiler.qualifyLabels p else p
  if o.objectSetup then insertPrologues c.prologues p else p

end Options

/-! ## Passes over blocks -/

theorem qualifyFrom_cons {i : Instruction} (h : i.isFunction = false) (scope : String)
    (p : List Instruction) :
    qualifyFrom scope (i :: p) = i.qualify scope :: qualifyFrom scope p := by
  cases i with
  | function => cases h
  | _ => rfl

theorem insertPrologues_cons {i : Instruction} (h : i.isFunction = false)
    (codes : List (List Instruction)) (p : List Instruction) :
    insertPrologues codes (i :: p) = i :: insertPrologues codes p := by
  cases i with
  | function => cases h
  | _ => cases codes <;> rfl

theorem qualifyFrom_append {p : List Instruction} (h : ∀ i ∈ p, i.isFunction = false)
    (scope : String) (q : List Instruction) :
    qualifyFrom scope (p ++ q) = p.map (Instruction.qualify scope) ++ qualifyFrom scope q := by
  induction p with
  | nil => rfl
  | cons i p ih =>
    rw [List.forall_mem_cons] at h
    rw [List.cons_append, qualifyFrom_cons h.1, ih h.2, List.map_cons, List.cons_append]

theorem insertPrologues_append {p : List Instruction} (h : ∀ i ∈ p, i.isFunction = false)
    (codes : List (List Instruction)) (q : List Instruction) :
    insertPrologues codes (p ++ q) = p ++ insertPrologues codes q := by
  induction p with
  | nil => rfl
  | cons i p ih =>
    rw [List.forall_mem_cons] at h
    rw [List.cons_append, insertPrologues_cons h.1, ih h.2, List.cons_append]

theorem Plain.map_qualify {p : List Instruction} (h : Plain p) (scope : String) :
    p.map (Instruction.qualify scope) = p := by
  have hid : ∀ i ∈ p, i.qualify scope = i := by
    intro i hi
    have hplain := h i hi
    cases i <;> first | rfl | cases hplain
  rw [List.map_congr_left hid, List.map_id']

theorem labelText_append (scope scope' : String) (role : LabelRole) (n : Nat) :
    labelText (scope ++ scope') role n = scope ++ labelText scope' role n :=
  String.append_assoc

theorem Block.map_qualify_code (names : Names) (scope : String) (b : Block) (i w : Nat) :
    (b.code names "" i w).map (Instruction.qualify scope) = b.code names scope i w := by
  have hlabel : ∀ role n, scope ++ labelText "" role n = labelText scope role n := by
    intro role n
    rw [← labelText_append, String.append_empty]
  -- Only labels and jumps change, and the code of terms and targets has neither.
  induction b generalizing i w with
  | empty => rfl
  | let_ target value next ih =>
    simp only [code, List.map_append, ih, (target.plain names).map_qualify,
      (value.plain names).map_qualify, (target.plain_store names).map_qualify]
  | if_ condition yes next ihyes ih =>
    simp only [code, List.map_append, List.map_cons, List.map_nil, ihyes, ih,
      (condition.plain names).map_qualify, Instruction.qualify, hlabel]
  | ifElse condition yes no next ihyes ihno ih =>
    simp only [code, List.map_append, List.map_cons, List.map_nil, ihyes, ihno, ih,
      (condition.plain names).map_qualify, Instruction.qualify, hlabel]
  | while_ condition body next ihbody ih =>
    simp only [code, List.map_append, List.map_cons, List.map_nil, ihbody, ih,
      (condition.plain names).map_qualify, Instruction.qualify, hlabel]
  | do_ target arguments next ih =>
    simp only [code, List.map_append, List.map_cons, List.map_nil, ih,
      (names.plain_receiver target).map_qualify, (arguments.plain names).map_qualify,
      (names.plain_call target _).map_qualify, Instruction.qualify]
  | return_ value next ih =>
    simp only [code, List.map_append, List.map_cons, List.map_nil, ih,
      (plain_resultCode names value).map_qualify, Instruction.qualify]

section Blocks

variable {α : Type} {block : α → CodeBlock}

theorem qualifyFrom_flatMap (h : ∀ x, ∀ i ∈ (block x).body, i.isFunction = false)
    (scope : String) (xs : List α) :
    qualifyFrom scope (xs.flatMap fun x => (block x).code) =
      xs.flatMap fun x => .function (block x).name (block x).locals ::
        (block x).body.map (Instruction.qualify ((block x).name ++ "$")) := by
  induction xs generalizing scope with
  | nil => rfl
  | cons x xs ih =>
    rw [List.flatMap_cons, List.flatMap_cons, CodeBlock.code, List.cons_append, qualifyFrom,
      qualifyFrom_append (h x), ih, List.cons_append]

theorem insertPrologues_flatMap (h : ∀ x, ∀ i ∈ (block x).body, i.isFunction = false)
    (code : α → List Instruction) (xs : List α) :
    insertPrologues (xs.map code) (xs.flatMap fun x => (block x).code) =
      xs.flatMap fun x => .function (block x).name (block x).locals ::
        (code x ++ (block x).body) := by
  induction xs with
  | nil => rfl
  | cons x xs ih =>
    rw [List.flatMap_cons, List.flatMap_cons, List.map_cons, CodeBlock.code, List.cons_append,
      insertPrologues, insertPrologues_append (h x), ih, List.cons_append, List.append_assoc]

end Blocks

/-! ## Passes over classes -/

namespace ClassDec

variable (tree : ClassDec) (o : Options)

def bareBlock (s : SubroutineDec) : CodeBlock :=
  ⟨tree.subroutineName s, UInt16.ofNat (countOf .local (tree.localDeclarations s)),
    tree.bodyCode o s⟩

theorem isFunction_bareBlock (s : SubroutineDec) :
    ∀ i ∈ (tree.bareBlock o s).body, i.isFunction = false := by
  intro i hi
  exact tree.isFunction_block o s i (List.mem_append_right _ hi)

theorem code_plain :
    tree.code o.plain = tree.subroutines.flatMap fun s => (tree.bareBlock o.plain s).code :=
  rfl

theorem qualify_bareBlock (h : o.qualifyLabels = true) (s : SubroutineDec) :
    (tree.bareBlock o.plain s).body.map (Instruction.qualify (tree.subroutineName s ++ "$")) =
      (tree.bareBlock o s).body := by
  have hscope : tree.labelScope o s = tree.subroutineName s ++ "$" := if_pos h
  show (s.body.code (tree.names s) "" 0 0).map _ =
    s.body.code (tree.names s) (tree.labelScope o s) 0 0
  rw [hscope, Block.map_qualify_code]

theorem qualifyLabels_code (h : o.qualifyLabels = true) :
    qualifyLabels (tree.code o.plain) =
      tree.subroutines.flatMap fun s => (tree.bareBlock o s).code := by
  rw [qualifyLabels, code_plain, qualifyFrom_flatMap (tree.isFunction_bareBlock o.plain)]
  congr 1
  funext s
  exact congrArg _ (tree.qualify_bareBlock o h s)

theorem insertPrologues_code (h : o.objectSetup = true) :
    insertPrologues tree.prologues (tree.subroutines.flatMap fun s => (tree.bareBlock o s).code) =
      tree.code o := by
  rw [prologues, insertPrologues_flatMap (tree.isFunction_bareBlock o), code]
  congr 1
  funext s
  rw [block, tree.setup_eq, if_pos h]
  rfl

theorem code_eq_passes : tree.code o = o.passes tree (tree.code o.plain) := by
  have hlabels : (if o.qualifyLabels then qualifyLabels (tree.code o.plain)
      else tree.code o.plain) = tree.subroutines.flatMap fun s => (tree.bareBlock o s).code := by
    by_cases h : o.qualifyLabels = true
    · rw [if_pos h, tree.qualifyLabels_code o h]
    · have hscope : ∀ s, tree.labelScope o s = "" := fun s => if_neg h
      rw [if_neg h, code_plain]
      simp only [bareBlock, bodyCode, hscope]
      rfl
  unfold Options.passes
  rw [hlabels]
  by_cases h : o.objectSetup = true
  · rw [if_pos h, tree.insertPrologues_code o h]
  · have hsetup : ∀ s, tree.setup o s = [] := fun s => if_neg h
    rw [if_neg h]
    simp only [code, block, hsetup, List.nil_append]
    rfl

end ClassDec

/-! ## Faults -/

theorem perform_plain (o : Options) (c : Context) (a : Action) :
    (perform o.plain c a).map Prod.fst = (perform o c a).map Prod.fst := by
  have hreceiver : ∀ callee, receiverCode o.plain c callee = receiverCode o c callee := by
    intro callee
    cases callee <;> rfl
  cases a with
  | pushReceiver callee => simp only [perform, hreceiver]
  | _ => rfl

theorem step_plain (o : Options) (c : Context) (e : Event) :
    (step o.plain c e).map Prod.fst = (step o c e).map Prod.fst := by
  cases e with
  | note n =>
    cases n with
    | act a => exact perform_plain o c a
    | enter | leave => rfl
  | look | take | refuse | exhausted => rfl

theorem fault_history_plain (o : Options) (source : String) :
    (history o.plain source).fault = (history o source).fault :=
  fault_generateFrom_congr (step_plain o) #[] #[] (.initial o) _

/-! ## Traces -/

def Event.line? : Event → Option TraceLine
  | .note (.enter rule) => some (.enter rule)
  | .note (.leave rule) => some (.leave rule)
  | .take token => some (.leaf token)
  | _ => none

def readingTrace (source : String) : String :=
  joinLines (((parse (scan source.toList).toList).toList.filterMap Event.line?).map TraceLine.text)

theorem line?_emit (code : List Instruction) :
    (code.map Effect.emit).filterMap Effect.line? = [] := by
  rw [List.filterMap_map, List.filterMap_eq_nil_iff]
  intro i _
  rfl

theorem line?_perform {o : Options} {c d : Context} {a : Action} {effects : List Effect}
    (h : perform o c a = .ok (d, effects)) : effects.filterMap Effect.line? = [] := by
  cases a with
  | declare | receiveObject | resolve | load | store | countArguments | call =>
    obtain ⟨_, -, hpure⟩ := bind_eq_ok_iff.mp h
    cases hpure
    rfl
  | loadElement | addressElement | pushReceiver | pushText =>
    obtain ⟨_, -, hpure⟩ := bind_eq_ok_iff.mp h
    cases hpure
    exact line?_emit _
  | pushInteger literal =>
    simp only [perform] at h
    split at h <;> cases h
    rfl
  | startBody | pushWord | unary | binary | storeElement =>
    cases h
    exact line?_emit _
  | _ =>
    cases h
    rfl

theorem line?_step {o : Options} {c d : Context} {e : Event} {effects : List Effect}
    (h : step o c e = .ok (d, effects)) : effects.filterMap Effect.line? = e.line?.toList := by
  cases e with
  | note n =>
    cases n with
    | act a => exact line?_perform h
    | enter | leave => cases h; rfl
  | look skipped =>
    cases h
    exact (List.filterMap_map ..).trans (List.filterMap_eq_nil_iff.mpr fun _ _ => rfl)
  | take token => cases h; rfl
  | refuse | exhausted => cases h

/-- A run records the lines of the events that it carries out, which are all of them unless it
ends in a fault. -/
theorem exists_traceLines_generateFrom (o : Options) (done : Array Effect) (c : Context)
    (es : List Event) :
    ∃ ran rest, es = ran ++ rest ∧ ((generateFrom o done c es).fault = none → rest = []) ∧
      (generateFrom o done c es).traceLines =
        done.toList.filterMap Effect.line? ++ ran.filterMap Event.line? := by
  induction es generalizing done c with
  | nil => exact ⟨[], [], rfl, fun _ => rfl, (List.append_nil _).symm⟩
  | cons e es ih =>
    rw [generateFrom]
    cases hs : step o c e with
    | error fault =>
      refine ⟨[], e :: es, rfl, fun hnone => ?_, (List.append_nil _).symm⟩
      cases hnone
    | ok result =>
      obtain ⟨ran, rest, hes, hrest, hlines⟩ := ih (done ++ result.2) result.1
      have hline : (e :: ran).filterMap Event.line? =
          e.line?.toList ++ ran.filterMap Event.line? := by
        cases hl : e.line? <;> simp [hl]
      have hdone : (done ++ result.2).toList = done.toList ++ result.2 := by simp
      -- What the event leaves in the trace is the one thing that its step records.
      refine ⟨e :: ran, rest, by rw [hes, List.cons_append], hrest, ?_⟩
      simp only
      rw [hlines, hdone, List.filterMap_append, line?_step hs, hline, List.append_assoc]

theorem traceLines_generateFrom {o : Options} {done : Array Effect} {c : Context}
    {es : List Event} (h : (generateFrom o done c es).fault = none) :
    (generateFrom o done c es).traceLines =
      done.toList.filterMap Effect.line? ++ es.filterMap Event.line? := by
  obtain ⟨ran, rest, hes, hrest, hlines⟩ := exists_traceLines_generateFrom o done c es
  rw [hrest h, List.append_nil] at hes
  rw [hlines, hes]

theorem traceText_history {o : Options} {source : String}
    (h : (history o source).fault = none) : (history o source).traceText = readingTrace source := by
  rw [History.traceText, history, generate, traceLines_generateFrom h]
  rfl

/-! ## Compilations -/

theorem options_are_passes (o : Options) (source : String) :
    (∀ fault, compile o source = .error fault ↔ compile o.plain source = .error fault) ∧
    (∀ out base, compile o source = .ok out → compile o.plain source = .ok base →
      (∃ tree : ClassDec, tree.Heads source) ∧ ∀ tree : ClassDec, tree.Heads source →
        tree.fieldCount ≤ 65535 ∧ out.program = o.passes tree base.program) ∧
    ∀ out, compile o source = .ok out →
      out.trace = if o.trace then some (readingTrace source) else none := by
  refine ⟨fun fault => ?_, fun out base hout hbase => ?_, fun out hout => ?_⟩
  · rw [compile_eq_error_iff, compile_eq_error_iff, fault_history_plain]
  · refine ⟨exists_heads hout, fun tree htree => ⟨(static_of_compile hout htree).fieldCount_le, ?_⟩⟩
    rw [program_of_compile hout htree, program_of_compile hbase htree, tree.code_eq_passes]
  · obtain ⟨⟨hfault, -⟩, htrace⟩ := compile_eq_ok_iff.mp hout
    rw [htrace, traceText_history hfault]

theorem options_are_passes_loopSource :
    ∃ out base, compile ⟨false, true, true, true, []⟩ loopSource = .ok out ∧
      compile (Options.plain ⟨false, true, true, true, []⟩) loopSource = .ok base ∧
      out.program = insertPrologues [prologue 0 .function] (qualifyLabels base.program) ∧
      out.trace = some (readingTrace loopSource) := by
  obtain ⟨out, hout⟩ : ∃ out, compile ⟨false, true, true, true, []⟩ loopSource = .ok out :=
    exists_compile_iff.mpr (by decide +kernel)
  obtain ⟨base, hbase⟩ :
      ∃ base, compile (Options.plain ⟨false, true, true, true, []⟩) loopSource = .ok base :=
    exists_compile_iff.mpr (by decide +kernel)
  obtain ⟨-, hprogram, htrace⟩ := options_are_passes ⟨false, true, true, true, []⟩ loopSource
  exact ⟨out, base, hout, hbase, ((hprogram out base hout hbase).2 loopClass heads_loopClass).2,
    htrace out hout⟩

end JackCompiler
