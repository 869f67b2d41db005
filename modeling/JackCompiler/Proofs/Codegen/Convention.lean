import JackCompiler.Proofs.Codegen.Emission
import JackCompiler.Proofs.Codegen.Storage
import JackCompiler.Proofs.Machine.Execution

/-!
# The calling convention

Classes are compiled one by one, and a call agrees with the subroutine it calls although
neither is known when the other is compiled: the caller pushes the object of a method, then
the arguments in order, and the subroutine finds its parameters at these places
(`calling_convention`). A method that is set up works on the object it was called for.
-/

namespace JackCompiler

/-! ## Accesses -/

/-- The name through which an action reads or writes a variable, and the code that does so. -/
def Action.access? : Action → Option (Token × (Variable → List Instruction))
  | .load name => some (name, fun v => [.push v.segment v.index])
  | .store name => some (name, fun v => [.pop v.segment v.index])
  | .loadElement name => some (name, fun v =>
      [.push v.segment v.index, .operate .add, .pop .pointer 1, .push .that 0])
  | .addressElement name => some (name, fun v => [.push v.segment v.index, .operate .add])
  | .pushReceiver (.member qualifier _) => some (qualifier, fun v => [.push v.segment v.index])
  | _ => none

def Segment.holdsVariables : Segment → Bool
  | .static | .this | .argument | .local => true
  | _ => false

def Instruction.touchesVariable : Instruction → Bool
  | .push segment _ => segment.holdsVariables
  | .pop segment _ => segment.holdsVariables
  | _ => false

section

variable {o : Options} {c d : Context} {a : Action}

theorem perform_access {name : Token} {code : Variable → List Instruction} {v : Variable}
    (ha : a.access? = some (name, code)) (hv : c.names.find? name.lexeme = some v) :
    perform o c a = .ok (c, (code v).map .emit) := by
  have hscopes : c.scopes.find? name.lexeme = some v := hv
  cases a with
  | load | store | loadElement | addressElement =>
    obtain ⟨rfl, rfl⟩ := Prod.mk.inj (Option.some.inj ha)
    simp only [perform, Context.resolve, hscopes]
    rfl
  | pushReceiver callee =>
    cases callee with
    | own => cases ha
    | member =>
      obtain ⟨rfl, rfl⟩ := Prod.mk.inj (Option.some.inj ha)
      simp only [perform, receiverCode, hscopes]
      rfl
  | _ => cases ha

theorem touchesVariable_textCode (text : List Char) :
    ∀ i ∈ textCode text, i.touchesVariable = false := by
  simp only [textCode, List.forall_mem_cons]
  refine ⟨rfl, rfl, fun i hi => ?_⟩
  obtain ⟨ch, -, hi⟩ := List.mem_flatMap.mp hi
  simp only [appendCode, List.mem_cons, List.not_mem_nil, or_false] at hi
  rcases hi with rfl | rfl <;> rfl

/-- What is no access to a variable touches none. -/
theorem touchesVariable_of_access {p : List Instruction} (hin : a.inBody = true)
    (ha : a.access? = none) (h : performAll o c [a] = .ok (d, p)) :
    ∀ i ∈ p, i.touchesVariable = false := by
  have hperform := h
  rw [performAll_singleton_iff] at hperform
  obtain ⟨effects, heffects, rfl⟩ := hperform
  cases a with
  | nameClass | declare | startSubroutine | receiveObject | nameSubroutine | startBody
  | endBody => cases hin
  | load | store | loadElement | addressElement => cases ha
  | resolve name =>
    obtain ⟨-, hp⟩ := (yields_resolve o c name).performs.iff_and_eq.mp ⟨d, h⟩
    rw [hp]
    exact List.forall_mem_nil _
  | pushReceiver callee =>
    cases callee with
    | own =>
      cases heffects
      exact List.forall_mem_singleton.mpr rfl
    | member => cases ha
  | pushInteger literal =>
    obtain ⟨-, hp⟩ := (yields_pushInteger o c literal).performs.iff_and_eq.mp ⟨d, h⟩
    rw [hp]
    exact List.forall_mem_singleton.mpr rfl
  | pushText literal =>
    obtain ⟨-, hp⟩ := (yields_pushText o c literal).performs.iff_and_eq.mp ⟨d, h⟩
    rw [hp]
    exact touchesVariable_textCode _
  | countArguments n =>
    obtain ⟨-, hp⟩ := (yields_countArguments o c n).performs.iff_and_eq.mp ⟨d, h⟩
    rw [hp]
    exact List.forall_mem_nil _
  | call callee n =>
    simp only [perform] at heffects
    rcases callCode_cases c n callee with ⟨name, w, hn⟩ | hn <;> rw [hn] at heffects <;>
      cases heffects
    exact List.forall_mem_singleton.mpr rfl
  | pushWord word =>
    cases heffects
    cases word <;> decide
  | unary op =>
    cases heffects
    cases op <;> decide
  | binary op =>
    cases heffects
    cases op <;> decide
  | _ =>
    cases heffects
    simp [Effect.instruction?, Instruction.touchesVariable, Segment.holdsVariables, pushConstant,
      storeElementCode]

end

/-! ## Places of parameters -/

def SubroutineKind.receivers (kind : SubroutineKind) : Nat :=
  if kind = .method then 1 else 0

def SubroutineDec.Distinct (s : SubroutineDec) : Prop :=
  ((s.parameters.map Parameter.declaration ++
    s.locals.flatMap (Declared.declarations .local)).map Declaration.name).Nodup

instance (s : SubroutineDec) : Decidable s.Distinct :=
  inferInstanceAs (Decidable (List.Nodup _))

/-- The last declaration of a name decides on its place. -/
theorem variableOf?_of_last {ds es : List Declaration} {d : Declaration}
    (h : d.name ∉ es.map Declaration.name) :
    variableOf? (ds ++ d :: es).reverse d.name =
      some ⟨d.name, d.type, d.kind, UInt16.ofNat (countOf d.kind ds)⟩ := by
  induction es using List.reverseRecOn with
  | nil => rw [List.reverse_append, List.reverse_singleton, List.singleton_append, variableOf?,
      if_pos rfl, countOf_reverse]
  | append_singleton es e ih =>
    rw [List.map_append, List.mem_append, not_or] at h
    have he : ¬ e.name = d.name := fun heq => h.2 (List.mem_singleton.mpr heq.symm)
    rw [← List.cons_append, ← List.append_assoc, List.reverse_concat, variableOf?, if_neg he]
    exact ih h.1

namespace ClassDec

variable {tree : ClassDec} {o : Options} {s : SubroutineDec}

theorem length_arguments_le (hstatic : tree.Static o) (hs : s ∈ tree.subroutines) :
    s.parameters.length + s.kind.receivers ≤ 65535 := by
  have hle := (hstatic.inner hs).1 .argument
  rwa [tree.countOf_localDeclarations s rfl] at hle

theorem find?_parameter (h : s.Distinct) {i : Nat} {p : Parameter}
    (hp : s.parameters[i]? = some p) :
    (tree.names s).find? p.name.token.lexeme = some ⟨p.name.token.lexeme, p.type.token.lexeme,
      .argument, UInt16.ofNat (i + s.kind.receivers)⟩ := by
  obtain ⟨hi, rfl⟩ := List.getElem?_eq_some_iff.mp hp
  let p := s.parameters[i]
  -- The declarations of the subroutine, split at the parameter: no later one has its name, and
  -- those before it are the receiver and the parameters before it.
  let before := tree.receiverDeclarations s ++ (s.parameters.take i).map Parameter.declaration
  let after := (s.parameters.drop (i + 1)).map Parameter.declaration ++
    s.locals.flatMap (Declared.declarations .local)
  have hsplit : s.parameters = s.parameters.take i ++ p :: s.parameters.drop (i + 1) := by
    rw [← List.drop_eq_getElem_cons hi, List.take_append_drop]
  have hlocals : tree.localDeclarations s = before ++ p.declaration :: after := by
    rw [localDeclarations, hsplit]
    simp [before, after]
  have hlast : p.declaration.name ∉ after.map Declaration.name := by
    rw [SubroutineDec.Distinct, hsplit] at h
    simp only [List.map_append, List.map_cons, List.append_assoc, List.cons_append] at h
    rw [List.map_append]
    exact (List.nodup_cons.mp (List.nodup_append.mp h).2.1).1
  have hcount : countOf .argument before = i + s.kind.receivers := by
    have hlength : (s.parameters.take i).length = i := List.length_take_of_le (Nat.le_of_lt hi)
    rw [countOf_append, countOf_receiverDeclarations, countOf_parameters, if_pos rfl, hlength,
      Nat.add_comm]
    simp [SubroutineKind.receivers]
  rw [tree.find?_names s, hlocals]
  show (variableOf? _ p.declaration.name).or _ = _
  rw [variableOf?_of_last hlast]
  show some _ = some _
  rw [← hcount]
  rfl

/-! ## What the subroutine finds -/

/-- What the subroutine is called with is where its block looks for it. -/
structure Receives (tree : ClassDec) (o : Options) (s : SubroutineDec) (b : CodeBlock) : Prop where
  name : b.name = tree.name.token.lexeme ++ "." ++ s.name.token.lexeme
  fits : s.parameters.length + s.kind.receivers ≤ 65535
  /-- An access to a parameter is one to the argument at its place. -/
  parameter : s.Distinct → ∀ i p, s.parameters[i]? = some p → ∀ before a after name code,
    s.body.script = before ++ [.act a] ++ after → a.access? = some (name, code) →
      name.lexeme = p.name.token.lexeme →
      ∃ v : Variable, v.segment = .argument ∧ v.index.toNat = i + s.kind.receivers ∧
        tree.Emits o s b before [.act a] (code v)
  field : ∀ before a after name code v, s.body.script = before ++ [.act a] ++ after →
    a.access? = some (name, code) → (tree.names s).find? name.lexeme = some v →
      v.kind = .field → v.segment = .this ∧ tree.Emits o s b before [.act a] (code v)
  this : ∀ before after, s.body.script = before ++ [.act (.pushWord .this)] ++ after →
    tree.Emits o s b before [.act (.pushWord .this)] [.push .pointer 0]
  untouched : ∀ before a after, s.body.script = before ++ [.act a] ++ after → a.access? = none →
    ∃ code, tree.Emits o s b before [.act a] code ∧ ∀ i ∈ code, i.touchesVariable = false
  /-- A method that is set up takes its object from the first argument, and keeps it. -/
  object : o.objectSetup = true → s.kind = .method →
    [.push .argument 0, .pop .pointer 0] <+: b.body ∧
      ∀ (World : Type) (w : Callees World) (start : Machine.State World) (n : Nat)
        (d : Machine.Config World),
        Machine.run w b.body (n + 2) ⟨b.body, start⟩ = some d →
          d.state.store.object = start.store.arguments 0

theorem emits_access (hstatic : tree.Static o) (hcount : tree.Countable)
    (hs : s ∈ tree.subroutines)
    {before after : Script} {a : Action} (hx : s.body.script = before ++ [.act a] ++ after)
    {name : Token} {code : Variable → List Instruction} (ha : a.access? = some (name, code))
    {v : Variable} (hv : (tree.names s).find? name.lexeme = some v) :
    tree.Emits o s (tree.block o s) before [.act a] (code v) := by
  obtain ⟨d, e, r, hd, hr, hemits⟩ := exists_emits hstatic hcount hs hx
  rw [← hd] at hv
  obtain ⟨effects, heffects, hcode⟩ := performAll_singleton_iff.mp hr
  rw [perform_access ha hv] at heffects
  cases heffects
  rw [Yields.filterMap_emit] at hcode
  rwa [hcode]

theorem not_popObject_bodyCode (hstatic : tree.Static o) (hs : s ∈ tree.subroutines) :
    ∀ i ∈ tree.bodyCode o s, i ≠ .pop .pointer 0 := by
  intro i hi
  have husual := Block.usual_code (hstatic.body hs) (tree.labelScope o s) 0 0 i hi
  cases husual with
  | @store _ v => cases hkind : v.kind <;> simp [storeCode, Variable.segment, hkind,
      VariableKind.segment]
  | _ => simp [pushConstant, loadCode]

theorem setup_method (ho : o.objectSetup = true) (hkind : s.kind = .method) :
    tree.setup o s = [.push .argument 0, .pop .pointer 0] := by
  rw [setup, if_pos ho, hkind]
  rfl

theorem object_block (hstatic : tree.Static o) (hs : s ∈ tree.subroutines)
    (ho : o.objectSetup = true) (hkind : s.kind = .method) {World : Type} {w : Callees World}
    {start : Machine.State World} {n : Nat} {d : Machine.Config World}
    (h : Machine.run w (tree.block o s).body (n + 2) ⟨(tree.block o s).body, start⟩ = some d) :
    d.state.store.object = start.store.arguments 0 := by
  have hbody : (tree.block o s).body =
      [.push .argument 0, .pop .pointer 0] ++ tree.bodyCode o s :=
    congrArg (· ++ tree.bodyCode o s) (setup_method ho hkind)
  rw [hbody] at h
  let ready : Machine.State World := { start with store.object := start.store.arguments 0 }
  have hrest : Machine.run w ([.push .argument 0, .pop .pointer 0] ++ tree.bodyCode o s) n
      ⟨tree.bodyCode o s, ready⟩ = some d := h
  exact Machine.object_of_run (by decide) (not_popObject_bodyCode hstatic hs)
    (List.suffix_refl _) hrest

theorem receives_block (hstatic : tree.Static o) (hcount : tree.Countable)
    (hs : s ∈ tree.subroutines) : tree.Receives o s (tree.block o s) where
  name := rfl
  fits := length_arguments_le hstatic hs
  parameter hdistinct i p hp before a after name code hx ha hname := by
    have hv := tree.find?_parameter hdistinct hp
    rw [← hname] at hv
    refine ⟨_, rfl, ?_, emits_access hstatic hcount hs hx ha hv⟩
    have hi := (List.getElem?_eq_some_iff.mp hp).1
    have hfits := length_arguments_le hstatic hs
    -- The index is a word, as all arguments of the subroutine have found a place.
    exact UInt16.toNat_ofNat_of_lt' (by simp only [UInt16.size]; omega)
  field before a after name code v hx ha hv hkind := by
    refine ⟨?_, emits_access hstatic hcount hs hx ha hv⟩
    rw [Variable.segment, hkind]
    rfl
  this before after hx :=
    (emits_of_yields hstatic hcount hs hx (fun _ => wordCode .this) (R := fun _ => True)
      fun _ => .emit rfl rfl).1
  untouched before a after hx ha := by
    obtain ⟨d, e, code, -, hcode, hemits⟩ := exists_emits hstatic hcount hs hx
    have hin : a.inBody = true := by
      have hbody := s.body.inBody
      rw [Script.InBody, hx] at hbody
      exact hbody a (by simp)
    exact ⟨code, hemits, touchesVariable_of_access hin ha hcode⟩
  object ho hkind := by
    refine ⟨?_, fun World w start n d h => object_block hstatic hs ho hkind h⟩
    have hsetup : tree.setup o s = _ := setup_method ho hkind
    rw [← hsetup]
    exact List.prefix_append _ _

end ClassDec

/-! ## What the caller passes -/

def Arguments.toList : Arguments → List Expression
  | .nil => []
  | .cons first rest => first :: rest.toList

theorem Arguments.code_eq (names : Names) (e : Arguments) :
    e.code names = e.toList.flatMap (Expression.code names) := by
  induction e using Arguments.toList.induct with
  | case1 => rfl
  | case2 first rest ih => rw [code, toList, List.flatMap_cons, ih]

/-- The call, with names as in `names`, is one of the subroutine `f` of the class. Before the
arguments it pushes the given code. -/
inductive CallName.Calls (names : Names) (callee : ClassDec) (f : SubroutineDec) :
    CallName → List Instruction → Prop
  | own {name : Name} (hkind : f.kind = .method)
      (hclass : names.className = callee.name.token.lexeme)
      (hname : name.token.lexeme = f.name.token.lexeme) :
      Calls names callee f (.own name) [.push .pointer 0]
  | object {qualifier name : Name} {v : Variable} (hkind : f.kind = .method)
      (hv : names.find? qualifier.token.lexeme = some v)
      (htype : v.type = callee.name.token.lexeme)
      (hname : name.token.lexeme = f.name.token.lexeme) :
      Calls names callee f (.member qualifier name) [.push v.segment v.index]
  | named {qualifier name : Name} (hkind : f.kind ≠ .method)
      (hclass : qualifier.token.lexeme = callee.name.token.lexeme)
      (hnone : names.find? qualifier.token.lexeme = none)
      (hname : name.token.lexeme = f.name.token.lexeme) :
      Calls names callee f (.member qualifier name) []

namespace CallName.Calls

variable {names : Names} {callee : ClassDec} {f : SubroutineDec} {target : CallName}
  {receiver : List Instruction}

theorem receiver_eq (h : target.Calls names callee f receiver) :
    names.receiver target = receiver := by
  cases h with
  | own => rfl
  | object hkind hv => rw [Names.receiver, Names.access, hv]; rfl
  | named hkind hclass hnone => rw [Names.receiver, Names.access, hnone]

theorem receivers_eq (h : target.Calls names callee f receiver) :
    names.receivers target = f.kind.receivers := by
  cases h with
  | own hkind => rw [SubroutineKind.receivers, if_pos hkind]; rfl
  | object hkind hv => rw [SubroutineKind.receivers, if_pos hkind, Names.receivers, hv]; rfl
  | named hkind hclass hnone =>
    rw [SubroutineKind.receivers, if_neg hkind, Names.receivers, hnone]; rfl

theorem calleeName_eq (h : target.Calls names callee f receiver) :
    names.calleeName target = callee.subroutineName f := by
  cases h with
  | own hkind hclass hname => rw [Names.calleeName, hclass, hname]; rfl
  | object hkind hv htype hname =>
    simp only [Names.calleeName, hv, htype, hname]
    rfl
  | named hkind hclass hnone hname =>
    rw [Names.calleeName, hnone, hclass, hname]
    rfl

end CallName.Calls

namespace ClassDec

/-- What a call of `f` passes stands where the block of `f` looks for it. -/
structure Passes (tree : ClassDec) (o : Options) (callee : ClassDec) (f s : SubroutineDec)
    (b : CodeBlock) : Prop where
  value : ∀ before e after, s.body.script = before ++ Expression.script e ++ after →
    tree.Emits o s b before e.script (e.code (tree.names s))
  stands : ∀ site ∈ s.body.calls, site.Stands s.body.script
  /-- The object is pushed first, then the arguments in order; the call counts them all. -/
  call : ∀ before target arguments after receiver,
    s.body.script =
        before ++ CallName.script target arguments.script (Arguments.length arguments) ++ after →
      target.Calls (tree.names s) callee f receiver →
      ∃ count : UInt16, count.toNat = arguments.length + f.kind.receivers ∧
        tree.Emits o s b before (target.script arguments.script arguments.length)
          (receiver ++ arguments.toList.flatMap (Expression.code (tree.names s)) ++
            [.call (callee.name.token.lexeme ++ "." ++ f.name.token.lexeme) count])

variable {tree : ClassDec} {o : Options} {s : SubroutineDec}

theorem passes_block (hstatic : tree.Static o) (hcount : tree.Countable)
    (hs : s ∈ tree.subroutines) (callee : ClassDec) (f : SubroutineDec) :
    tree.Passes o callee f s (tree.block o s) where
  value before e after hx :=
    (emits_of_yields hstatic hcount hs hx (fun names => e.code names)
      (R := fun names => AllCountable names e.calls) fun c => e.yields o c).1
  stands := s.body.stands
  call before target arguments after receiver hx hcalls := by
    obtain ⟨hemits, hcountable⟩ := emits_of_yields hstatic hcount hs hx
      (fun names => names.receiver target ++ arguments.code names ++
        names.call target arguments.length)
      (R := fun names => AllCountable names (⟨target, arguments.length⟩ :: arguments.calls))
      fun c => target.yields arguments.length (arguments.yields o c)
    have hfits := (allCountable_cons.mp hcountable).1
    have htoNat := hfits.toNat_eq
    have hcode := hfits.call_eq
    simp only [hcalls.receivers_eq, hcalls.calleeName_eq] at htoNat hcode
    rw [hcalls.receiver_eq, arguments.code_eq, hcode] at hemits
    exact ⟨_, htoNat, hemits⟩

end ClassDec

/-! ## Programs -/

theorem calling_convention {o o' : Options} {source source' : String} {out out' : Compiled}
    {caller callee : ClassDec} (h : compile o source = .ok out) (hcaller : caller.Heads source)
    (h' : compile o' source' = .ok out') (hcallee : callee.Heads source') :
    List.Forall₂ (callee.Receives o') callee.subroutines (splitBlocks out'.program).2 ∧
      ∀ f ∈ callee.subroutines,
        List.Forall₂ (caller.Passes o callee f) caller.subroutines (splitBlocks out.program).2 := by
  have hstatic := static_of_compile h hcaller
  have hstatic' := static_of_compile h' hcallee
  rw [program_of_compile h hcaller, program_of_compile h' hcallee, caller.splitBlocks_code o,
    callee.splitBlocks_code o']
  simp only [List.forall₂_map_right_iff, List.forall₂_same]
  exact ⟨fun s hs => ClassDec.receives_block hstatic' (countable_of_compile h' hcallee) hs,
    fun f _ s hs => ClassDec.passes_block hstatic (countable_of_compile h hcaller) hs callee f⟩

theorem VariableKind.inClass_field : VariableKind.field.inClass = true :=
  rfl

def setterSource : String :=
  "class A \x7b field int x; method A f(int d) \x7b let x = d; return this; \x7d " ++
    "function int g(int a, int b) \x7b return b; \x7d \x7d"

def setterClass : ClassDec :=
  let name (index : Nat) (text : String) : Name :=
    ⟨⟨.ident, ⟨index, 1⟩, text⟩, List.mem_singleton_self _⟩
  let read (index : Nat) (text : String) : Expression := .mk (.var (name index text)) .nil
  have hint : Terminal.keyword .int ∈ variableTypes := by decide
  let int (index : Nat) : Leaf variableTypes := ⟨⟨.keyword .int, ⟨index, 3⟩, "int"⟩, hint⟩
  let setter : SubroutineDec :=
    { kind := .method
      result := ⟨⟨.ident, ⟨30, 1⟩, "A"⟩, by decide⟩
      name := name 32 "f"
      parameters := [⟨int 34, name 38 "d"⟩]
      locals := []
      body := .let_ (.var (name 47 "x")) (read 51 "d")
        (.return_ (some (.mk (.word .this) .nil)) .empty) }
  let second : SubroutineDec :=
    { kind := .function
      result := ⟨⟨.keyword .int, ⟨78, 3⟩, "int"⟩, by decide⟩
      name := name 82 "g"
      parameters := [⟨int 84, name 88 "a"⟩, ⟨int 91, name 95 "b"⟩]
      locals := []
      body := .return_ (some (read 107 "b")) .empty }
  ⟨name 6 "A", [⟨.field, VariableKind.inClass_field, ⟨int 16, name 20 "x", []⟩⟩], [setter, second]⟩

theorem heads_setterClass : setterClass.Heads setterSource := by
  refine ⟨(tokenize setterSource).take 40, (tokenize setterSource).drop 40, ?_, ?_⟩
  · rw [List.take_append_drop]
  · decide +kernel

theorem calling_convention_setterClass : ∃ out out',
    compile {} loopSource = .ok out ∧ loopClass.Heads loopSource ∧
      compile { objectSetup := true } setterSource = .ok out' ∧ setterClass.Heads setterSource ∧
      (∀ f ∈ setterClass.subroutines, f.Distinct) ∧
      List.Forall₂ (setterClass.Receives { objectSetup := true }) setterClass.subroutines
        (splitBlocks out'.program).2 ∧
      ∀ f ∈ setterClass.subroutines,
        List.Forall₂ (loopClass.Passes {} setterClass f) loopClass.subroutines
          (splitBlocks out.program).2 := by
  obtain ⟨out, hout⟩ := exists_compile_loopSource
  have hcompiles : ∃ out, compile { objectSetup := true } setterSource = .ok out := by
    rw [exists_compile_iff]
    decide +kernel
  obtain ⟨out', hout'⟩ := hcompiles
  have hdistinct : ∀ f ∈ setterClass.subroutines, f.Distinct := by decide +kernel
  exact ⟨out, out', hout, heads_loopClass, hout', heads_setterClass, hdistinct,
    calling_convention hout heads_loopClass hout' heads_setterClass⟩

end JackCompiler
