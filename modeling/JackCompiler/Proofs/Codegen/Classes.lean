import Mathlib.Data.List.Forall2
import JackCompiler.Proofs.Codegen.Generation

/-!
# Classes are compiled to their code

The actions of a class can be carried out just if it meets the static conditions and a word
holds the number of values that each call passes; they then emit the code of the class
(`ClassDec.performs`).
-/

namespace JackCompiler

/-! ## Declarations -/

/-- Knowledge that differs from `c` at most in the scopes, which know the declarations. -/
def Context.Learnt (c : Context) (k : Known) (d : Context) : Prop :=
  ∃ s : Scopes, d = { c with scopes := s } ∧ s.policy = c.scopes.policy ∧ s.Holds k

def Makes (o : Options) (className : String) (a : Action) (d : Declaration) : Prop :=
  ∀ c : Context, c.className = className →
    perform o c a = (do let c ← c.declare d.name d.type d.kind; return (c, []))

abbrev MakesAll (o : Options) (className : String) (as : List Action) (ds : List Declaration) :
    Prop :=
  List.Forall₂ (Makes o className) as ds

theorem declare_ne_overflow {Place : Type} (s : Scopes) (name type : String)
    (kind : VariableKind) : s.declare name type kind ≠ .error (.overflow : Fault Place) := by
  rw [Scopes.declare]
  split
  · simp
  · split <;> simp

theorem Makes.performs {o : Options} {a : Action} {d : Declaration} {c : Context} {k : Known}
    (h : Makes o c.className a d) (hc : c.scopes.Holds k) (hk : k.Fits c.scopes.policy) :
    Performs o c [a] ((k.declare d).Fits c.scopes.policy) True (c.Learnt (k.declare d)) [] := by
  rcases hc.declare_cases hk d with ⟨hfits, v, t, hd, hp, ht⟩ | ⟨hfits, fault, hd⟩
  · refine .inl ⟨⟨hfits, trivial⟩, { c with scopes := t }, ?_, t, rfl, hp, ht⟩
    rw [performAll_singleton_iff, h c rfl, Context.declare, hd]
    exact ⟨[], rfl, rfl⟩
  · refine .inr ⟨fault, performAll_singleton_error ?_, ?_⟩
    · rw [h c rfl, Context.declare, hd]
      rfl
    · cases fault with
      | overflow => exact (declare_ne_overflow _ _ _ _ hd).elim
      | _ => exact hfits

theorem MakesAll.performs {o : Options} {as : List Action} {ds : List Declaration} {c : Context}
    {k : Known} (h : MakesAll o c.className as ds) (hc : c.scopes.Holds k)
    (hk : k.Fits c.scopes.policy) :
    Performs o c as ((ds.foldl Known.declare k).Fits c.scopes.policy) True
      (c.Learnt (ds.foldl Known.declare k)) [] := by
  induction as generalizing ds c k with
  | nil =>
    cases h
    exact .inl ⟨⟨hk, trivial⟩, c, rfl, c.scopes, rfl, rfl, hc⟩
  | cons a as ih =>
    obtain ⟨d, ds, ha, has, rfl⟩ := List.forall₂_cons_left_iff.mp h
    -- A declaration changes the scopes and nothing else, so that the rest is made from there.
    have hrest : ∀ e, (k.declare d).Fits c.scopes.policy → c.Learnt (k.declare d) e →
        Performs o e as ((ds.foldl Known.declare (k.declare d)).Fits c.scopes.policy) True
          (c.Learnt (ds.foldl Known.declare (k.declare d))) [] := by
      intro e hfits he
      obtain ⟨s, rfl, hp, hs⟩ := he
      have htail := ih (c := { c with scopes := s }) has hs (by rw [hp]; exact hfits)
      rw [hp] at htail
      refine htail.mono Iff.rfl Iff.rfl fun e _ he => ?_
      obtain ⟨t, rfl, htp, ht⟩ := he
      exact ⟨t, rfl, htp.trans hp, ht⟩
    refine ((ha.performs hc hk).append fun e hfits _ => hrest e hfits).mono ?_ (and_self_iff)
      fun e _ he => he
    exact and_iff_right_of_imp fun hfits => hfits.of_declares

theorem makes_declare (o : Options) (className : String) (kind : VariableKind) (type name : Token) :
    Makes o className (.declare kind type name) ⟨kind, type.lexeme, name.lexeme⟩ :=
  fun _ _ => rfl

theorem makes_receiveObject (o : Options) (className : String) :
    Makes o className .receiveObject ⟨.argument, className, "this"⟩ := by
  intro c hc
  subst hc
  rfl

theorem MakesAll.append {o : Options} {className : String} {as bs : List Action}
    {ds es : List Declaration} (h : MakesAll o className as ds) (h' : MakesAll o className bs es) :
    MakesAll o className (as ++ bs) (ds ++ es) :=
  List.rel_append h h'

theorem MakesAll.flatMap {α : Type} {o : Options} {className : String} {f : α → Script}
    {g : α → List Declaration} (h : ∀ x, MakesAll o className (f x).actions (g x)) :
    ∀ xs : List α, MakesAll o className (Script.actions (xs.flatMap f)) (xs.flatMap g)
  | [] => .nil
  | x :: xs => by
    rw [List.flatMap_cons, List.flatMap_cons, Script.actions_append]
    exact (h x).append (flatMap h xs)

theorem Declared.makes (o : Options) (className : String) (kind : VariableKind) (d : Declared) :
    MakesAll o className (d.script kind).actions (d.declarations kind) := by
  have hname : ∀ name : Name,
      Makes o className (.declare kind d.type.token name.token)
        ⟨kind, d.type.token.lexeme, name.token.lexeme⟩ := fun name =>
    makes_declare o className kind d.type.token name.token
  have hmore : MakesAll o className (moreNamesScript kind d.type.token d.more).actions
      (d.more.flatMap fun name => [⟨kind, d.type.token.lexeme, name.token.lexeme⟩]) :=
    .flatMap (fun name => .cons (hname name) .nil) d.more
  rw [← List.map_eq_flatMap] at hmore
  have h : MakesAll o className _ _ := .cons (hname d.first) hmore
  simpa [Declared.script, Declared.declarations, nameScript] using h

theorem ClassVarDec.makes (o : Options) (className : String) (d : ClassVarDec) :
    MakesAll o className d.script.actions (d.declared.declarations d.kind) := by
  have h := d.declared.makes o className d.kind
  simpa [ClassVarDec.script] using h

theorem locals_make (o : Options) (className : String) (d : Declared) :
    MakesAll o className (localsScript d).actions (d.declarations .local) := by
  have h := d.makes o className .local
  simpa [localsScript] using h

theorem Parameter.makes (o : Options) (className : String) (p : Parameter) :
    MakesAll o className p.script.actions [p.declaration] :=
  .cons (makes_declare o className .argument p.type.token p.name.token) .nil

theorem parameters_make (o : Options) (className : String) (ps : List Parameter) :
    MakesAll o className (parametersScript ps).actions (ps.map Parameter.declaration) := by
  cases ps with
  | nil => exact .nil
  | cons p ps =>
    have hmore : MakesAll o className (moreParametersScript ps).actions
        (ps.flatMap fun p => [p.declaration]) :=
      .flatMap (fun p => p.makes o className) ps
    rw [← List.map_eq_flatMap] at hmore
    have h := (p.makes o className).append hmore
    simpa [parametersScript] using h

/-! ## Subroutines -/

structure ClassDec.Knows (tree : ClassDec) (o : Options) (k : Known) (c : Context) : Prop where
  className : c.className = tree.name.token.lexeme
  policy : c.scopes.policy = o.duplicates
  scopes : c.scopes.Holds k

def ClassDec.Ready (tree : ClassDec) (o : Options) (c : Context) : Prop :=
  ∃ inner, tree.Knows o ⟨tree.declarations.reverse, inner⟩ c

namespace ClassDec

variable {tree : ClassDec} {o : Options}

theorem Knows.of_learnt {c d : Context} {k k' : Known} (h : tree.Knows o k c)
    (hd : c.Learnt k' d) : tree.Knows o k' d := by
  obtain ⟨s, rfl, hp, hs⟩ := hd
  exact ⟨h.className, hp.trans h.policy, hs⟩

theorem Knows.performs {c : Context} {k : Known} (h : tree.Knows o k c) (hk : k.Fits o.duplicates)
    {as : List Action} {ds : List Declaration} (ha : MakesAll o tree.name.token.lexeme as ds) :
    Performs o c as ((ds.foldl Known.declare k).Fits o.duplicates) True
      (c.Learnt (ds.foldl Known.declare k)) [] := by
  rw [← h.className] at ha
  have hperforms := ha.performs h.scopes (by rw [h.policy]; exact hk)
  rwa [h.policy] at hperforms

theorem receiver_makes (s : SubroutineDec) :
    MakesAll o tree.name.token.lexeme (if s.kind = .method then [.receiveObject] else [])
      (tree.receiverDeclarations s) := by
  rw [receiverDeclarations]
  split
  · exact .cons (makes_receiveObject o tree.name.token.lexeme) .nil
  · exact .nil

theorem localDeclarations_kind (s : SubroutineDec) :
    ∀ d ∈ tree.localDeclarations s, d.kind.inClass = false := by
  intro d hd
  rw [localDeclarations, List.mem_append, List.mem_append, receiverDeclarations] at hd
  rcases hd with (hd | hd) | hd
  · split at hd
    · obtain rfl := List.mem_singleton.mp hd
      rfl
    · cases hd
  · obtain ⟨p, -, rfl⟩ := List.mem_map.mp hd
    rfl
  · obtain ⟨l, -, hd⟩ := List.mem_flatMap.mp hd
    obtain ⟨name, -, rfl⟩ := List.mem_map.mp hd
    rfl

theorem declares_known (s : SubroutineDec) :
    (s.parameters.map Parameter.declaration ++
        s.locals.flatMap (Declared.declarations .local)).foldl Known.declare
      ((tree.receiverDeclarations s).foldl Known.declare ⟨tree.declarations.reverse, []⟩) =
    tree.known s := by
  have h := Known.declares_inner (tree.localDeclarations s) ⟨tree.declarations.reverse, []⟩
    (localDeclarations_kind s)
  rw [List.append_nil] at h
  rw [← List.foldl_append, ← List.append_assoc]
  exact h

theorem fits_known_iff (s : SubroutineDec) (houter : Admissible o.duplicates tree.declarations) :
    (tree.known s).Fits o.duplicates ↔ Admissible o.duplicates (tree.localDeclarations s) := by
  rw [known, Known.Fits, admissible_reverse, admissible_reverse]
  exact and_iff_right houter

structure AtBody (tree : ClassDec) (o : Options) (s : SubroutineDec) (c : Context) : Prop where
  knows : tree.Knows o (tree.known s) c
  subroutine : c.subroutine = tree.subroutineName s
  ifs : c.ifs = 0
  whiles : c.whiles = 0

theorem performs_head (s : SubroutineDec) {c : Context} (hc : tree.Ready o c)
    (houter : Admissible o.duplicates tree.declarations) :
    Performs o c
      (.startSubroutine :: ((if s.kind = .method then [.receiveObject] else []) ++
        .nameSubroutine s.name.token :: ((parametersScript s.parameters).actions ++
        Script.actions (s.locals.flatMap localsScript))))
      (Admissible o.duplicates (tree.localDeclarations s)) True (tree.AtBody o s) [] := by
  obtain ⟨inner, hc⟩ := hc
  have hfits : Known.Fits ⟨tree.declarations.reverse, []⟩ o.duplicates :=
    ⟨admissible_reverse.mpr houter, fun kind => Nat.zero_le _, fun _ => .nil⟩
  -- `c₀` is the context when the subroutine has begun, `c₂` when it has its name.
  let c₀ : Context :=
    { c with scopes := c.scopes.startSubroutine, ifs := 0, whiles := 0, nesting := [] }
  have hc₀ : tree.Knows o ⟨tree.declarations.reverse, []⟩ c₀ :=
    ⟨hc.className, hc.policy, hc.scopes.startSubroutine⟩
  let k₁ := (tree.receiverDeclarations s).foldl Known.declare ⟨tree.declarations.reverse, []⟩
  have hrest : ∀ c₁, k₁.Fits o.duplicates → c₀.Learnt k₁ c₁ → Performs o c₁
      (.nameSubroutine s.name.token :: ((parametersScript s.parameters).actions ++
        Script.actions (s.locals.flatMap localsScript)))
      ((tree.known s).Fits o.duplicates) True (tree.AtBody o s) [] := by
    intro c₁ hk₁ hl₁
    have hc₁ := hc₀.of_learnt hl₁
    obtain ⟨scopes, rfl, -, -⟩ := hl₁
    let c₂ : Context := { c₀ with scopes, subroutine := memberText c₀.className s.name.token.lexeme }
    have hc₂ : tree.Knows o k₁ c₂ := ⟨hc₁.className, hc₁.policy, hc₁.scopes⟩
    have hlocals := hc₂.performs hk₁
      ((parameters_make o _ s.parameters).append (.flatMap (locals_make o _) s.locals))
    rw [declares_known] at hlocals
    refine .silent (d := c₂) rfl (hlocals.mono Iff.rfl Iff.rfl fun d _ hd => ?_)
    have hknows := hc₂.of_learnt hd
    obtain ⟨t, rfl, -, -⟩ := hd
    refine ⟨hknows, ?_, rfl, rfl⟩
    rw [subroutineName, ← hc.className]
  have hreceiver := (hc₀.performs hfits (receiver_makes s)).append fun c₁ hk₁ _ => hrest c₁ hk₁
  refine .silent (d := c₀) rfl (hreceiver.mono ?_ (and_self_iff) fun _ _ h => h)
  rw [← fits_known_iff s houter, ← declares_known]
  exact and_iff_right_of_imp fun h => h.of_declares

theorem AtBody.names_eq {s : SubroutineDec} {c : Context} (h : tree.AtBody o s c) :
    c.names = tree.names s := by
  rw [Context.names, names, h.knows.className]
  congr 1
  funext name
  exact h.knows.scopes.find name

theorem AtBody.labelScope_eq {s : SubroutineDec} {c : Context} (h : tree.AtBody o s c) :
    c.labelScope o = tree.labelScope o s := by
  rw [Context.labelScope, labelScope, h.subroutine]

theorem AtBody.performs_startBody {s : SubroutineDec} {c : Context} (h : tree.AtBody o s c)
    {as : List Action} {P R : Prop} {Q : Context → Prop} {p : List Instruction}
    (ha : Performs o c as P R Q p) :
    Performs o c (.startBody s.kind :: as) P R Q
      (.function (tree.subroutineName s) (UInt16.ofNat (countOf .local (tree.localDeclarations s))) ::
        (tree.setup o s ++ p)) := by
  have hlocals : c.scopes.count .local =
      UInt16.ofNat (countOf .local (tree.localDeclarations s)) := by
    rw [h.knows.scopes.count_eq]
    exact congrArg UInt16.ofNat (countOf_reverse ..)
  have hfields : c.scopes.count .field = UInt16.ofNat (countOf .field tree.declarations) := by
    rw [h.knows.scopes.count_eq]
    exact congrArg UInt16.ofNat (countOf_reverse ..)
  have hcons := Performs.cons (a := .startBody s.kind) rfl ha
  rw [Yields.filterMap_emit, hlocals, hfields, h.subroutine] at hcons
  exact hcons

end ClassDec

theorem SubroutineDec.actions_opening (s : SubroutineDec) :
    s.opening.actions =
      .startSubroutine :: ((if s.kind = .method then [.receiveObject] else []) ++
        .nameSubroutine s.name.token :: ((parametersScript s.parameters).actions ++
        Script.actions (s.locals.flatMap localsScript))) ++ [.startBody s.kind] := by
  have hreceiver : Script.actions (if s.kind = .method then [.act .receiveObject] else []) =
      if s.kind = .method then [.receiveObject] else [] := by
    split <;> rfl
  simp [opening, hreceiver]

theorem SubroutineDec.actions_eq (s : SubroutineDec) :
    s.script.actions =
      .startSubroutine :: ((if s.kind = .method then [.receiveObject] else []) ++
        .nameSubroutine s.name.token :: ((parametersScript s.parameters).actions ++
        Script.actions (s.locals.flatMap localsScript))) ++
      (.startBody s.kind :: (s.body.script.actions ++ [.endBody s.kind])) := by
  rw [s.script_eq, Script.actions_append, Script.actions_append, s.actions_opening]
  simp [closing]

namespace ClassDec

variable {tree : ClassDec} {o : Options}

theorem performs_subroutine (s : SubroutineDec) {c : Context} (hc : tree.Ready o c)
    (houter : Admissible o.duplicates tree.declarations) :
    Performs o c s.script.actions
      (Admissible o.duplicates (tree.localDeclarations s) ∧ s.body.Allowed o (tree.names s))
      (AllCountable (tree.names s) s.body.calls) (tree.Ready o) (tree.block o s).code := by
  rw [s.actions_eq]
  refine ((performs_head s hc houter).append fun c₁ _ _ h₁ => ?_).mono Iff.rfl
    (and_iff_right trivial) fun _ _ h => h
  have hbody := (s.body.yields o c₁).performs
  rw [h₁.names_eq, h₁.labelScope_eq, h₁.ifs, h₁.whiles] at hbody
  have hend : Performs o (c₁.after s.body) [.endBody s.kind] True True (tree.Ready o) [] := by
    have hready : tree.Ready o (c₁.after s.body) :=
      ⟨_, h₁.knows.className, h₁.knows.policy, h₁.knows.scopes⟩
    have hcons := Performs.cons (o := o) (c := c₁.after s.body) (a := .endBody s.kind) rfl
      (Performs.nil hready)
    exact hcons
  have hrest := hbody.append (S := tree.Ready o) (q := []) fun d _ _ hd => by
    rw [hd]
    exact hend
  have hall := h₁.performs_startBody
    (hrest.mono (and_iff_left trivial) (and_iff_left trivial) fun _ _ h => h)
  rw [List.append_nil] at hall
  exact hall

theorem performs_subroutines (houter : Admissible o.duplicates tree.declarations) :
    ∀ (ss : List SubroutineDec) {c : Context}, tree.Ready o c →
      Performs o c (Script.actions (ss.flatMap SubroutineDec.script))
        (∀ s ∈ ss, Admissible o.duplicates (tree.localDeclarations s) ∧
          s.body.Allowed o (tree.names s))
        (∀ s ∈ ss, AllCountable (tree.names s) s.body.calls)
        (tree.Ready o) (ss.flatMap fun s => (tree.block o s).code)
  | [], c, hc => (Performs.nil hc).mono (by simp) (by simp) fun _ _ h => h
  | s :: ss, c, hc => by
    have h := (performs_subroutine s hc houter).append fun d _ _ hd =>
      performs_subroutines houter ss hd
    rw [List.flatMap_cons, List.flatMap_cons, Script.actions_append]
    exact h.mono (by rw [List.forall_mem_cons]) (by rw [List.forall_mem_cons]) fun _ _ h => h

theorem declarations_kind : ∀ d ∈ tree.declarations, d.kind.inClass = true := by
  intro d hd
  obtain ⟨v, -, hd⟩ := List.mem_flatMap.mp hd
  obtain ⟨name, -, rfl⟩ := List.mem_map.mp hd
  exact v.inClass

theorem performs (tree : ClassDec) (o : Options) :
    Performs o (.initial o) tree.script.actions (tree.Static o) tree.Countable (tree.Ready o)
      (tree.code o) := by
  let c₀ : Context := { Context.initial o with className := tree.name.token.lexeme }
  have hc₀ : tree.Knows o ⟨[], []⟩ c₀ := ⟨rfl, rfl, .empty o.duplicates⟩
  have hknown : tree.declarations.foldl Known.declare ⟨[], []⟩ =
      ⟨tree.declarations.reverse, []⟩ := by
    rw [Known.declares_outer _ _ declarations_kind, List.append_nil]
  have hfits : Known.Fits ⟨tree.declarations.reverse, []⟩ o.duplicates ↔
      Admissible o.duplicates tree.declarations := by
    rw [Known.Fits, admissible_reverse]
    exact and_iff_left (.nil o.duplicates)
  have hvariables := hc₀.performs (.nil o.duplicates)
    (.flatMap (fun d => d.makes o tree.name.token.lexeme) tree.variableDecs)
  have hrest := (hvariables.append (S := tree.Ready o) (q := tree.code o) fun d hd _ hl => by
    have hready := hc₀.of_learnt hl
    have houter := hfits.mp (hknown ▸ hd)
    exact performs_subroutines houter tree.subroutines ⟨[], hknown ▸ hready⟩)
  have hactions : tree.script.actions = .nameClass tree.name.token ::
      (Script.actions (tree.variableDecs.flatMap ClassVarDec.script) ++
        Script.actions (tree.subroutines.flatMap SubroutineDec.script)) := by
    simp [ClassDec.script]
  rw [hactions]
  have hstatic : (tree.declarations.foldl Known.declare ⟨[], []⟩).Fits o.duplicates ∧
      (∀ s ∈ tree.subroutines, Admissible o.duplicates (tree.localDeclarations s) ∧
        s.body.Allowed o (tree.names s)) ↔ tree.Static o := by
    rw [hknown, hfits, static_iff]
  have hcons := Performs.cons (o := o) (c := .initial o) (a := .nameClass tree.name.token) (d := c₀)
    rfl (hrest.mono hstatic (and_iff_right trivial) fun _ _ h => h)
  exact hcons

end ClassDec

end JackCompiler
