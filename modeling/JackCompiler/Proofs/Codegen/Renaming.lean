import Mathlib.Data.List.Flatten
import JackCompiler.Proofs.Codegen.Occurrences
import JackCompiler.Proofs.Codegen.Placement
import JackCompiler.Proofs.Codegen.Rows
import JackCompiler.Proofs.Token.Respelling

/-!
# Local names are private

The program of a class does not show what the parameters and local variables of a subroutine
are called: when one of them is called by another name wherever it stands, the class is
compiled to the same program (`local_names_private`).
-/

namespace JackCompiler

/-! ## Names -/

def rename (x y name : String) : String :=
  if name = x then y else name

theorem rename_self (x y : String) : rename x y x = y :=
  if_pos rfl

theorem rename_of_ne {x y name : String} (h : name ≠ x) : rename x y name = name :=
  if_neg h

theorem rename_inj {x y m n : String} (hm : m ≠ y) (hn : n ≠ y) :
    rename x y m = rename x y n ↔ m = n := by
  unfold rename
  split <;> split <;> grind

def Variable.unnamed (v : Variable) : Variable :=
  { v with name := "" }

/-! ## Scopes -/

structure Scope.Renames (x y : String) (s t : Scope) : Prop where
  counts : t.counts = s.counts
  find : ∀ name, name ≠ y →
    (t.find? (rename x y name)).map Variable.unnamed = (s.find? name).map Variable.unnamed

namespace Scope.Renames

variable {x y : String} {s t : Scope}

theorem empty (x y : String) : Scope.Renames x y .empty .empty :=
  ⟨rfl, fun name _ => by rw [find?_empty, find?_empty]⟩

theorem isSome_find? (h : s.Renames x y t) {name : String} (hname : name ≠ y) :
    (t.find? (rename x y name)).isSome = (s.find? name).isSome := by
  rw [← Option.isSome_map, h.find name hname, Option.isSome_map]

theorem declare? (h : s.Renames x y t) {name type : String} {kind : VariableKind} {v : Variable}
    {s' : Scope} (hname : name ≠ y) (hs : s.declare? name type kind = some (v, s')) :
    ∃ w t', t.declare? (rename x y name) type kind = some (w, t') ∧ s'.Renames x y t' := by
  have hfind := find?_of_declare? hs
  simp only [Scope.declare?] at hs ⊢
  rw [h.counts]
  split at hs
  · cases hs
  · rename_i hfree
    obtain ⟨rfl, rfl⟩ := Prod.mk.inj (Option.some.inj hs)
    have hdeclare : t.declare? (rename x y name) type kind = _ := if_neg (by rwa [h.counts])
    have hfind' := find?_of_declare? hdeclare
    rw [h.counts] at hfind'
    refine ⟨_, _, if_neg hfree, rfl, fun other hother => ?_⟩
    rw [hfind, hfind']
    by_cases heq : name = other
    · rw [if_pos heq, if_pos (by rw [heq])]
      rfl
    · rw [if_neg heq, if_neg (mt (rename_inj hname hother).mp heq)]
      exact h.find other hother

theorem count_eq {scopes : Scopes} (h : scopes.inner.Renames x y t) :
    Scopes.count { scopes with inner := t } .local = scopes.count .local :=
  congrArg (Counts.get · .local) h.counts

end Scope.Renames

/-! ## Knowledge -/

/-- The same is known, but the variable `x` of the subroutine is called `y` in the second. -/
def Context.Renames (x y : String) (c d : Context) : Prop :=
  ∃ scope, d = { c with scopes := { c.scopes with inner := scope } } ∧
    c.scopes.inner.Renames x y scope

namespace Context.Renames

variable {x y : String} {c c' d : Context}

theorem sameClass (h : c.Renames x y c') : c.SameClass c' := by
  obtain ⟨scope, rfl, -⟩ := h
  exact ⟨rfl, rfl, rfl⟩

theorem declare (h : c.Renames x y c') {name type : String} {kind : VariableKind}
    (hkind : kind.inClass = false) (hname : name ≠ y) (hd : c.declare name type kind = .ok d) :
    ∃ d', c'.declare (rename x y name) type kind = .ok d' ∧ d.Renames x y d' := by
  obtain ⟨scope, rfl, hscope⟩ := h
  obtain ⟨hdup, v, s', hs, rfl⟩ := (declare_eq_ok_iff hkind).mp hd
  obtain ⟨w, t', ht, hrenames⟩ := hscope.declare? hname hs
  refine ⟨_, (declare_eq_ok_iff hkind).mpr ⟨?_, w, t', ht, rfl⟩, t', rfl, hrenames⟩
  rwa [hscope.isSome_find? hname]

theorem find (h : c.Renames x y c') (hx : (c.scopes.inner.find? x).isSome = true) {name : String}
    (hname : name ≠ y) :
    (c'.scopes.find? (rename x y name)).map Variable.unnamed =
      (c.scopes.find? name).map Variable.unnamed := by
  obtain ⟨scope, rfl, hscope⟩ := h
  have hinner := hscope.find name hname
  simp only [Scopes.find?]
  cases hs : c.scopes.inner.find? name with
  | some v =>
    rw [hs] at hinner
    obtain ⟨w, hw, hsame⟩ := Option.map_eq_some_iff.mp hinner
    simp [hw, hsame]
  | none =>
    have hne : name ≠ x := by
      rintro rfl
      rw [hs] at hx
      cases hx
    rw [hs] at hinner
    rw [Option.map_eq_none_iff.mp hinner, rename_of_ne hne]

theorem find_some (h : c.Renames x y c') (hx : (c.scopes.inner.find? x).isSome = true)
    {name : String} (hname : name ≠ y) {v : Variable} (hv : c.scopes.find? name = some v) :
    ∃ other, c'.scopes.find? (rename x y name) = some { v with name := other } := by
  have hfind := h.find hx hname
  rw [hv] at hfind
  obtain ⟨⟨other, type, kind, index⟩, hw, hsame⟩ := Option.map_eq_some_iff.mp hfind
  cases hsame
  exact ⟨other, hw⟩

theorem find_none (h : c.Renames x y c') (hx : (c.scopes.inner.find? x).isSome = true)
    {name : String} (hname : name ≠ y) (hv : c.scopes.find? name = none) :
    rename x y name = name ∧ c'.scopes.find? name = none := by
  have hne : name ≠ x := by
    rintro rfl
    obtain ⟨v, hsome⟩ := Option.isSome_iff_exists.mp hx
    rw [Scopes.find?, hsome] at hv
    cases hv
  have hfind := h.find hx hname
  rw [hv, rename_of_ne hne] at hfind
  exact ⟨rename_of_ne hne, Option.map_eq_none_iff.mp hfind⟩

end Context.Renames

/-! ## Actions -/

/-- The tokens are exchanged for such as have `y` for the variable `x`, and for no other use. -/
structure Respells (f : Token → Token) (x y : String) (os : List Occurrence) : Prop where
  renamed : ∀ t, ⟨.variable, t⟩ ∈ os → f t = { t with lexeme := rename x y t.lexeme }
  other : ∀ role t, ⟨role, t⟩ ∈ os → role ≠ .variable → f t = t
  fresh : ∀ t, ⟨.variable, t⟩ ∈ os → t.lexeme ≠ y

theorem Respells.mono {f : Token → Token} {x y : String} {os os' : List Occurrence}
    (h : Respells f x y os) (hsub : os' ⊆ os) : Respells f x y os' :=
  ⟨fun t ht => h.renamed t (hsub ht), fun role t ht => h.other role t (hsub ht),
    fun t ht => h.fresh t (hsub ht)⟩

theorem Callee.map_eq_self {f : Token → Token} {callee : Callee}
    (h : ∀ o ∈ callee.occurrences, f o.token = o.token) : callee.map f = callee := by
  cases callee <;> simp_all [Callee.map, occurrences]

theorem Action.map_eq_self {f : Token → Token} {a : Action}
    (h : ∀ o ∈ a.occurrences, f o.token = o.token) : a.map f = a := by
  cases a with
  | pushReceiver callee => exact congrArg _ (Callee.map_eq_self h)
  | call callee arguments => exact congrArg (Action.call · arguments) (Callee.map_eq_self h)
  | _ => simp_all [Action.map, occurrences]

section

variable {o : Options} {x y : String} {f : Token → Token} {c c' d : Context} {a : Action}
  {effects : List Effect}

theorem receiverCode_renamed (h : c.Renames x y c')
    (hx : (c.scopes.inner.find? x).isSome = true) {callee : Callee}
    (hf : Respells f x y callee.occurrences) {code : List Instruction}
    (hcode : receiverCode o c callee = .ok code) :
    receiverCode o c' (callee.map f) = .ok code := by
  cases callee with
  | own name => exact hcode
  | member qualifier name =>
    have hq : Occurrence.mk .variable qualifier ∈ (Callee.member qualifier name).occurrences :=
      List.mem_cons_self
    simp only [Callee.map, receiverCode, hf.renamed _ hq] at hcode ⊢
    cases hs : c.scopes.find? qualifier.lexeme with
    | some v =>
      obtain ⟨other, hw⟩ := h.find_some hx (hf.fresh _ hq) hs
      rw [hs] at hcode
      rw [hw]
      exact hcode
    | none =>
      obtain ⟨hname, hnone⟩ := h.find_none hx (hf.fresh _ hq) hs
      rw [hs] at hcode
      rw [hname, hnone]
      obtain ⟨scope, rfl, -⟩ := h
      exact hcode

theorem callCode_renamed (h : c.Renames x y c') (hx : (c.scopes.inner.find? x).isSome = true)
    {callee : Callee} (hf : Respells f x y callee.occurrences) (count : Nat) :
    callCode c' count (callee.map f) = callCode c count callee := by
  cases callee with
  | own name =>
    have hname : f name = name := hf.other _ _ List.mem_cons_self (by decide)
    obtain ⟨scope, rfl, -⟩ := h
    rw [Callee.map, hname]
    rfl
  | member qualifier name =>
    have hq : Occurrence.mk .variable qualifier ∈ (Callee.member qualifier name).occurrences :=
      List.mem_cons_self
    have hname : f name = name :=
      hf.other _ _ (List.mem_cons_of_mem _ List.mem_cons_self) (by decide)
    simp only [Callee.map, callCode, hf.renamed _ hq, hname]
    cases hs : c.scopes.find? qualifier.lexeme with
    | some v =>
      obtain ⟨other, hw⟩ := h.find_some hx (hf.fresh _ hq) hs
      rw [hw]
    | none =>
      obtain ⟨hsame, hnone⟩ := h.find_none hx (hf.fresh _ hq) hs
      rw [hsame, hnone]

/-- In statements the variable may be called `y`, as long as the subroutine declares it. -/
theorem perform_renamed (ha : a.inBody = true) (hf : Respells f x y a.occurrences)
    (h : c.Renames x y c') (hx : (c.scopes.inner.find? x).isSome = true)
    (hp : perform o c a = .ok (d, effects)) :
    ∃ d', perform o c' (a.map f) = .ok (d', effects) ∧ d.Renames x y d' ∧ d.scopes = c.scopes := by
  cases a with
  | nameClass | declare | startSubroutine | receiveObject | nameSubroutine | startBody
  | endBody => cases ha
  | resolve name | load name | store name | loadElement name | addressElement name =>
    have hmem := List.mem_singleton_self (Occurrence.mk .variable name)
    simp only [perform, Action.map, Context.resolve, hf.renamed _ hmem] at hp ⊢
    cases hv : c.scopes.find? name.lexeme with
    | none => rw [hv] at hp; cases hp
    | some v =>
      -- The variable found under the other name has the same place, which is all that the code
      -- shows.
      obtain ⟨other, hw⟩ := h.find_some hx (hf.fresh _ hmem) hv
      rw [hv] at hp
      cases hp
      rw [hw]
      exact ⟨c', rfl, h, rfl⟩
  | pushReceiver callee =>
    simp only [perform] at hp
    cases hr : receiverCode o c callee with
    | error fault => rw [hr] at hp; cases hp
    | ok code =>
      rw [hr] at hp
      cases hp
      refine ⟨c', ?_, h, rfl⟩
      simp only [perform, Action.map, receiverCode_renamed h hx hf hr]
      rfl
  | countArguments count =>
    simp only [perform] at hp
    cases hn : argumentCount count <;> rw [hn] at hp <;> cases hp
    refine ⟨c', ?_, h, rfl⟩
    simp only [perform, Action.map, hn]
    rfl
  | call callee count =>
    simp only [perform, Action.map, callCode_renamed h hx hf] at hp ⊢
    cases hn : callCode c count callee <;> rw [hn] at hp <;> cases hp
    exact ⟨c', rfl, h, rfl⟩
  | pushInteger literal =>
    have hliteral : f literal = literal := hf.other _ _ (List.mem_singleton_self _) (by decide)
    simp only [perform, Action.map, hliteral] at hp ⊢
    cases hv : integerValue? literal.lexeme <;> rw [hv] at hp <;> cases hp
    exact ⟨c', rfl, h, rfl⟩
  | pushText literal =>
    have hliteral : f literal = literal := hf.other _ _ (List.mem_singleton_self _) (by decide)
    simp only [perform, Action.map, hliteral] at hp ⊢
    cases ht : textCode? literal <;> rw [ht] at hp <;> cases hp
    exact ⟨c', rfl, h, rfl⟩
  | _ =>
    cases hp
    obtain ⟨scope, rfl, hscope⟩ := h
    exact ⟨_, rfl, ⟨scope, rfl, hscope⟩, rfl⟩

def Action.inFrame : Action → Bool
  | .declare kind _ _ => !kind.inClass
  | .receiveObject => true
  | .nameSubroutine _ => true
  | .startBody _ => true
  | .endBody _ => true
  | _ => false

theorem perform_renamed_frame (ha : a.inFrame = true) (hf : Respells f x y a.occurrences)
    (hx : "this" ≠ x) (hy : "this" ≠ y) (h : c.Renames x y c')
    (hp : perform o c a = .ok (d, effects)) :
    ∃ d', perform o c' (a.map f) = .ok (d', effects) ∧ d.Renames x y d' := by
  cases a with
  | declare kind type name =>
    have htype : f type = type := hf.other _ _ List.mem_cons_self (by decide)
    have hmem : Occurrence.mk .variable name ∈ (Action.declare kind type name).occurrences :=
      List.mem_cons_of_mem _ List.mem_cons_self
    have hkind : kind.inClass = false := by simpa [Action.inFrame] using ha
    simp only [perform, Action.map, htype, hf.renamed _ hmem] at hp ⊢
    cases hd : c.declare name.lexeme type.lexeme kind with
    | error fault => rw [hd] at hp; cases hp
    | ok e =>
      obtain ⟨d', hd', hrenames⟩ := h.declare hkind (hf.fresh _ hmem) hd
      rw [hd] at hp
      cases hp
      rw [hd']
      exact ⟨d', rfl, hrenames⟩
  | receiveObject =>
    have hclass : c'.className = c.className := h.sameClass.className
    simp only [perform, Action.map, hclass] at hp ⊢
    cases hd : c.declare "this" c.className .argument with
    | error fault => rw [hd] at hp; cases hp
    | ok e =>
      obtain ⟨d', hd', hrenames⟩ := h.declare rfl hy hd
      -- The object is declared under its own name on both sides.
      rw [rename_of_ne hx] at hd'
      rw [hd] at hp
      cases hp
      rw [hd']
      exact ⟨d', rfl, hrenames⟩
  | nameSubroutine name =>
    have hname : f name = name := hf.other _ _ List.mem_cons_self (by decide)
    cases hp
    obtain ⟨scope, rfl, hscope⟩ := h
    simp only [Action.map, hname]
    exact ⟨_, rfl, scope, rfl, hscope⟩
  | startBody kind =>
    cases hp
    obtain ⟨scope, rfl, hscope⟩ := h
    refine ⟨_, ?_, scope, rfl, hscope⟩
    simp only [perform, Action.map, hscope.count_eq]
    rfl
  | endBody kind =>
    cases hp
    obtain ⟨scope, rfl, hscope⟩ := h
    refine ⟨_, ?_, scope, rfl, hscope⟩
    simp only [perform, Action.map, hscope.count_eq]
  | _ => cases ha

/-- A run goes as another one if each of its steps does. -/
theorem performAll_map_of_step {R : Context → Context → Prop} {g : Action → Action}
    {as : List Action} {p : List Instruction}
    (hstep : ∀ a ∈ as, ∀ {c c' d effects}, R c c' → perform o c a = .ok (d, effects) →
      ∃ d', perform o c' (g a) = .ok (d', effects) ∧ R d d')
    (hR : R c c') (h : performAll o c as = .ok (d, p)) :
    ∃ d', performAll o c' (as.map g) = .ok (d', p) ∧ R d d' := by
  induction as generalizing c c' p with
  | nil =>
    obtain ⟨rfl, rfl⟩ := performAll_nil_iff.mp h
    exact ⟨c', rfl, hR⟩
  | cons a as ih =>
    obtain ⟨ha, has⟩ := List.forall_mem_cons.mp hstep
    obtain ⟨c₁, effects, q, hfirst, hrest, rfl⟩ := performAll_cons_iff.mp h
    obtain ⟨c₁', hfirst', hR₁⟩ := ha hR hfirst
    obtain ⟨d', hrest', hR'⟩ := ih has hR₁ hrest
    exact ⟨d', performAll_cons_iff.mpr ⟨c₁', effects, q, hfirst', hrest', rfl⟩, hR'⟩

theorem performAll_renamed {as : List Action} {p : List Instruction}
    (has : ∀ a ∈ as, a.inBody = true) (hf : ∀ a ∈ as, Respells f x y a.occurrences)
    (h : c.Renames x y c') (hx : (c.scopes.inner.find? x).isSome = true)
    (hp : performAll o c as = .ok (d, p)) :
    ∃ d', performAll o c' (as.map (Action.map f)) = .ok (d', p) ∧ d.Renames x y d' := by
  let R (c c' : Context) : Prop := c.Renames x y c' ∧ (c.scopes.inner.find? x).isSome = true
  have hstep : ∀ a ∈ as, ∀ {c c' d effects}, R c c' → perform o c a = .ok (d, effects) →
      ∃ d', perform o c' (a.map f) = .ok (d', effects) ∧ R d d' := by
    intro a ha c c' d effects hR hperform
    obtain ⟨d', hd', hrenames, hscopes⟩ := perform_renamed (has a ha) (hf a ha) hR.1 hR.2 hperform
    exact ⟨d', hd', hrenames, hscopes ▸ hR.2⟩
  obtain ⟨d', hd', hR⟩ := performAll_map_of_step hstep ⟨h, hx⟩ hp
  exact ⟨d', hd', hR.1⟩

theorem performAll_renamed_frame {as : List Action} {p : List Instruction}
    (has : ∀ a ∈ as, a.inFrame = true) (hf : ∀ a ∈ as, Respells f x y a.occurrences)
    (hx : "this" ≠ x) (hy : "this" ≠ y) (h : c.Renames x y c')
    (hp : performAll o c as = .ok (d, p)) :
    ∃ d', performAll o c' (as.map (Action.map f)) = .ok (d', p) ∧ d.Renames x y d' :=
  performAll_map_of_step
    (fun a ha _ _ _ _ hR => perform_renamed_frame (has a ha) (hf a ha) hx hy hR) h hp

end

/-! ## Subroutines -/

abbrev Script.InFrame (p : Script) : Prop :=
  ∀ a ∈ p.actions, a.inFrame = true

theorem Script.inFrame_flatMap {α : Type} {g : α → Script} (h : ∀ x, (g x).InFrame)
    (xs : List α) : Script.InFrame (xs.flatMap g) := by
  rw [InFrame, actions, List.filterMap_flatMap, List.forall_mem_flatMap]
  exact fun x _ => h x

theorem inFrame_nameScript {kind : VariableKind} (hkind : kind.inClass = false) (type : Token)
    (name : Name) : (nameScript kind type name).InFrame :=
  List.forall_mem_singleton.mpr (by rw [Action.inFrame, hkind]; rfl)

theorem inFrame_locals (d : Declared) : (localsScript d).InFrame := by
  have hname : ∀ name, (nameScript .local d.type.token name).InFrame :=
    inFrame_nameScript rfl d.type.token
  have hmore : (moreNamesScript .local d.type.token d.more).InFrame :=
    Script.inFrame_flatMap (g := fun name => .mark .comma :: nameScript _ _ name) hname d.more
  have hall := List.forall_mem_append.mpr ⟨hname d.first, hmore⟩
  simpa [Script.InFrame, localsScript, Declared.script] using hall

theorem inFrame_parameters (ps : List Parameter) : (parametersScript ps).InFrame := by
  have hparameter : ∀ p : Parameter, p.script.InFrame := fun p =>
    inFrame_nameScript rfl p.type.token p.name
  cases ps with
  | nil => exact List.forall_mem_nil _
  | cons p ps =>
    have hmore : (moreParametersScript ps).InFrame :=
      Script.inFrame_flatMap (g := fun p => .mark .comma :: Parameter.script p) hparameter ps
    have hall := List.forall_mem_append.mpr ⟨hparameter p, hmore⟩
    simpa [Script.InFrame, parametersScript] using hall

namespace SubroutineDec

def localNames (s : SubroutineDec) : List Name :=
  s.parameters.map Parameter.name ++ s.locals.flatMap fun d => d.first :: d.more

def mentions (s : SubroutineDec) (name : String) : List Token :=
  (s.occurrences.filter fun o => o.role = .variable ∧ o.token.lexeme = name).map Occurrence.token

/-- The source that the subroutine is in, with `y` where `x` stands for a variable in it. -/
def renameIn (s : SubroutineDec) (x y source : String) : String :=
  respell ((s.mentions x).map Token.span) y source

variable {s : SubroutineDec} {o : Options} {x y : String} {f : Token → Token}
  {c c₁ d : Context} {p q : List Instruction}

theorem respells_actions (hf : Respells f x y s.occurrences) {as : List Action}
    (has : as ⊆ s.script.actions) : ∀ a ∈ as, Respells f x y a.occurrences :=
  fun a ha => hf.mono (s.plays (List.Subset.refl _) a (has ha))

theorem performAll_opening_renamed (hf : Respells f x y s.occurrences) (hx : "this" ≠ x)
    (hy : "this" ≠ y) (hp : performAll o c s.opening.actions = .ok (d, p)) :
    ∃ d', performAll o c (s.opening.actions.map (Action.map f)) = .ok (d', p) ∧
      d.Renames x y d' := by
  have hsub : s.opening.actions ⊆ s.script.actions := by
    rw [s.script_eq, Script.actions_append, Script.actions_append, List.append_assoc]
    exact List.subset_append_left _ _
  have hreceive : ∀ a ∈ (if s.kind = .method then [.receiveObject] else [] : List Action),
      a.inFrame = true := by
    split <;> simp [Action.inFrame]
  rw [s.actions_opening] at hp hsub ⊢
  rw [List.cons_append, performAll_silent (c := c) _ rfl] at hp
  rw [List.cons_append, List.map_cons, performAll_silent (c := c) _ rfl]
  rw [List.cons_append, List.cons_subset] at hsub
  have hopened : Context.Renames x y c.opened c.opened := ⟨.empty, rfl, .empty x y⟩
  refine performAll_renamed_frame ?_ (respells_actions hf hsub.2) hx hy hopened hp
  simp only [List.forall_mem_append, List.forall_mem_cons]
  exact ⟨⟨hreceive, rfl, inFrame_parameters _,
    Script.inFrame_flatMap inFrame_locals _⟩, rfl, List.forall_mem_nil _⟩

theorem performAll_renamed (hf : Respells f x y s.occurrences) (hx : "this" ≠ x)
    (hy : "this" ≠ y) (hopening : performAll o c s.opening.actions = .ok (c₁, q))
    (hdeclared : (c₁.scopes.inner.find? x).isSome = true)
    (hp : performAll o c s.script.actions = .ok (d, p)) :
    ∃ d', performAll o c (s.script.actions.map (Action.map f)) = .ok (d', p) ∧
      d.Renames x y d' := by
  have hactions : s.script.actions = s.opening.actions ++
      (s.body.script.actions ++ s.closing.actions) := by
    rw [s.script_eq, Script.actions_append, Script.actions_append, List.append_assoc]
  have hsub : s.script.actions ⊆ s.script.actions := List.Subset.refl _
  nth_rewrite 1 [hactions] at hsub
  rw [List.append_subset, List.append_subset] at hsub
  rw [hactions] at hp ⊢
  obtain ⟨c₂, q₁, _, hfirst, hrest, rfl⟩ := performAll_append_iff.mp hp
  obtain ⟨c₃, q₂, q₃, hbody, hend, rfl⟩ := performAll_append_iff.mp hrest
  obtain ⟨rfl, -⟩ := Prod.mk.inj (Except.ok.inj (hopening.symm.trans hfirst))
  obtain ⟨c₁', hfirst', hrenames⟩ := performAll_opening_renamed hf hx hy hfirst
  obtain ⟨c₃', hbody', hrenames⟩ := JackCompiler.performAll_renamed s.body.inBody
    (respells_actions hf hsub.2.1) hrenames hdeclared hbody
  obtain ⟨d', hend', hrenames⟩ := performAll_renamed_frame
    (List.forall_mem_singleton.mpr rfl) (respells_actions hf hsub.2.2) hx hy hrenames hend
  refine ⟨d', ?_, hrenames⟩
  rw [List.map_append, List.map_append]
  exact performAll_append_iff.mpr ⟨c₁', q₁, _, hfirst',
    performAll_append_iff.mpr ⟨c₃', q₂, q₃, hbody', hend', rfl⟩, rfl⟩

theorem mem_mentions_iff {name : String} {t : Token} :
    t ∈ s.mentions name ↔ ⟨.variable, t⟩ ∈ s.occurrences ∧ t.lexeme = name := by
  simp only [mentions, List.mem_map, List.mem_filter, decide_eq_true_eq]
  constructor
  · rintro ⟨⟨role, t⟩, ⟨ho, rfl, hname⟩, rfl⟩
    exact ⟨ho, hname⟩
  · rintro ⟨ht, hname⟩
    exact ⟨⟨.variable, t⟩, ⟨ht, rfl, hname⟩, rfl⟩

/-- Each token stands in one position, so that just the mentions of `x` are exchanged. -/
theorem respells_mentions (hnodup : (s.occurrences.map Occurrence.token).Nodup)
    (hfresh : ∀ t, ⟨.variable, t⟩ ∈ s.occurrences → t.lexeme ≠ y) :
    Respells (Token.respelled (s.mentions x) y) x y s.occurrences := by
  refine ⟨fun t ht => ?_, fun role t ht hrole => ?_, hfresh⟩
  · by_cases hx : t.lexeme = x
    · rw [Token.respelled_of_mem (mem_mentions_iff.mpr ⟨ht, hx⟩), hx, rename_self]
    · have hno : t ∉ s.mentions x := fun hmem => hx (mem_mentions_iff.mp hmem).2
      rw [Token.respelled_of_not_mem hno, rename_of_ne hx]
  · have hno : t ∉ s.mentions x := by
      intro hmem
      have hsame := List.inj_on_of_nodup_map hnodup ht (mem_mentions_iff.mp hmem).1 rfl
      exact hrole (congrArg Occurrence.role hsame)
    exact Token.respelled_of_not_mem hno y

end SubroutineDec

/-! ## Classes -/

theorem Script.map_actions_eq_self {f : Token → Token} {p : Script} {os : List Occurrence}
    (hp : p.Plays os) (hos : ∀ o ∈ os, f o.token = o.token) :
    p.actions.map (Action.map f) = p.actions :=
  (List.map_congr_left fun a ha => Action.map_eq_self fun o ho => hos o (hp a ha ho)).trans
    (List.map_id _)

section

variable {tree : ClassDec} {s : SubroutineDec} {o : Options} {x y : String} {f : Token → Token}

theorem performAll_subroutines_congr {ss : List SubroutineDec} {c c' d : Context}
    {p : List Instruction} (h : c.SameClass c')
    (hp : performAll o c (Script.actions (ss.flatMap SubroutineDec.script)) = .ok (d, p)) :
    ∃ d', performAll o c' (Script.actions (ss.flatMap SubroutineDec.script)) = .ok (d', p) := by
  cases ss with
  | nil =>
    obtain ⟨-, rfl⟩ := performAll_nil_iff.mp hp
    exact ⟨c', rfl⟩
  | cons s ss =>
    rw [List.flatMap_cons, Script.actions_append] at hp ⊢
    obtain ⟨e, q, r, hfirst, hrest, rfl⟩ := performAll_append_iff.mp hp
    rw [← s.performAll_congr h] at hfirst
    exact ⟨d, performAll_append_iff.mpr ⟨e, q, r, hfirst, hrest, rfl⟩⟩

theorem ClassDec.AtBody.declares {c : Context} {name : Name} (h : tree.AtBody o s c)
    (hname : name ∈ s.localNames) :
    (c.scopes.inner.find? name.token.lexeme).isSome = true := by
  rw [h.knows.scopes.inner.find, variableOf?_isSome, List.mem_map]
  have hlocal : ∃ d ∈ tree.localDeclarations s, d.name = name.token.lexeme := by
    rcases List.mem_append.mp hname with hname | hname
    · obtain ⟨p, hp, rfl⟩ := List.mem_map.mp hname
      refine ⟨p.declaration, ?_, rfl⟩
      exact List.mem_append_left _ (List.mem_append_right _ (List.mem_map_of_mem hp))
    · obtain ⟨l, hl, hname⟩ := List.mem_flatMap.mp hname
      refine ⟨⟨.local, l.type.token.lexeme, name.token.lexeme⟩, ?_, rfl⟩
      exact List.mem_append_right _ (List.mem_flatMap.mpr
        ⟨l, hl, List.mem_map.mpr ⟨name, hname, rfl⟩⟩)
  obtain ⟨d, hd, hsame⟩ := hlocal
  exact ⟨d, List.mem_reverse.mpr hd, hsame⟩

theorem token_notMem_of_nodup {before os behind : List Occurrence}
    (h : ((before ++ (os ++ behind)).map Occurrence.token).Nodup) :
    ∀ o ∈ before ++ behind, o.token ∉ os.map Occurrence.token := by
  simp only [List.map_append, List.nodup_append] at h
  obtain ⟨-, ⟨-, -, hbehind⟩, hbefore⟩ := h
  intro o ho hmem
  rcases List.mem_append.mp ho with ho | ho
  · exact hbefore _ (List.mem_map_of_mem ho) _ (List.mem_append_left _ hmem) rfl
  · exact hbehind _ hmem _ (List.mem_map_of_mem ho) rfl

/-- The other name is good for the subroutine, and the actions of the rest stay the same. -/
theorem ClassDec.performAll_renamed (hstatic : tree.Static o) (hcount : tree.Countable)
    (hs : s ∈ tree.subroutines) {name : Name} (hname : name ∈ s.localNames)
    (hnodup : (tree.occurrences.map Occurrence.token).Nodup)
    (hf : Respells f name.token.lexeme y s.occurrences)
    (hother : ∀ t, t ∉ s.occurrences.map Occurrence.token → f t = t)
    (hx : "this" ≠ name.token.lexeme) (hy : "this" ≠ y) {d : Context} {p : List Instruction}
    (hp : performAll o (.initial o) tree.script.actions = .ok (d, p)) :
    ∃ d', performAll o (.initial o) (tree.script.actions.map (Action.map f)) = .ok (d', p) := by
  obtain ⟨c, ⟨ss, rest, code, hss, hopening⟩, hbody⟩ := exists_enters hstatic hcount hs
  -- The subroutine stands between a front and a back, of which no token is exchanged.
  let before := headOccurrences tree.name tree.variableDecs ++
    ss.flatMap SubroutineDec.occurrences
  let behind := rest.flatMap SubroutineDec.occurrences
  let front := headScript tree.name tree.variableDecs ++ ss.flatMap SubroutineDec.script
  let back := rest.flatMap SubroutineDec.script
  have hactions : tree.script.actions =
      front.actions ++ (s.script.actions ++ Script.actions back) := by
    simp [script_eq, hss, front, back, endScript]
  have hkept : ∀ o ∈ before ++ behind, f o.token = o.token := by
    have hoccurrences : tree.occurrences = before ++ (s.occurrences ++ behind) := by
      simp [occurrences, hss, before, behind]
    rw [hoccurrences] at hnodup
    exact fun o ho => hother o.token (token_notMem_of_nodup hnodup o ho)
  rw [List.forall_mem_append] at hkept
  have hfront : front.Plays before :=
    (Script.plays_append_iff _ _).mpr ⟨plays_header (List.subset_append_left _ _),
      Script.plays_flatMap (fun t ht => t.plays ht) (List.subset_append_right _ _)⟩
  have hback : Script.Plays back behind :=
    Script.plays_flatMap (fun t ht => t.plays ht) (List.Subset.refl _)
  rw [hactions] at hp ⊢
  obtain ⟨c₁, q₁, _, hstart, hpart, rfl⟩ := performAll_append_iff.mp hp
  -- The context of the opening is the one that the whole run reaches there.
  obtain ⟨c₂, q₂, q₃, hmiddle, hend, rfl⟩ := performAll_append_iff.mp hpart
  rw [opening, Script.actions_append] at hopening
  obtain ⟨_, _, q, hstart', hopening, -⟩ := performAll_append_iff.mp hopening
  obtain ⟨rfl, -⟩ := Prod.mk.inj (Except.ok.inj (hstart.symm.trans hstart'))
  obtain ⟨c₂', hmiddle', hrenames⟩ :=
    SubroutineDec.performAll_renamed hf hx hy hopening (hbody.declares hname) hmiddle
  obtain ⟨d', hend'⟩ := performAll_subroutines_congr hrenames.sameClass hend
  refine ⟨d', ?_⟩
  rw [List.map_append, List.map_append, Script.map_actions_eq_self hfront hkept.1,
    Script.map_actions_eq_self hback hkept.2]
  exact performAll_append_iff.mpr ⟨c₁, q₁, _, hstart,
    performAll_append_iff.mpr ⟨c₂', q₂, q₃, hmiddle', hend', rfl⟩, rfl⟩

end

/-! ## Sources -/

theorem unplaced_generateFrom_map (o : Options) (c : Context) (es : List Event) :
    (generateFrom o #[] c (es.map (Event.map Token.unplaced))).unplaced =
      (generateFrom o #[] c es).unplaced := by
  induction es generalizing c with
  | nil => rfl
  | cons e es ih =>
    rw [List.map_cons, unplaced_generateFrom_cons, unplaced_generateFrom_cons, stepUnplaced_map]
    cases stepUnplaced o c e with
    | error fault => rfl
    | ok result =>
      simp only
      rw [ih]

section

variable {o : Options} {source source' : String} {tree : ClassDec} {f : Token → Token}

theorem history_unplaced_of_content (hf : ∀ t, (f t).kind = t.kind)
    (h : (tokenize source').map Token.content = (tokenize source).map fun t => (f t).content) :
    (history o source').unplaced =
      (generateFrom o #[] (.initial o)
        ((descend classItems (tokenize source)).1.map (Event.map f))).unplaced := by
  have htokens : (tokenize source').map Token.unplaced =
      ((tokenize source).map f).map Token.unplaced := by
    rw [map_unplaced_eq_iff, h, List.map_map]
    rfl
  have hdescend := descend_map hf classItems (tokenize source)
  have hunplaced := descend_map (f := Token.unplaced) (fun _ => rfl) classItems
    ((tokenize source).map f)
  rw [show classItems.map (Item.map f) = classItems from rfl] at hdescend
  rw [show classItems.map (Item.map Token.unplaced) = classItems from rfl] at hunplaced
  rw [history_unplaced, htokens, hunplaced, unplaced_generateFrom_map, hdescend]

theorem Event.isFault_map (f : Token → Token) (e : Event) : (e.map f).isFault = e.isFault := by
  cases e <;> rfl

theorem ClassDec.Heads.exists_compile (htree : tree.Heads source)
    (hf : ∀ t, (f t).kind = t.kind)
    (h : (tokenize source').map Token.content = (tokenize source).map fun t => (f t).content)
    {d : Context} {p : List Instruction}
    (hp : performAll o (.initial o) (tree.script.actions.map (Action.map f)) = .ok (d, p)) :
    ∃ out, compile o source' = .ok out ∧ out.program = p := by
  have hshown := history_unplaced_of_content (o := o) hf h
  obtain ⟨u, rest, hu, es, hreads⟩ := htree
  rw [hu, (descends_class hreads rest).descend_eq] at hshown
  have hes : ∀ e ∈ es.map (Event.map f), e.isFault = false := by
    rw [List.forall_mem_map]
    intro e he
    rw [Event.isFault_map, hreads.not_isFault e he]
  rw [← hreads.actions, ← filterMap_action_map] at hp
  obtain ⟨hnone, hprogram⟩ := generateFrom_ok_iff.mpr ⟨hes, d, hp⟩
  have hfault : (history o source').fault.map Fault.unplaced = none := by
    have hsame := congrArg Prod.fst hshown
    rwa [History.unplaced, History.unplaced, hnone] at hsame
  rw [History.program_eq, ← hshown, ← History.program_eq] at hprogram
  exact ⟨⟨p, _⟩, compile_eq_ok_iff.mpr
    ⟨⟨Option.map_eq_none_iff.mp hfault, hprogram⟩, rfl⟩, rfl⟩

theorem ClassDec.Heads.sublist_tokens (htree : tree.Heads source) :
    (tree.occurrences.map Occurrence.token).Sublist (tokenize source) := by
  obtain ⟨u, rest, hu, es, hreads⟩ := htree
  rw [hu, ← tree.tokens_script]
  exact hreads.sublist_tokens.trans (List.sublist_append_left u rest)

end

theorem SubroutineDec.mem_occurrences {s : SubroutineDec} {name : Name}
    (h : name ∈ s.localNames) : ⟨.variable, name.token⟩ ∈ s.occurrences := by
  simp only [occurrences, List.mem_append, List.mem_flatMap]
  rcases List.mem_append.mp h with h | h
  · obtain ⟨p, hp, rfl⟩ := List.mem_map.mp h
    exact .inl (.inl (.inr ⟨p, hp, List.mem_cons_of_mem _ List.mem_cons_self⟩))
  · obtain ⟨d, hd, h⟩ := List.mem_flatMap.mp h
    exact .inl (.inr ⟨d, hd, List.mem_cons_of_mem _ (List.mem_map_of_mem h)⟩)

theorem ne_this_of_spells {name : String} (h : Terminal.ident.Spells name.toList) :
    "this" ≠ name := by
  rintro rfl
  exact h.2 .this_ rfl

/-- A local name can be any identifier that the source has nowhere. With this one where it
stands for a variable, and all other tokens as they are, the program is the same. -/
theorem local_names_private {o : Options} {source y : String} {out : Compiled} {tree : ClassDec}
    {s : SubroutineDec} {name : Name} (hout : compile o source = .ok out)
    (htree : tree.Heads source) (hs : s ∈ tree.subroutines) (hname : name ∈ s.localNames)
    (hy : Terminal.ident.Spells y.toList)
    (hfresh : ∀ t ∈ tokenize source, t.kind = .ident → t.lexeme ≠ y) :
    (tokenize (s.renameIn name.token.lexeme y source)).map Token.content =
      (tokenize source).map (fun t => (t.respelled (s.mentions name.token.lexeme) y).content) ∧
    ∃ out', compile o (s.renameIn name.token.lexeme y source) = .ok out' ∧
      out'.program = out.program := by
  have hsublist := htree.sublist_tokens
  have hnodup := (nodup_tokenize source).sublist hsublist
  have hsub : s.occurrences.Sublist tree.occurrences := by
    have hrow := (List.singleton_sublist.mpr hs).flatMap SubroutineDec.occurrences
    rw [List.flatMap_singleton] at hrow
    exact hrow.trans (List.sublist_append_right _ _)
  have hvariable : ∀ t, ⟨.variable, t⟩ ∈ s.occurrences → t ∈ tokenize source ∧ t.kind = .ident :=
    fun t ht => ⟨hsublist.subset (List.mem_map_of_mem (hsub.subset ht)), s.fits _ ht rfl⟩
  have hmentions : ∀ t ∈ s.mentions name.token.lexeme, t ∈ tokenize source ∧ t.kind = .ident :=
    fun t ht => hvariable t (SubroutineDec.mem_mentions_iff.mp ht).1
  have hcontent := content_respell (fun t ht => (hmentions t ht).1)
    (fun t ht => (hmentions t ht).2) hy
  refine ⟨hcontent, ?_⟩
  -- A name that the source spells is an identifier, and no identifier is `this`.
  have hspells : Terminal.ident.Spells name.token.lexeme.toList := by
    obtain ⟨hmem, hkind⟩ := hvariable _ (SubroutineDec.mem_occurrences hname)
    have hspells := spells_of_mem_tokenize hmem
    rwa [hkind] at hspells
  have hrespells := SubroutineDec.respells_mentions (x := name.token.lexeme)
    (hnodup.sublist (hsub.map _)) fun t ht => hfresh t (hvariable t ht).1 (hvariable t ht).2
  have hother : ∀ t, t ∉ s.occurrences.map Occurrence.token →
      t.respelled (s.mentions name.token.lexeme) y = t := fun t ht =>
    Token.respelled_of_not_mem (fun hmem => ht
      (List.mem_map_of_mem (SubroutineDec.mem_mentions_iff.mp hmem).1)) y
  obtain ⟨d, hd⟩ := htree.compiles_iff.mp (compile_eq_ok_iff.mp hout).1
  obtain ⟨d', hd'⟩ := ClassDec.performAll_renamed (static_of_compile hout htree)
    (countable_of_compile hout htree) hs hname hnodup
    hrespells hother (ne_this_of_spells hspells) (ne_this_of_spells hy) hd
  exact htree.exists_compile (Token.kind_respelled _ y) hcontent hd'

def shadowText (x : String) : String :=
  "class A \x7b static int n; method int f(n " ++ x ++ ") \x7b let " ++ x ++ " = " ++ x ++
    ".n(" ++ x ++ "); return " ++ x ++ "; \x7d \x7d"

def shadowName (index : Nat) (text : String) : Name :=
  ⟨⟨.ident, ⟨index, 1⟩, text⟩, List.mem_singleton_self _⟩

def shadowMethod : SubroutineDec :=
  let read (index : Nat) : Expression := .mk (.var (shadowName index "n")) .nil
  let call : Expression := .mk (.call (.member (shadowName 52 "n") (shadowName 54 "n"))
    (.cons (read 56) .nil)) .nil
  { kind := .method
    result := ⟨⟨.keyword .int, ⟨31, 3⟩, "int"⟩, by decide⟩
    name := shadowName 35 "f"
    parameters := [⟨⟨⟨.ident, ⟨37, 1⟩, "n"⟩, by decide⟩, shadowName 39 "n"⟩]
    locals := []
    body := .let_ (.var (shadowName 48 "n")) call (.return_ (some (read 67)) .empty) }

def shadowClass : ClassDec :=
  let shared : Declared := ⟨⟨⟨.keyword .int, ⟨17, 3⟩, "int"⟩, by decide⟩, shadowName 21 "n", []⟩
  ⟨shadowName 6 "A", [⟨.static, rfl, shared⟩], [shadowMethod]⟩

theorem local_names_private_shadowText :
    shadowMethod.renameIn "n" "count" (shadowText "n") = shadowText "count" ∧
    ∃ out out', compile {} (shadowText "n") = .ok out ∧
      compile {} (shadowText "count") = .ok out' ∧ out'.program = out.program := by
  have htree : shadowClass.Heads (shadowText "n") := by
    refine ⟨(tokenize (shadowText "n")).take 30, (tokenize (shadowText "n")).drop 30, ?_, ?_⟩
    · rw [List.take_append_drop]
    · decide +kernel
  have hcompiles : ∃ out, compile {} (shadowText "n") = .ok out := by
    rw [exists_compile_iff]
    decide +kernel
  have hcount : Terminal.ident.Spells "count".toList :=
    ⟨⟨'c', "ount".toList, rfl, rfl, List.all_eq_true.mp rfl⟩, fun k => by cases k <;> decide⟩
  have hrename : shadowMethod.renameIn "n" "count" (shadowText "n") = shadowText "count" := by
    decide +kernel
  have hparameter : shadowName 39 "n" ∈ shadowMethod.localNames := List.mem_cons_self
  obtain ⟨out, hout⟩ := hcompiles
  obtain ⟨-, out', hout', hprogram⟩ := local_names_private hout htree
    (List.mem_singleton_self shadowMethod) hparameter hcount (by decide +kernel)
  refine ⟨hrename, out, out', hout, ?_, hprogram⟩
  rw [← hrename]
  exact hout'

end JackCompiler
