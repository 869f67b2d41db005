import JackCompiler.Proofs.Codegen.Classes
import JackCompiler.Proofs.Codegen.Outcomes

/-!
# Subroutines are apart

What a subroutine is compiled to depends on what is known of its class alone, and that is
the same behind it (`SubroutineDec.performAll_congr`, `SubroutineDec.sameClass`). So a row of
subroutines is compiled as each of them would be at the beginning of the row.
-/

namespace JackCompiler

structure Context.SameClass (c d : Context) : Prop where
  className : d.className = c.className
  policy : d.scopes.policy = c.scopes.policy
  outer : d.scopes.outer = c.scopes.outer

namespace Context

theorem SameClass.refl (c : Context) : c.SameClass c :=
  ⟨rfl, rfl, rfl⟩

theorem SameClass.trans {c d e : Context} (h : c.SameClass d) (h' : d.SameClass e) :
    c.SameClass e :=
  ⟨h'.className.trans h.className, h'.policy.trans h.policy, h'.outer.trans h.outer⟩

def opened (c : Context) : Context :=
  { c with scopes := c.scopes.startSubroutine, ifs := 0, whiles := 0, nesting := [] }

theorem SameClass.opened_eq {c d : Context} (h : c.SameClass d) :
    d.opened = { c.opened with subroutine := d.subroutine } := by
  obtain ⟨_, _, ⟨_, _, _⟩, _, _, _⟩ := c
  obtain ⟨_, _, ⟨_, _, _⟩, _, _, _⟩ := d
  obtain ⟨rfl, rfl, rfl⟩ := h
  rfl

end Context

/-! ## Before the name of the subroutine -/

theorem performAll_silent {o : Options} {c d : Context} {a : Action} (as : List Action)
    (h : perform o c a = .ok (d, [])) : performAll o c (a :: as) = performAll o d as := by
  rw [performAll, h]
  simp only [bind, Except.bind]
  cases performAll o d as <;> rfl

section Named

variable (o : Options) (c : Context) (subroutine : String) (name : Token) (as : List Action)

theorem performAll_nameSubroutine :
    performAll o { c with subroutine } (.nameSubroutine name :: as) =
      performAll o c (.nameSubroutine name :: as) := by
  rw [performAll_silent as rfl, performAll_silent as rfl]

theorem performAll_receiveObject :
    performAll o { c with subroutine } (.receiveObject :: .nameSubroutine name :: as) =
      performAll o c (.receiveObject :: .nameSubroutine name :: as) := by
  cases h : (c.scopes.declare "this" c.className .argument : Except (Fault Nat) _) with
  | error fault =>
    have hperform : ∀ s, perform o { c with subroutine := s } .receiveObject = .error fault := by
      intro s
      simp only [perform, Context.declare, h]
      rfl
    rw [performAll, performAll, hperform, hperform c.subroutine]
  | ok result =>
    have hperform : ∀ s, perform o { c with subroutine := s } .receiveObject =
        .ok ({ c with subroutine := s, scopes := result.2 }, []) := by
      intro s
      simp only [perform, Context.declare, h]
      rfl
    rw [performAll_silent _ (hperform subroutine), performAll_silent _ (hperform c.subroutine)]
    exact performAll_nameSubroutine o { c with scopes := result.2 } subroutine name as

end Named

namespace SubroutineDec

variable {o : Options} {c d : Context}

theorem performAll_congr (s : SubroutineDec) (h : c.SameClass d) :
    performAll o d s.script.actions = performAll o c s.script.actions := by
  rw [s.actions_eq, List.cons_append, performAll_silent (c := d) _ rfl,
    performAll_silent (c := c) _ rfl]
  show performAll o d.opened _ = performAll o c.opened _
  rw [h.opened_eq]
  split
  · exact performAll_receiveObject o c.opened d.subroutine s.name.token _
  · exact performAll_nameSubroutine o c.opened d.subroutine s.name.token _

end SubroutineDec

/-! ## Behind the subroutine -/

theorem Context.declare_eq_ok_iff {c d : Context} {name type : String} {kind : VariableKind}
    (hkind : kind.inClass = false) :
    c.declare name type kind = .ok d ↔
      ¬ (c.scopes.policy = .reject ∧ (c.scopes.inner.find? name).isSome = true) ∧
      ∃ v scope, c.scopes.inner.declare? name type kind = some (v, scope) ∧
        d = { c with scopes := { c.scopes with inner := scope } } := by
  have howner : c.scopes.owner kind = c.scopes.inner := by simp [Scopes.owner, hkind]
  unfold declare Scopes.declare
  rw [howner]
  by_cases hdup : c.scopes.policy = .reject ∧ (c.scopes.inner.find? name).isSome = true
  · simp only [if_pos hdup]
    exact iff_of_false (fun h => by cases h) fun h => h.1 hdup
  · simp only [if_neg hdup]
    cases hd : c.scopes.inner.declare? name type kind with
    | none => exact iff_of_false (fun h => by cases h) (by simp)
    | some result =>
      obtain ⟨v, scope⟩ := result
      simp only [Scopes.setOwner, hkind]
      refine ⟨fun h => ⟨hdup, v, scope, rfl, (Except.ok.inj h).symm⟩, fun h => ?_⟩
      obtain ⟨-, _, _, hsome, rfl⟩ := h
      cases hsome
      rfl

theorem Context.sameClass_of_declare {c d : Context} {name type : String} {kind : VariableKind}
    (hkind : kind.inClass = false) (h : c.declare name type kind = .ok d) : c.SameClass d := by
  obtain ⟨-, _, _, -, rfl⟩ := (declare_eq_ok_iff hkind).mp h
  exact ⟨rfl, rfl, rfl⟩

theorem MakesAll.sameClass {o : Options} {as : List Action} {ds : List Declaration}
    {c d : Context} {p : List Instruction} (h : MakesAll o c.className as ds)
    (hds : ∀ d ∈ ds, d.kind.inClass = false) (hd : performAll o c as = .ok (d, p)) :
    c.SameClass d := by
  induction as generalizing ds c p with
  | nil =>
    obtain ⟨rfl, -⟩ := performAll_nil_iff.mp hd
    exact .refl _
  | cons a as ih =>
    obtain ⟨e, es, ha, has, rfl⟩ := List.forall₂_cons_left_iff.mp h
    obtain ⟨hkind, hkinds⟩ := List.forall_mem_cons.mp hds
    obtain ⟨c₁, effects, q, hfirst, hrest, -⟩ := performAll_cons_iff.mp hd
    have hsame : c.SameClass c₁ := by
      rw [ha c rfl] at hfirst
      cases hdeclare : c.declare e.name e.type e.kind with
      | error fault => rw [hdeclare] at hfirst; cases hfirst
      | ok c₂ =>
        rw [hdeclare] at hfirst
        cases hfirst
        exact Context.sameClass_of_declare hkind hdeclare
    exact hsame.trans (ih (by rw [hsame.className]; exact has) hkinds hrest)

namespace SubroutineDec

variable {o : Options} {c d : Context} {p : List Instruction}

theorem parameters_kind (s : SubroutineDec) :
    ∀ d ∈ s.parameters.map Parameter.declaration ++
      s.locals.flatMap (Declared.declarations .local), d.kind.inClass = false := by
  intro d hd
  rcases List.mem_append.mp hd with hd | hd
  · obtain ⟨p, -, rfl⟩ := List.mem_map.mp hd
    rfl
  · obtain ⟨l, -, hd⟩ := List.mem_flatMap.mp hd
    obtain ⟨name, -, rfl⟩ := List.mem_map.mp hd
    rfl

theorem sameClass (s : SubroutineDec) (h : performAll o c s.script.actions = .ok (d, p)) :
    c.SameClass d := by
  rw [s.actions_eq] at h
  obtain ⟨c₄, _, _, hhead, htail, -⟩ := performAll_append_iff.mp h
  obtain ⟨c₁, _, _, hstart, hhead, -⟩ := performAll_cons_iff.mp hhead
  obtain ⟨c₂, _, _, hreceive, hhead, -⟩ := performAll_append_iff.mp hhead
  obtain ⟨c₃, _, _, hname, hhead, -⟩ := performAll_cons_iff.mp hhead
  obtain ⟨c₅, _, _, hbegin, hbody, -⟩ := performAll_cons_iff.mp htail
  obtain ⟨c₆, _, _, hbody, hend, -⟩ := performAll_append_iff.mp hbody
  -- The subroutine step by step: it begins, has its object, its name, its variables, its
  -- statements, and ends.
  have h₁ : c.SameClass c₁ := by
    cases hstart
    exact ⟨rfl, rfl, rfl⟩
  have h₂ : c₁.SameClass c₂ := by
    split at hreceive
    · exact MakesAll.sameClass (.cons (makes_receiveObject o c₁.className) .nil)
        (by simp [VariableKind.inClass]) hreceive
    · exact MakesAll.sameClass .nil (by simp) hreceive
  have h₃ : c₂.SameClass c₃ := by
    cases hname
    exact ⟨rfl, rfl, rfl⟩
  have h₄ : c₃.SameClass c₄ :=
    MakesAll.sameClass ((parameters_make o c₃.className s.parameters).append
      (.flatMap (locals_make o c₃.className) s.locals)) s.parameters_kind hhead
  have h₅ : c₄.SameClass c₅ := by
    cases hbegin
    exact .refl _
  have h₆ : c₅.SameClass c₆ := by
    obtain rfl := (s.body.yields o c₅).context_eq hbody
    exact ⟨rfl, rfl, rfl⟩
  have h₇ : c₆.SameClass d := by
    obtain ⟨_, _, _, hlast, hnil, -⟩ := performAll_cons_iff.mp hend
    obtain ⟨rfl, -⟩ := performAll_nil_iff.mp hnil
    cases hlast
    exact .refl _
  exact h₁.trans (h₂.trans (h₃.trans (h₄.trans (h₅.trans (h₆.trans h₇)))))

end SubroutineDec

end JackCompiler
