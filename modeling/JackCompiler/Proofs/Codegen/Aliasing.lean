import JackCompiler.Proofs.Codegen.Convention
import JackCompiler.Proofs.Scope.Places

/-!
# No place has two names

Wherever a class is being compiled, variables in sight that have different names are compiled
to different places (`variables_apart`): the compiler knows its variables from scopes that were
empty in the beginning, and no change of scopes gives a place to two of them.
-/

namespace JackCompiler

/-! ## What is known on the way -/

/-- The compiler knows `c` at some point of compiling the source. -/
def KnownIn (o : Options) (source : String) (c : Context) : Prop :=
  ∃ as p, as <+: (parse (scan source.toList).toList).toList.filterMap Event.action? ∧
    performAll o (.initial o) as = .ok (c, p)

section

variable {o : Options} {c d : Context}

theorem change?_of_declare {name type : String} {kind : VariableKind}
    (h : c.declare name type kind = .ok d) :
    c.scopes.change? (.declare ⟨kind, type, name⟩) = some d.scopes := by
  simp only [Context.declare] at h
  simp only [Scopes.change?]
  cases hd : (c.scopes.declare name type kind : Except (Fault Nat) _) <;> rw [hd] at h <;> cases h
  rfl

/-- An action leaves the scopes as they are, or makes one change. -/
theorem scopes_perform {a : Action} {effects : List Effect}
    (h : perform o c a = .ok (d, effects)) :
    d.scopes = c.scopes ∨ ∃ change, c.scopes.change? change = some d.scopes := by
  cases a with
  | declare | receiveObject =>
    obtain ⟨_, hd, hpure⟩ := bind_eq_ok_iff.mp h
    cases hpure
    exact .inr ⟨_, change?_of_declare hd⟩
  | startSubroutine =>
    cases h
    exact .inr ⟨.startSubroutine, rfl⟩
  -- No other action declares anything.
  | resolve | load | store | loadElement | addressElement | pushReceiver | pushText
  | countArguments | call =>
    obtain ⟨_, -, hpure⟩ := bind_eq_ok_iff.mp h
    cases hpure
    exact .inl rfl
  | pushInteger literal =>
    simp only [perform] at h
    split at h <;> cases h
    exact .inl rfl
  | _ =>
    cases h
    exact .inl rfl

theorem exists_run_of_performAll {as : List Action} {p : List Instruction}
    (h : performAll o c as = .ok (d, p)) : ∃ changes, d.scopes = c.scopes.run changes := by
  induction as generalizing c p with
  | nil =>
    obtain ⟨rfl, -⟩ := performAll_nil_iff.mp h
    exact ⟨[], rfl⟩
  | cons a as ih =>
    obtain ⟨e, effects, q, ha, has, -⟩ := performAll_cons_iff.mp h
    obtain ⟨changes, hchanges⟩ := ih has
    rcases scopes_perform ha with he | ⟨change, he⟩
    · exact ⟨changes, by rw [hchanges, he]⟩
    · refine ⟨change :: changes, ?_⟩
      rw [hchanges, Scopes.run, he]
      rfl

end

theorem follows_run (policy : DuplicatePolicy) (changes : List Change) :
    ((Scopes.empty policy).run changes).Follows policy
      ((Scopes.empty policy).carriedOut changes) :=
  (Scopes.Follows.empty policy).run changes

theorem KnownIn.follows {o : Options} {source : String} {c : Context} (h : KnownIn o source c) :
    ∃ history, c.scopes.Follows o.duplicates history := by
  obtain ⟨as, p, -, hp⟩ := h
  obtain ⟨changes, hchanges⟩ := exists_run_of_performAll hp
  rw [hchanges]
  exact ⟨_, follows_run o.duplicates changes⟩

/-! ## The code of accesses -/

def Instruction.place? : Instruction → Option (Segment × UInt16)
  | .push segment index => some (segment, index)
  | .pop segment index => some (segment, index)
  | _ => none

theorem Instruction.touchesVariable_congr {i j : Instruction} (h : i.place? = j.place?) :
    i.touchesVariable = j.touchesVariable := by
  have hplace : ∀ k : Instruction,
      k.touchesVariable = k.place?.any fun place => place.1.holdsVariables := by
    intro k
    cases k <;> rfl
  rw [hplace, hplace, h]

section

variable {o : Options} {c d : Context} {a : Action} {name : Token}
  {code : Variable → List Instruction} {p : List Instruction}

theorem place?_of_access (ha : a.access? = some (name, code)) (v : Variable) :
    ∀ i ∈ code v, i.touchesVariable = true → i.place? = some v.place := by
  cases a with
  | load | store =>
    obtain ⟨rfl, rfl⟩ := Prod.mk.inj (Option.some.inj ha)
    exact List.forall_mem_singleton.mpr fun _ => rfl
  | addressElement =>
    obtain ⟨rfl, rfl⟩ := Prod.mk.inj (Option.some.inj ha)
    simp only [List.forall_mem_cons]
    exact ⟨fun _ => rfl, (by simp [Instruction.touchesVariable]), List.forall_mem_nil _⟩
  | loadElement =>
    obtain ⟨rfl, rfl⟩ := Prod.mk.inj (Option.some.inj ha)
    simp only [List.forall_mem_cons]
    refine ⟨fun _ => rfl, ?_, ?_, ?_, List.forall_mem_nil _⟩ <;>
      simp [Instruction.touchesVariable, Segment.holdsVariables]
  | pushReceiver callee =>
    cases callee with
    | own => cases ha
    | member =>
      obtain ⟨rfl, rfl⟩ := Prod.mk.inj (Option.some.inj ha)
      exact List.forall_mem_singleton.mpr fun _ => rfl
  | _ => cases ha

theorem code_of_access (ha : a.access? = some (name, code))
    (h : performAll o c [a] = .ok (d, p)) :
    p = [] ∨ ∃ v, c.scopes.find? name.lexeme = some v ∧ p = code v := by
  rw [performAll_singleton_iff] at h
  obtain ⟨effects, heffects, rfl⟩ := h
  cases hv : c.scopes.find? name.lexeme with
  | some v =>
    rw [perform_access ha hv] at heffects
    cases heffects
    exact .inr ⟨v, rfl, Yields.filterMap_emit _⟩
  | none =>
    cases a with
    | load | store | loadElement | addressElement =>
      obtain ⟨rfl, -⟩ := Prod.mk.inj (Option.some.inj ha)
      simp only [perform, Context.resolve, hv] at heffects
      cases heffects
    | pushReceiver callee =>
      cases callee with
      | own => cases ha
      | member qualifier member =>
        obtain ⟨rfl, -⟩ := Prod.mk.inj (Option.some.inj ha)
        simp only [perform, receiverCode, hv] at heffects
        -- The qualifier is a class, which is passed no receiver, or cannot be called.
        by_cases hmay : c.mayCall o qualifier.lexeme = true
        · simp only [if_pos hmay] at heffects
          cases heffects
          exact .inl rfl
        · simp only [if_neg hmay] at heffects
          cases heffects
    | _ => cases ha

end

/-- The code of accesses to two names touches no place of both. -/
def Context.Separates (o : Options) (c : Context) : Prop :=
  ∀ a x code b y code', Action.access? a = some (x, code) → Action.access? b = some (y, code') →
    x.lexeme ≠ y.lexeme → ∀ d p e q, performAll o c [a] = .ok (d, p) →
      performAll o c [b] = .ok (e, q) →
        ∀ i ∈ p, ∀ j ∈ q, i.touchesVariable = true → i.place? ≠ j.place?

theorem Scopes.Apart.separates {o : Options} {c : Context} (h : c.scopes.Apart) :
    c.Separates o := by
  intro a x code b y code' ha hb hxy d p e q hp hq i hi j hj htouches hplace
  rcases code_of_access ha hp with rfl | ⟨v, hv, rfl⟩
  · cases hi
  rcases code_of_access hb hq with rfl | ⟨w, hw, rfl⟩
  · cases hj
  have htouches' := Instruction.touchesVariable_congr hplace ▸ htouches
  rw [place?_of_access ha v i hi htouches, place?_of_access hb w j hj htouches'] at hplace
  exact h.place_ne _ _ v w hxy hv hw (Option.some.inj hplace)

/-! ## Compilations -/

/-- Two names never stand for one place, neither in scopes by themselves nor at any point of a
compilation. -/
theorem variables_apart :
    (∀ policy changes, ((Scopes.empty policy).run changes).Apart ∧
      (policy = .reject → ((Scopes.empty policy).run changes).Dense)) ∧
    ∀ o source c, KnownIn o source c → c.scopes.Apart ∧ (o.strict = true → c.scopes.Dense) ∧
      c.Separates o := by
  refine ⟨fun policy changes => ?_, fun o source c hc => ?_⟩
  · have hfollows := follows_run policy changes
    refine ⟨hfollows.apart, fun hpolicy => ?_⟩
    subst hpolicy
    exact hfollows.dense
  · obtain ⟨history, hfollows⟩ := hc.follows
    refine ⟨hfollows.apart, fun hstrict => ?_, hfollows.apart.separates⟩
    rw [Options.duplicates, if_pos hstrict] at hfollows
    exact hfollows.dense

theorem knownIn_shadowSource : ∃ c, KnownIn {} shadowSource c ∧
    c.scopes.find? "a" = some ⟨"a", "int", .local, 1⟩ ∧
    c.scopes.find? "b" = some ⟨"b", "int", .argument, 2⟩ := by
  let actions := (parse (scan shadowSource.toList).toList).toList.filterMap Event.action?
  have hfind : (performAll {} (.initial {}) actions).toOption.map
      (fun r => (r.1.scopes.find? "a", r.1.scopes.find? "b")) =
        some (some ⟨"a", "int", .local, 1⟩, some ⟨"b", "int", .argument, 2⟩) := by
    decide +kernel
  cases hrun : performAll {} (.initial {}) actions with
  | error fault =>
    rw [hrun] at hfind
    cases hfind
  | ok result =>
    obtain ⟨c, p⟩ := result
    rw [hrun] at hfind
    obtain ⟨ha, hb⟩ := Prod.mk.inj (Option.some.inj hfind)
    exact ⟨c, ⟨actions, p, List.prefix_refl _, hrun⟩, ha, hb⟩

theorem variables_apart_shadowSource : ∃ c v w, KnownIn {} shadowSource c ∧
    c.scopes.find? "a" = some v ∧ c.scopes.find? "b" = some w ∧ v.place ≠ w.place := by
  obtain ⟨c, hc, ha, hb⟩ := knownIn_shadowSource
  obtain ⟨hapart, -, -⟩ := variables_apart.2 {} shadowSource c hc
  exact ⟨c, _, _, hc, ha, hb, hapart.place_ne "a" "b" _ _ (by decide) ha hb⟩

end JackCompiler
