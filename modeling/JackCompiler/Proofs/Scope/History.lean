import Mathlib.Data.List.DropRight
import Mathlib.Data.Option.Basic
import JackCompiler.Proofs.Scope.Declarations

/-!
# The history of scopes

Scopes know what their history says: the declarations carried out in them since they were last
emptied (`Scopes.recalls_run`). A declaration that is refused leaves no trace.
-/

namespace JackCompiler

/-! ## Histories -/

inductive Change
  | declare (declaration : Declaration)
  | startSubroutine
  | clear

namespace Change

def empties (inClass : Bool) : Change → Bool
  | .declare _ => false
  | .startSubroutine => !inClass
  | .clear => true

def declaration? (inClass : Bool) : Change → Option Declaration
  | .declare d => if d.kind.inClass = inClass then some d else none
  | _ => none

end Change

/-- The declarations of a scope since it was last emptied, the latest one last. -/
def declaredSince (inClass : Bool) (history : List Change) : List Declaration :=
  (history.rtakeWhile fun c => !c.empties inClass).filterMap (Change.declaration? inClass)

structure LastDeclared (ds : List Declaration) (name : String) (v : Variable) : Prop where
  name_eq : v.name = name
  exists_declaration : ∃ before d after, ds = before ++ d :: after ∧ d.name = name ∧
    (∀ e ∈ after, e.name ≠ name) ∧ v.type = d.type ∧ v.kind = d.kind ∧
    v.index.toNat = countOf d.kind before

namespace Scopes

def change? (s : Scopes) : Change → Option Scopes
  | .declare d =>
    match (s.declare d.name d.type d.kind : Except (Fault Nat) (Variable × Scopes)) with
    | .ok (_, t) => some t
    | .error _ => none
  | .startSubroutine => some s.startSubroutine
  | .clear => some s.clear

def run (s : Scopes) : List Change → Scopes
  | [] => s
  | c :: cs => ((s.change? c).getD s).run cs

def carriedOut (s : Scopes) : List Change → List Change
  | [] => []
  | c :: cs =>
    match s.change? c with
    | some t => c :: t.carriedOut cs
    | none => s.carriedOut cs

/-- The scopes know the history, and what they refuse follows from it. -/
structure Recalls (s : Scopes) (policy : DuplicatePolicy) (history : List Change) : Prop where
  find_iff : ∀ name v, s.find? name = some v ↔
    LastDeclared (declaredSince false history) name v ∨
      (∀ d ∈ declaredSince false history, d.name ≠ name) ∧
        LastDeclared (declaredSince true history) name v
  count : ∀ kind, (s.count kind).toNat = countOf kind (declaredSince kind.inClass history)
  declare : ∀ (Place : Type) (d : Declaration),
    (s.declare d.name d.type d.kind : Except (Fault Place) _).map Prod.fst =
      if policy = .reject ∧ ∃ e ∈ declaredSince d.kind.inClass history, e.name = d.name then
        .error (.duplicate d.name d.kind)
      else if countOf d.kind (declaredSince d.kind.inClass history) = 65535 then
        .error (.tooMany d.name d.kind)
      else
        .ok ⟨d.name, d.type, d.kind, s.count d.kind⟩

end Scopes

/-! ## The last declaration of a name -/

section

variable {ds : List Declaration} {d : Declaration} {name : String} {v : Variable}

theorem LastDeclared.exists_mem (h : LastDeclared ds name v) : ∃ d ∈ ds, d.name = name := by
  obtain ⟨before, d, after, rfl, hname, -⟩ := h.exists_declaration
  exact ⟨d, by simp, hname⟩

theorem lastDeclared_concat_of_eq (h : d.name = name) : LastDeclared (ds ++ [d]) name v ↔
    v.name = name ∧ v.type = d.type ∧ v.kind = d.kind ∧ v.index.toNat = countOf d.kind ds := by
  refine ⟨fun hv => ?_, fun hv => ⟨hv.1, ds, d, [], rfl, h, List.forall_mem_nil _, hv.2⟩⟩
  obtain ⟨before, e, after, hds, -, hafter, hv'⟩ := hv.exists_declaration
  cases after using List.reverseRecOn with
  | nil =>
    obtain ⟨rfl, he⟩ := List.append_inj' hds rfl
    obtain rfl := List.singleton_inj.mp he
    exact ⟨hv.name_eq, hv'⟩
  | append_singleton after f =>
    -- The last of all declarations has the name, so none of those behind is another one.
    rw [← List.cons_append, ← List.append_assoc] at hds
    obtain rfl := List.singleton_inj.mp (List.append_inj' hds rfl).2
    exact absurd h (hafter d (by simp))

theorem lastDeclared_concat_of_ne (h : d.name ≠ name) :
    LastDeclared (ds ++ [d]) name v ↔ LastDeclared ds name v := by
  refine ⟨fun hv => ⟨hv.name_eq, ?_⟩, fun hv => ⟨hv.name_eq, ?_⟩⟩
  · obtain ⟨before, e, after, hds, he, hafter, hv'⟩ := hv.exists_declaration
    cases after using List.reverseRecOn with
    | nil =>
      obtain rfl := List.singleton_inj.mp (List.append_inj' hds rfl).2
      exact absurd he h
    | append_singleton after f =>
      rw [← List.cons_append, ← List.append_assoc] at hds
      exact ⟨before, e, after, (List.append_inj' hds rfl).1, he,
        fun g hg => hafter g (List.mem_append_left _ hg), hv'⟩
  · obtain ⟨before, e, after, rfl, he, hafter, hv'⟩ := hv.exists_declaration
    refine ⟨before, e, after ++ [d], by simp, he, ?_, hv'⟩
    exact List.forall_mem_append.mpr ⟨hafter, List.forall_mem_singleton.mpr h⟩

theorem variableOf?_reverse_eq_some_iff (hcount : ∀ kind, countOf kind ds ≤ 65535) :
    variableOf? ds.reverse name = some v ↔ LastDeclared ds name v := by
  induction ds using List.reverseRecOn with
  | nil =>
    refine ⟨fun h => (by cases h), fun h => ?_⟩
    obtain ⟨d, hd, -⟩ := h.exists_mem
    cases hd
  | append_singleton ds d ih =>
    have hds : ∀ kind, countOf kind ds ≤ 65535 := by
      intro kind
      have hle := hcount kind
      rw [countOf, List.countP_append] at hle
      exact Nat.le_trans (Nat.le_add_right _ _) hle
    rw [List.reverse_append, List.reverse_singleton, List.singleton_append, variableOf?]
    -- The list is read from its end, where the declaration that decides stands.
    by_cases hname : d.name = name
    · have hindex : (UInt16.ofNat (countOf d.kind ds)).toNat = countOf d.kind ds :=
        UInt16.toNat_ofNat_of_lt (Nat.lt_succ_of_le (hds d.kind))
      rw [if_pos hname, lastDeclared_concat_of_eq hname, countOf_reverse, Option.some.injEq]
      obtain ⟨n, t, k, i⟩ := v
      rw [Variable.mk.injEq, ← UInt16.toNat_inj, hindex, @eq_comm _ name, @eq_comm _ d.type,
        @eq_comm _ d.kind, @eq_comm _ (countOf d.kind ds)]
    · rw [if_neg hname, lastDeclared_concat_of_ne hname]
      exact ih hds

end

/-! ## What a change does to the history -/

section

variable (inClass : Bool) (history : List Change)

theorem declaredSince_concat_declare (d : Declaration) :
    declaredSince inClass (history ++ [.declare d]) =
      declaredSince inClass history ++ if d.kind.inClass = inClass then [d] else [] := by
  rw [declaredSince, List.rtakeWhile_concat_pos _ _ _ (by rfl), List.filterMap_append]
  by_cases h : d.kind.inClass = inClass <;> simp [declaredSince, Change.declaration?, h]

theorem declaredSince_concat_of_empties {c : Change} (h : c.empties inClass = true) :
    declaredSince inClass (history ++ [c]) = [] := by
  rw [declaredSince, List.rtakeWhile_concat_neg _ _ _ (by simp [h]), List.filterMap_nil]

theorem declaredSince_concat_startSubroutine :
    declaredSince true (history ++ [.startSubroutine]) = declaredSince true history := by
  rw [declaredSince, List.rtakeWhile_concat_pos _ _ _ (by rfl), List.filterMap_append]
  exact List.append_nil _

end

def Known.ofHistory (history : List Change) : Known :=
  ⟨(declaredSince true history).reverse, (declaredSince false history).reverse⟩

namespace Known

variable (history : List Change)

theorem owner_ofHistory (kind : VariableKind) :
    (ofHistory history).owner kind = (declaredSince kind.inClass history).reverse := by
  rw [owner]
  cases kind.inClass <;> rfl

theorem ofHistory_concat_declare (d : Declaration) :
    ofHistory (history ++ [.declare d]) = (ofHistory history).declare d := by
  rw [ofHistory, declare, declaredSince_concat_declare, declaredSince_concat_declare]
  cases d.kind.inClass <;> simp [ofHistory]

theorem ofHistory_concat_startSubroutine :
    ofHistory (history ++ [.startSubroutine]) = { ofHistory history with inner := [] } := by
  rw [ofHistory, declaredSince_concat_startSubroutine, declaredSince_concat_of_empties false _ rfl]
  rfl

theorem ofHistory_concat_clear : ofHistory (history ++ [.clear]) = ⟨[], []⟩ := by
  rw [ofHistory, declaredSince_concat_of_empties true _ rfl,
    declaredSince_concat_of_empties false _ rfl]
  rfl

end Known

/-! ## Runs -/

namespace Scopes

structure Follows (s : Scopes) (policy : DuplicatePolicy) (history : List Change) : Prop where
  policy_eq : s.policy = policy
  holds : s.Holds (.ofHistory history)
  fits : (Known.ofHistory history).Fits policy

namespace Follows

variable {s t : Scopes} {policy : DuplicatePolicy} {history : List Change}

theorem empty (policy : DuplicatePolicy) : (Scopes.empty policy).Follows policy [] :=
  ⟨rfl, Holds.empty policy, .nil policy⟩

theorem of_change? (h : s.Follows policy history) {c : Change} (hc : s.change? c = some t) :
    t.Follows policy (history ++ [c]) := by
  cases c with
  | declare d =>
    have hfits := h.policy_eq ▸ h.fits
    simp only [change?] at hc
    rcases h.holds.declare_cases hfits d with ⟨hd, v, u, hok, hpolicy, hu⟩ | ⟨-, fault, herror⟩
    · simp only [hok, Option.some.injEq] at hc
      subst hc
      rw [h.policy_eq] at hd
      rw [← Known.ofHistory_concat_declare] at hu hd
      exact ⟨hpolicy.trans h.policy_eq, hu, hd⟩
    · simp [herror] at hc
  | startSubroutine =>
    obtain rfl := Option.some.inj hc
    refine ⟨h.policy_eq, ?_, ?_⟩ <;> rw [Known.ofHistory_concat_startSubroutine]
    · exact h.holds.startSubroutine
    · exact ⟨h.fits.1, (Known.Fits.nil policy).2⟩
  | clear =>
    obtain rfl := Option.some.inj hc
    refine ⟨h.policy_eq, ?_, ?_⟩ <;> rw [Known.ofHistory_concat_clear]
    · exact Holds.empty _
    · exact .nil policy

theorem run (h : s.Follows policy history) (cs : List Change) :
    (s.run cs).Follows policy (history ++ s.carriedOut cs) := by
  induction cs generalizing s history with
  | nil => rwa [carriedOut, List.append_nil]
  | cons c cs ih =>
    rw [Scopes.run, carriedOut]
    cases hc : s.change? c with
    | none => exact ih h
    | some t =>
      rw [List.append_cons]
      exact ih (h.of_change? hc)

theorem recalls (h : s.Follows policy history) : s.Recalls policy history := by
  -- No scope has more declarations of a kind than a word counts, so that indices are not cut off.
  have hcount : ∀ inClass kind, countOf kind (declaredSince inClass history) ≤ 65535 := by
    intro inClass kind
    cases inClass with
    | true => exact countOf_reverse kind (declaredSince true history) ▸ h.fits.1.1 kind
    | false => exact countOf_reverse kind (declaredSince false history) ▸ h.fits.2.1 kind
  have howner : ∀ kind : VariableKind,
      countOf kind ((Known.ofHistory history).owner kind) =
        countOf kind (declaredSince kind.inClass history) := by
    intro kind
    rw [Known.owner_ofHistory, countOf_reverse]
  refine ⟨fun name v => ?_, fun kind => ?_, fun Place d => ?_⟩
  · have hnone : variableOf? (declaredSince false history).reverse name = none ↔
        ∀ d ∈ declaredSince false history, d.name ≠ name := by
      rw [← Option.not_isSome_iff_eq_none, variableOf?_isSome]
      simp
    rw [h.holds.find, ← variableOf?_reverse_eq_some_iff (hcount false),
      ← variableOf?_reverse_eq_some_iff (hcount true), ← hnone]
    exact Option.orElse_eq_some _ _ v
  · rw [h.holds.count_eq, howner]
    exact UInt16.toNat_ofNat_of_lt (Nat.lt_succ_of_le (hcount _ kind))
  · have hname : (variableOf? ((Known.ofHistory history).owner d.kind) d.name).isSome = true ↔
        ∃ e ∈ declaredSince d.kind.inClass history, e.name = d.name := by
      rw [Known.owner_ofHistory, variableOf?_isSome]
      simp
    have houtcome := h.holds.declare_outcome Place d
    rw [h.policy_eq, hname, howner] at houtcome
    rcases houtcome with ⟨hdup, herror⟩ | ⟨hdup, ⟨hfull, herror⟩ | ⟨hroom, t, hok, -⟩⟩
    · rw [herror, if_pos hdup]
      rfl
    · rw [herror, if_neg hdup, if_pos hfull]
      rfl
    · rw [hok, if_neg hdup, if_neg hroom]
      rfl

end Follows

theorem run_append (s : Scopes) (cs ds : List Change) :
    s.run (cs ++ ds) = (s.run cs).run ds := by
  induction cs generalizing s with
  | nil => rfl
  | cons c cs ih => exact ih _

/-- The scopes know what was declared since they were last emptied, and a declaration that is
refused might as well not have been tried. -/
theorem recalls_run (policy : DuplicatePolicy) (changes : List Change) :
    ((empty policy).run changes).Recalls policy ((empty policy).carriedOut changes) ∧
      ∀ before (d : Declaration) after (fault : Fault Nat),
        changes = before ++ .declare d :: after →
        ((empty policy).run before).declare d.name d.type d.kind = .error fault →
        (empty policy).run changes = (empty policy).run (before ++ after) := by
  refine ⟨((Follows.empty policy).run changes).recalls, ?_⟩
  rintro before d after fault rfl hrefused
  rw [run_append, run_append, run, change?, hrefused]
  rfl

theorem recalls_run_duplicate :
    (empty .reject).run [.declare ⟨.field, "int", "x"⟩, .declare ⟨.static, "char", "x"⟩] =
      (empty .reject).run [.declare ⟨.field, "int", "x"⟩] :=
  (recalls_run .reject [.declare ⟨.field, "int", "x"⟩, .declare ⟨.static, "char", "x"⟩]).2
    [.declare ⟨.field, "int", "x"⟩] ⟨.static, "char", "x"⟩ [] (.duplicate "x" .static) rfl rfl

end Scopes

end JackCompiler
