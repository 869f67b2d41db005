import JackCompiler.Scope.Table

/-!
# Scopes as lists of declarations

What a scope knows is a function of the declarations made in it: a name stands for the
variable of its last declaration, whose index is the number of declarations of its kind
before. Lists of declarations have the latest one first.
-/

namespace JackCompiler

structure Declaration where
  kind : VariableKind
  type : String
  name : String
deriving DecidableEq, Repr

def countOf (kind : VariableKind) (ds : List Declaration) : Nat :=
  ds.countP fun d => d.kind = kind

/-- The variable that the name stands for. -/
def variableOf? : List Declaration → String → Option Variable
  | [], _ => none
  | d :: ds, name =>
    if d.name = name then some ⟨name, d.type, d.kind, UInt16.ofNat (countOf d.kind ds)⟩
    else variableOf? ds name

/-- Whether a scope takes the declarations: it has an index for each and, if it rejects
duplicates, their names are different. -/
def Admissible (policy : DuplicatePolicy) (ds : List Declaration) : Prop :=
  (∀ kind, countOf kind ds ≤ 65535) ∧ (policy = .reject → (ds.map Declaration.name).Nodup)

theorem countOf_cons (kind : VariableKind) (d : Declaration) (ds : List Declaration) :
    countOf kind (d :: ds) = countOf kind ds + if d.kind = kind then 1 else 0 := by
  simp [countOf, List.countP_cons]

theorem countOf_reverse (kind : VariableKind) (ds : List Declaration) :
    countOf kind ds.reverse = countOf kind ds :=
  List.countP_reverse

theorem admissible_reverse {policy : DuplicatePolicy} {ds : List Declaration} :
    Admissible policy ds.reverse ↔ Admissible policy ds := by
  simp only [Admissible, countOf_reverse, List.map_reverse, (List.reverse_perm _).nodup_iff]

theorem variableOf?_isSome {ds : List Declaration} {name : String} :
    (variableOf? ds name).isSome ↔ name ∈ ds.map Declaration.name := by
  induction ds with
  | nil => simp [variableOf?]
  | cons d ds ih =>
    rw [variableOf?, List.map_cons, List.mem_cons]
    by_cases h : d.name = name
    · simp [h]
    · have h' : ¬ name = d.name := fun e => h e.symm
      rw [if_neg h, ih]
      simp [h']

theorem variableOf?_eq_some {ds : List Declaration} {name : String} {v : Variable}
    (h : variableOf? ds name = some v) :
    (∃ d ∈ ds, d.kind = v.kind) ∧
      (countOf v.kind ds ≤ 65535 → v.index.toNat < countOf v.kind ds) := by
  induction ds with
  | nil => cases h
  | cons d ds ih =>
    rw [variableOf?] at h
    by_cases hname : d.name = name
    · rw [if_pos hname] at h
      cases h
      refine ⟨⟨d, List.mem_cons_self .., rfl⟩, fun hcount => ?_⟩
      simp only [countOf_cons, if_true] at hcount ⊢
      have hindex : (UInt16.ofNat (countOf d.kind ds)).toNat = countOf d.kind ds :=
        UInt16.toNat_ofNat_of_lt (Nat.lt_of_succ_le (Nat.le_succ_of_le hcount))
      omega
    · rw [if_neg hname] at h
      obtain ⟨⟨e, he, hkind⟩, hindex⟩ := ih h
      refine ⟨⟨e, List.mem_cons_of_mem _ he, hkind⟩, fun hcount => ?_⟩
      rw [countOf_cons] at hcount ⊢
      have hlt := hindex (by omega)
      omega

theorem admissible_cons_iff {policy : DuplicatePolicy} {d : Declaration}
    {ds : List Declaration} (h : Admissible policy ds) :
    Admissible policy (d :: ds) ↔ countOf d.kind ds ≠ 65535 ∧
      (policy = .reject → (variableOf? ds d.name).isSome = false) := by
  have hnames : ∀ hp : policy = .reject, ((d :: ds).map Declaration.name).Nodup ↔
      (variableOf? ds d.name).isSome = false := by
    intro hp
    rw [List.map_cons, List.nodup_cons, ← variableOf?_isSome, Bool.not_eq_true]
    exact and_iff_left (h.2 hp)
  refine ⟨fun hd => ⟨?_, fun hp => (hnames hp).mp (hd.2 hp)⟩, fun hd => ⟨fun kind => ?_, ?_⟩⟩
  · have hcount := hd.1 d.kind
    rw [countOf_cons, if_pos rfl] at hcount
    omega
  · have hcount := h.1 kind
    rw [countOf_cons]
    by_cases hk : d.kind = kind
    · subst hk
      rw [if_pos rfl]
      have := hd.1
      omega
    · rw [if_neg hk]
      exact hcount
  · exact fun hp => (hnames hp).mpr (hd.2 hp)

theorem Admissible.nil (policy : DuplicatePolicy) : Admissible policy [] :=
  ⟨fun _ => Nat.zero_le _, fun _ => .nil⟩

theorem Admissible.tail {policy : DuplicatePolicy} {d : Declaration} {ds : List Declaration}
    (h : Admissible policy (d :: ds)) : Admissible policy ds := by
  refine ⟨fun kind => ?_, fun hp => ?_⟩
  · have hcount := h.1 kind
    rw [countOf_cons] at hcount
    omega
  · exact (List.nodup_cons.mp (h.2 hp)).2

/-! ## Scopes -/

structure Scope.Holds (s : Scope) (ds : List Declaration) : Prop where
  find : ∀ name, s.find? name = variableOf? ds name
  count : ∀ kind, (s.counts.get kind).toNat = countOf kind ds

namespace Scope.Holds

theorem empty : Scope.empty.Holds [] := by
  refine ⟨fun name => find?_empty name, fun kind => ?_⟩
  cases kind <;> rfl

theorem count_eq {s : Scope} {ds : List Declaration} (h : s.Holds ds) (kind : VariableKind) :
    s.counts.get kind = UInt16.ofNat (countOf kind ds) := by
  rw [← h.count kind, UInt16.ofNat_toNat]

theorem declare?_eq {s : Scope} {ds : List Declaration} (h : s.Holds ds) (d : Declaration) :
    (countOf d.kind ds = 65535 ∧ s.declare? d.name d.type d.kind = none) ∨
      (countOf d.kind ds ≠ 65535 ∧ ∃ t, s.declare? d.name d.type d.kind =
        some (⟨d.name, d.type, d.kind, s.counts.get d.kind⟩, t) ∧ t.Holds (d :: ds)) := by
  have hcount := h.count d.kind
  have hindex : s.counts.get d.kind = 65535 ↔ countOf d.kind ds = 65535 := by
    rw [← hcount, ← UInt16.toNat_inj]
    rfl
  by_cases hfull : countOf d.kind ds = 65535
  · refine .inl ⟨hfull, ?_⟩
    rw [declare?]
    exact if_pos (hindex.mpr hfull)
  · let v : Variable := ⟨d.name, d.type, d.kind, s.counts.get d.kind⟩
    have hdeclare : s.declare? d.name d.type d.kind = some (v,
        ⟨s.entries.insert d.name v, s.counts.set d.kind (s.counts.get d.kind + 1)⟩) := by
      rw [declare?]
      exact if_neg fun e => hfull (hindex.mp e)
    refine .inr ⟨hfull, _, hdeclare, fun name => ?_, fun kind => ?_⟩
    · rw [find?_of_declare? hdeclare, variableOf?, h.find]
      by_cases hn : d.name = name
      · subst hn
        rw [if_pos rfl, if_pos rfl, ← h.count_eq]
      · rw [if_neg hn, if_neg hn]
    · rw [Counts.get_set, countOf_cons]
      by_cases hk : d.kind = kind
      · subst hk
        have hlt := (s.counts.get d.kind).toNat_lt
        rw [if_pos rfl, if_pos rfl, UInt16.toNat_add, hcount]
        change (countOf d.kind ds + 1) % 65536 = _
        omega
      · rw [if_neg hk, if_neg hk]
        exact h.count kind

end Scope.Holds

/-! ## Both scopes -/

/-- The declarations made in the class's scope and in the subroutine's. -/
structure Known where
  outer : List Declaration
  inner : List Declaration

namespace Known

def owner (k : Known) (kind : VariableKind) : List Declaration :=
  if kind.inClass then k.outer else k.inner

def declare (k : Known) (d : Declaration) : Known :=
  if d.kind.inClass then { k with outer := d :: k.outer } else { k with inner := d :: k.inner }

def find? (k : Known) (name : String) : Option Variable :=
  variableOf? k.inner name <|> variableOf? k.outer name

def Fits (k : Known) (policy : DuplicatePolicy) : Prop :=
  Admissible policy k.outer ∧ Admissible policy k.inner

theorem Fits.owner {k : Known} {policy : DuplicatePolicy} (h : k.Fits policy)
    (kind : VariableKind) : Admissible policy (k.owner kind) := by
  rw [Known.owner]
  split
  · exact h.1
  · exact h.2

theorem fits_declare_iff {k : Known} {policy : DuplicatePolicy} (h : k.Fits policy)
    (d : Declaration) : (k.declare d).Fits policy ↔ Admissible policy (d :: k.owner d.kind) := by
  rw [Known.declare, Known.owner]
  cases d.kind.inClass with
  | true => exact and_iff_left h.2
  | false => exact and_iff_right h.1

theorem Fits.nil (policy : DuplicatePolicy) : Fits ⟨[], []⟩ policy :=
  ⟨.nil policy, .nil policy⟩

theorem Fits.of_declare {k : Known} {policy : DuplicatePolicy} {d : Declaration}
    (h : (k.declare d).Fits policy) : k.Fits policy := by
  rw [Known.declare] at h
  split at h
  · exact ⟨h.1.tail, h.2⟩
  · exact ⟨h.1, h.2.tail⟩

theorem Fits.of_declares {policy : DuplicatePolicy} (ds : List Declaration) {k : Known}
    (h : (ds.foldl Known.declare k).Fits policy) : k.Fits policy := by
  induction ds generalizing k with
  | nil => exact h
  | cons d ds ih => exact (ih h).of_declare

theorem declares_outer (ds : List Declaration) (k : Known)
    (h : ∀ d ∈ ds, d.kind.inClass = true) :
    ds.foldl Known.declare k = { k with outer := ds.reverse ++ k.outer } := by
  induction ds generalizing k with
  | nil => rfl
  | cons d ds ih =>
    rw [List.foldl_cons, ih _ fun e he => h e (List.mem_cons_of_mem _ he), declare,
      if_pos (h d (List.mem_cons_self ..))]
    simp

theorem declares_inner (ds : List Declaration) (k : Known)
    (h : ∀ d ∈ ds, d.kind.inClass = false) :
    ds.foldl Known.declare k = { k with inner := ds.reverse ++ k.inner } := by
  induction ds generalizing k with
  | nil => rfl
  | cons d ds ih =>
    rw [List.foldl_cons, ih _ fun e he => h e (List.mem_cons_of_mem _ he), declare,
      if_neg (by simp [h d (List.mem_cons_self ..)])]
    simp

end Known

structure Scopes.Holds (s : Scopes) (k : Known) : Prop where
  outer : s.outer.Holds k.outer
  inner : s.inner.Holds k.inner

namespace Scopes.Holds

theorem empty (policy : DuplicatePolicy) : (Scopes.empty policy).Holds ⟨[], []⟩ :=
  ⟨.empty, .empty⟩

theorem startSubroutine {s : Scopes} {k : Known} (h : s.Holds k) :
    s.startSubroutine.Holds { k with inner := [] } :=
  ⟨h.outer, .empty⟩

theorem find {s : Scopes} {k : Known} (h : s.Holds k) (name : String) :
    s.find? name = k.find? name := by
  rw [Scopes.find?, h.inner.find, h.outer.find]
  rfl

theorem owner {s : Scopes} {k : Known} (h : s.Holds k) (kind : VariableKind) :
    (s.owner kind).Holds (k.owner kind) := by
  rw [Scopes.owner, Known.owner]
  split
  · exact h.outer
  · exact h.inner

theorem count_eq {s : Scopes} {k : Known} (h : s.Holds k) (kind : VariableKind) :
    s.count kind = UInt16.ofNat (countOf kind (k.owner kind)) :=
  (h.owner kind).count_eq kind

theorem setOwner {s : Scopes} {k : Known} (h : s.Holds k) {d : Declaration} {scope : Scope}
    (hs : scope.Holds (d :: k.owner d.kind)) :
    (s.setOwner d.kind scope).Holds (k.declare d) := by
  rw [Scopes.setOwner, Known.declare]
  rw [Known.owner] at hs
  split
  · rename_i hk
    rw [if_pos hk] at hs
    exact ⟨hs, h.inner⟩
  · rename_i hk
    rw [if_neg hk] at hs
    exact ⟨h.outer, hs⟩

theorem declare_outcome (Place : Type) {s : Scopes} {k : Known} (h : s.Holds k) (d : Declaration) :
    ((s.policy = .reject ∧ (variableOf? (k.owner d.kind) d.name).isSome = true) ∧
        (s.declare d.name d.type d.kind : Except (Fault Place) _) =
          .error (.duplicate d.name d.kind)) ∨
      ¬ (s.policy = .reject ∧ (variableOf? (k.owner d.kind) d.name).isSome = true) ∧
        (countOf d.kind (k.owner d.kind) = 65535 ∧
            (s.declare d.name d.type d.kind : Except (Fault Place) _) =
              .error (.tooMany d.name d.kind) ∨
          countOf d.kind (k.owner d.kind) ≠ 65535 ∧ ∃ t,
            (s.declare d.name d.type d.kind : Except (Fault Place) _) =
              .ok (⟨d.name, d.type, d.kind, s.count d.kind⟩, t) ∧
            t.policy = s.policy ∧ t.Holds (k.declare d)) := by
  have howner := h.owner d.kind
  rw [Scopes.declare, howner.find d.name]
  by_cases hdup : s.policy = .reject ∧ (variableOf? (k.owner d.kind) d.name).isSome = true
  · exact .inl ⟨hdup, if_pos hdup⟩
  · rw [if_neg hdup]
    refine .inr ⟨hdup, ?_⟩
    rcases howner.declare?_eq d with ⟨hfull, hnone⟩ | ⟨hroom, t, hsome, ht⟩
    · exact .inl ⟨hfull, by rw [hnone]⟩
    · refine .inr ⟨hroom, s.setOwner d.kind t, by rw [hsome]; rfl, ?_, h.setOwner ht⟩
      rw [Scopes.setOwner]
      split <;> rfl

/-- A declaration is made just if the scopes take it. -/
theorem declare_cases {s : Scopes} {k : Known} (h : s.Holds k) (hk : k.Fits s.policy)
    (d : Declaration) :
    ((k.declare d).Fits s.policy ∧ ∃ v t,
        (s.declare d.name d.type d.kind : Except (Fault Nat) _) = .ok (v, t) ∧
        t.policy = s.policy ∧ t.Holds (k.declare d)) ∨
      (¬ (k.declare d).Fits s.policy ∧ ∃ fault,
        (s.declare d.name d.type d.kind : Except (Fault Nat) _) = .error fault) := by
  rw [Known.fits_declare_iff hk, admissible_cons_iff (hk.owner d.kind)]
  rcases h.declare_outcome Nat d with ⟨hdup, herror⟩ | ⟨hdup, hcount⟩
  · refine .inr ⟨fun hd => ?_, _, herror⟩
    rw [hd.2 hdup.1] at hdup
    exact absurd hdup.2 (by decide)
  · rcases hcount with ⟨hfull, herror⟩ | ⟨hroom, t, hok, hpolicy, ht⟩
    · exact .inr ⟨fun hd => hd.1 hfull, _, herror⟩
    · refine .inl ⟨⟨hroom, fun hp => ?_⟩, _, t, hok, hpolicy, ht⟩
      exact (Bool.not_eq_true _).mp fun hs => hdup ⟨hp, hs⟩

end Scopes.Holds

end JackCompiler
