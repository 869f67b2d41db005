import JackCompiler.Proofs.Scope.History

/-!
# Places of variables

Two names never stand for one place, whatever has been declared and hidden: of the variables
of a scope those of one kind have different indices, and no segment belongs to two kinds
(`Scopes.Follows.apart`). Where names are declared once the indices leave no hole.
-/

namespace JackCompiler

def Variable.place (v : Variable) : Segment × UInt16 :=
  (v.segment, v.index)

theorem VariableKind.segment_injective : Function.Injective VariableKind.segment := by
  intro j k h
  cases j <;> cases k <;> first | rfl | cases h

/-! ## Indices in a list of declarations -/

section

variable {ds : List Declaration} {a b name : String} {v w : Variable}

theorem countOf_tail_le {d : Declaration} (h : ∀ kind, countOf kind (d :: ds) ≤ 65535)
    (kind : VariableKind) : countOf kind ds ≤ 65535 := by
  have hle := h kind
  rw [countOf_cons] at hle
  omega

theorem toNat_countOf {kind : VariableKind} (h : countOf kind ds ≤ 65535) :
    (UInt16.ofNat (countOf kind ds)).toNat = countOf kind ds :=
  UInt16.toNat_ofNat_of_lt' (Nat.lt_succ_of_le h)

/-- The index of a name's last declaration is above those of the other names. -/
theorem index_ne_of_cons {d : Declaration} (h : ∀ kind, countOf kind ds ≤ 65535)
    (hw : variableOf? ds name = some w) (hkind : d.kind = w.kind) :
    UInt16.ofNat (countOf d.kind ds) ≠ w.index := by
  intro he
  have hlt := (variableOf?_eq_some hw).2 (h w.kind)
  rw [← he, hkind, toNat_countOf (h w.kind)] at hlt
  exact Nat.lt_irrefl _ hlt

theorem index_ne_of_variableOf? (h : ∀ kind, countOf kind ds ≤ 65535) (hab : a ≠ b)
    (hv : variableOf? ds a = some v) (hw : variableOf? ds b = some w) (hkind : v.kind = w.kind) :
    v.index ≠ w.index := by
  induction ds with
  | nil => cases hv
  | cons d ds ih =>
    have htail := countOf_tail_le h
    rw [variableOf?] at hv hw
    by_cases ha : d.name = a
    · rw [if_pos ha] at hv
      rw [if_neg fun hb => hab (ha.symm.trans hb)] at hw
      cases hv
      exact index_ne_of_cons htail hw hkind
    · rw [if_neg ha] at hv
      by_cases hb : d.name = b
      · rw [if_pos hb] at hw
        cases hw
        exact (index_ne_of_cons htail hv hkind.symm).symm
      · rw [if_neg hb] at hw
        exact ih htail hv hw

/-- Declarations of different names leave no index out. -/
theorem exists_variableOf?_of_lt (h : ∀ kind, countOf kind ds ≤ 65535)
    (hnodup : (ds.map Declaration.name).Nodup) {kind : VariableKind} {i : Nat}
    (hi : i < countOf kind ds) :
    ∃ name v, variableOf? ds name = some v ∧ v.kind = kind ∧ v.index.toNat = i := by
  induction ds with
  | nil => exact absurd hi (Nat.not_lt_zero i)
  | cons d ds ih =>
    have htail := countOf_tail_le h
    rw [List.map_cons, List.nodup_cons] at hnodup
    by_cases hlast : d.kind = kind ∧ countOf kind ds = i
    · obtain ⟨rfl, rfl⟩ := hlast
      exact ⟨d.name, _, if_pos rfl, rfl, toNat_countOf (htail d.kind)⟩
    · have hrest : i < countOf kind ds := by
        rw [countOf_cons] at hi
        split at hi
        · rename_i hkind
          have hne : countOf kind ds ≠ i := fun he => hlast ⟨hkind, he⟩
          omega
        · exact hi
      obtain ⟨name, v, hv, hvkind, hindex⟩ := ih htail hnodup.2 hrest
      have hmem : name ∈ ds.map Declaration.name := by
        rw [← variableOf?_isSome, hv]
        rfl
      have hname : d.name ≠ name := fun he => hnodup.1 (he ▸ hmem)
      exact ⟨name, v, by rw [variableOf?, if_neg hname, hv], hvkind, hindex⟩

end

/-! ## Both scopes -/

namespace Scopes

/-- No two names stand for one place, and all places are among those counted. -/
structure Apart (s : Scopes) : Prop where
  place_ne : ∀ a b v w, a ≠ b → s.find? a = some v → s.find? b = some w → v.place ≠ w.place
  index_lt : ∀ name v, s.find? name = some v → v.index < s.count v.kind

/-- In each scope, hidden or not, the indices of each kind are those below the count, and each
of them is the index of one name. -/
def Dense (s : Scopes) : Prop :=
  ∀ kind, (∀ name v, (s.owner kind).find? name = some v → v.kind = kind →
      v.index < s.count kind) ∧
    ∀ index < s.count kind, ∃! name, ∃ v, (s.owner kind).find? name = some v ∧ v.kind = kind ∧
      v.index = index

end Scopes

theorem inClass_of_mem_declaredSince {inClass : Bool} {history : List Change} {d : Declaration}
    (h : d ∈ declaredSince inClass history) : d.kind.inClass = inClass := by
  obtain ⟨c, -, hc⟩ := List.mem_filterMap.mp h
  cases c with
  | declare e =>
    simp only [Change.declaration?] at hc
    split at hc
    · rename_i he
      cases hc
      exact he
    · cases hc
  | startSubroutine | clear => cases hc

namespace Scopes.Follows

variable {s : Scopes} {policy : DuplicatePolicy} {history : List Change}

theorem owner_find? (h : s.Follows policy history) (kind : VariableKind) (name : String) :
    (s.owner kind).find? name =
      variableOf? (declaredSince kind.inClass history).reverse name := by
  rw [(h.holds.owner kind).find, Known.owner_ofHistory]

theorem countOf_le (h : s.Follows policy history) (inClass : Bool) (kind : VariableKind) :
    countOf kind (declaredSince inClass history).reverse ≤ 65535 := by
  cases inClass with
  | true => exact h.fits.1.1 kind
  | false => exact h.fits.2.1 kind

theorem toNat_count (h : s.Follows policy history) (kind : VariableKind) :
    (s.count kind).toNat = countOf kind (declaredSince kind.inClass history).reverse := by
  rw [h.holds.count_eq, Known.owner_ofHistory, toNat_countOf (h.countOf_le _ kind)]

theorem find?_owner (h : s.Follows policy history) {name : String} {v : Variable}
    (hv : s.find? name = some v) : (s.owner v.kind).find? name = some v := by
  have hmem : ∀ inClass, variableOf? (declaredSince inClass history).reverse name = some v →
      v.kind.inClass = inClass := by
    intro inClass hfind
    obtain ⟨⟨d, hd, hkind⟩, -⟩ := variableOf?_eq_some hfind
    rw [← hkind]
    exact inClass_of_mem_declaredSince (List.mem_reverse.mp hd)
  rw [h.holds.find, Known.find?, Option.orElse_eq_some] at hv
  rw [h.owner_find?]
  rcases hv with hv | ⟨-, hv⟩
  · rwa [hmem false hv]
  · rwa [hmem true hv]

theorem index_lt_count (h : s.Follows policy history) {kind : VariableKind} {name : String}
    {v : Variable} (hv : (s.owner kind).find? name = some v) (hkind : v.kind = kind) :
    v.index < s.count kind := by
  subst hkind
  rw [h.owner_find?] at hv
  rw [UInt16.lt_iff_toNat_lt, h.toNat_count]
  exact (variableOf?_eq_some hv).2 (h.countOf_le _ _)

theorem index_ne (h : s.Follows policy history) {kind : VariableKind} {a b : String}
    {v w : Variable} (hab : a ≠ b) (hv : (s.owner kind).find? a = some v)
    (hw : (s.owner kind).find? b = some w) (hkind : v.kind = w.kind) : v.index ≠ w.index := by
  rw [h.owner_find?] at hv hw
  exact index_ne_of_variableOf? (h.countOf_le _) hab hv hw hkind

theorem apart (h : s.Follows policy history) : s.Apart := by
  refine ⟨fun a b v w hab hv hw hplace => ?_, fun name v hv => ?_⟩
  · have hkind : v.kind = w.kind := VariableKind.segment_injective (Prod.mk.inj hplace).1
    have hv' := h.find?_owner hv
    rw [hkind] at hv'
    exact h.index_ne hab hv' (h.find?_owner hw) hkind (Prod.mk.inj hplace).2
  · exact h.index_lt_count (h.find?_owner hv) rfl

theorem dense (h : s.Follows .reject history) : s.Dense := by
  intro kind
  refine ⟨fun name v hv hkind => h.index_lt_count hv hkind, fun index hindex => ?_⟩
  have hnodup : ((declaredSince kind.inClass history).reverse.map Declaration.name).Nodup := by
    cases kind.inClass with
    | true => exact h.fits.1.2 rfl
    | false => exact h.fits.2.2 rfl
  rw [UInt16.lt_iff_toNat_lt, h.toNat_count] at hindex
  obtain ⟨name, v, hv, hkind, hi⟩ :=
    exists_variableOf?_of_lt (h.countOf_le _) hnodup hindex
  rw [← h.owner_find?] at hv
  refine ⟨name, ⟨v, hv, hkind, UInt16.toNat_inj.mp hi⟩, ?_⟩
  rintro other ⟨w, hw, hwkind, hwindex⟩
  by_contra hne
  refine h.index_ne hne hw hv (hwkind.trans hkind.symm) ?_
  rw [hwindex, ← UInt16.toNat_inj, hi]

end Scopes.Follows

end JackCompiler
