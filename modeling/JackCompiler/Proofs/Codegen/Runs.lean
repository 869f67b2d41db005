import JackCompiler.Proofs.Codegen.Acceptance

/-!
# Runs under two options

Two runs over the same events go in lock step if their steps do. Runs are compared in
three ways: by all they do, by the faults that end them and by the trace they record.
-/

namespace JackCompiler

/-- The second run does what the first does, unless the first ends in a fault of `P`. The
knowledge of the second is a function of that of the first. -/
theorem generateFrom_lockstep {o o' : Options} {P : Fault Nat → Prop} {f : Context → Context}
    (h : ∀ c e, (∃ fault, step o c e = .error fault ∧ P fault) ∨
      step o' (f c) e = (step o c e).map (Prod.map f id))
    (done : Array Effect) (c : Context) (es : List Event) :
    (∃ fault, (generateFrom o done c es).fault = some fault ∧ P fault) ∨
      generateFrom o' done (f c) es = generateFrom o done c es := by
  induction es generalizing done c with
  | nil => exact .inr rfl
  | cons e es ih =>
    simp only [generateFrom]
    rcases h c e with ⟨fault, hstep, hfault⟩ | hstep
    · exact .inl ⟨fault, by rw [hstep], hfault⟩
    · rw [hstep]
      cases step o c e with
      | error fault => exact .inr rfl
      | ok result => exact ih _ result.1

theorem fault_generateFrom_congr {o o' : Options}
    (h : ∀ c e, (step o' c e).map Prod.fst = (step o c e).map Prod.fst)
    (done done' : Array Effect) (c : Context) (es : List Event) :
    (generateFrom o' done' c es).fault = (generateFrom o done c es).fault := by
  induction es generalizing done done' c with
  | nil => rfl
  | cons e es ih =>
    have hstep := h c e
    simp only [generateFrom]
    cases hs : step o c e with
    | error fault =>
      rw [hs] at hstep
      cases hs' : step o' c e with
      | error fault' =>
        rw [hs'] at hstep
        cases hstep
        rfl
      | ok result => rw [hs'] at hstep; cases hstep
    | ok result =>
      rw [hs] at hstep
      cases hs' : step o' c e with
      | error fault => rw [hs'] at hstep; cases hstep
      | ok result' =>
        rw [hs'] at hstep
        obtain ⟨c₁, effects⟩ := result
        obtain ⟨c₂, effects'⟩ := result'
        obtain rfl : c₂ = c₁ := Except.ok.inj hstep
        exact ih _ _ c₂

theorem compile_congr {o o' : Options} {source : String} (ht : o'.trace = o.trace)
    (h : history o' source = history o source) : compile o' source = compile o source := by
  simp only [compile, h, ht]

theorem compile_eq_error_iff {o : Options} {source : String} {fault : Fault Position} :
    compile o source = .error fault ↔ ∃ f, (history o source).fault = some f ∧
      fault = f.map (Position.ofOffset source.toList) := by
  simp only [compile]
  split
  · rename_i h
    simp [h]
  · rename_i f h
    simp [h, eq_comm]

end JackCompiler
