import JackCompiler.Proofs.Machine.Blocks
import JackCompiler.Proofs.Machine.Store

/-!
# Execution

The stack machine, as it runs the body of one block. A call is a single step: it takes its
arguments from the stack and puts the result there.
-/

namespace JackCompiler

def Operation.run : Operation → List UInt16 → Option (List UInt16)
  | .add, b :: a :: stack => some ((a + b) :: stack)
  | .sub, b :: a :: stack => some ((a - b) :: stack)
  | .neg, a :: stack => some ((-a) :: stack)
  | .eq, b :: a :: stack => some (truth (a = b) :: stack)
  | .gt, b :: a :: stack => some (truth (b.toInt16 < a.toInt16) :: stack)
  | .lt, b :: a :: stack => some (truth (a.toInt16 < b.toInt16) :: stack)
  | .and, b :: a :: stack => some ((a &&& b) :: stack)
  | .or, b :: a :: stack => some ((a ||| b) :: stack)
  | .not, a :: stack => some ((~~~a) :: stack)
  | _, _ => none

namespace Machine

/-! ## States -/

structure State (World : Type) where
  stack : List UInt16
  store : Store World
  scratch : Scratch

namespace State

variable {World : Type}

def read? (s : State World) : Segment → UInt16 → Option UInt16
  | .constant, index => some index
  | .argument, index => some (s.store.arguments index)
  | .local, index => some (s.store.locals index)
  | .static, index => some (s.store.memory.statics index)
  | .this, index => some (s.store.readHeap (s.store.object + index))
  | .that, index => some (s.store.readHeap (s.scratch.that + index))
  | .pointer, index =>
    if index = 0 then some s.store.object
    else if index = 1 then some s.scratch.that
    else none
  | .temp, index => if index < 8 then some (s.scratch.temp index) else none

def write? (s : State World) (value : UInt16) : Segment → UInt16 → Option (State World)
  | .constant, _ => none
  | .argument, index => some { s with store := s.store.writeArgument index value }
  | .local, index => some { s with store := s.store.writeLocal index value }
  | .static, index => some { s with store := s.store.writeStatic index value }
  | .this, index => some { s with store := s.store.writeHeap (s.store.object + index) value }
  | .that, index => some { s with store := s.store.writeHeap (s.scratch.that + index) value }
  | .pointer, index =>
    if index = 0 then some { s with store.object := value }
    else if index = 1 then some { s with scratch.that := value }
    else none
  | .temp, index =>
    if index < 8 then
      some { s with scratch.temp := Function.update s.scratch.temp index value }
    else none

def call (s : State World) (name : String) (count : UInt16) : Call World :=
  ⟨name, (s.stack.take count.toNat).reverse, s.store.memory⟩

end State

/-! ## Steps -/

def afterLabel (name : String) : List Instruction → Option (List Instruction)
  | [] => none
  | i :: code => if i.label? = some name then some code else afterLabel name code

structure Config (World : Type) where
  code : List Instruction
  state : State World

section

variable {World : Type} (w : Callees World) (body : List Instruction)

def step : Config World → Option (Config World)
  | ⟨[], _⟩ => none
  | ⟨.push segment index :: code, s⟩ => do
    let value ← s.read? segment index
    return ⟨code, { s with stack := value :: s.stack }⟩
  | ⟨.pop segment index :: code, ⟨value :: stack, store, scratch⟩⟩ => do
    let s ← State.write? ⟨stack, store, scratch⟩ value segment index
    return ⟨code, s⟩
  | ⟨.pop _ _ :: _, ⟨[], _, _⟩⟩ => none
  | ⟨.operate operation :: code, s⟩ => do
    let stack ← operation.run s.stack
    return ⟨code, { s with stack }⟩
  | ⟨.label _ :: code, s⟩ => some ⟨code, s⟩
  | ⟨.goto name :: _, s⟩ => do
    let code ← afterLabel name body
    return ⟨code, s⟩
  | ⟨.ifGoto name :: code, ⟨value :: stack, store, scratch⟩⟩ =>
    if value = 0 then some ⟨code, ⟨stack, store, scratch⟩⟩
    else do
      let code ← afterLabel name body
      return ⟨code, ⟨stack, store, scratch⟩⟩
  | ⟨.ifGoto _ :: _, ⟨[], _, _⟩⟩ => none
  | ⟨.call name count :: code, s⟩ =>
    if count.toNat ≤ s.stack.length then do
      let (value, memory) ← w.result (s.call name count)
      return ⟨code, ⟨value :: s.stack.drop count.toNat, { s.store with memory },
        w.scratch (s.call name count) s.scratch⟩⟩
    else none
  | ⟨.function _ _ :: _, _⟩ => none
  | ⟨.return :: _, _⟩ => none

def run : Nat → Config World → Option (Config World)
  | 0, c => some c
  | n + 1, c => do
    let c ← step w body c
    run n c

theorem run_add (m n : Nat) (c : Config World) :
    run w body (m + n) c = (run w body m c).bind (run w body n) := by
  induction m generalizing c with
  | zero => rw [Nat.zero_add]; rfl
  | succ m ih =>
    rw [Nat.succ_add]
    show (step w body c).bind _ = ((step w body c).bind _).bind _
    rw [Option.bind_assoc]
    congr 1
    exact funext ih

def Reaches (c d : Config World) : Prop :=
  ∃ n, run w body n c = some d

def CanRun (n : Nat) (c : Config World) : Prop :=
  (run w body n c).isSome

end

/-- How the run of statements has ended, `code` being what is behind them and `stack` being
what was on the stack before. -/
inductive Ends {World : Type} (w : Callees World) (code : List Instruction)
    (stack : List UInt16) : Config World → Ending World → Prop
  | next (store scratch) : Ends w code stack ⟨code, ⟨stack, store, scratch⟩⟩ (.next store)
  | returned (rest value store scratch) :
    Ends w code stack ⟨.return :: rest, ⟨value :: stack, store, scratch⟩⟩ (.returned value store)
  | lost {name count} (rest s) (hcount : UInt16.toNat count ≤ (State.stack s).length)
    (hlost : w.result (s.call name count) = none) :
    Ends w code stack ⟨.call name count :: rest, s⟩ (.lost (s.call name count))

/-- What the run of the body comes to from that configuration on, if it does not go on for
ever. -/
def Behaves {World : Type} (w : Callees World) (body : List Instruction) (stack : List UInt16)
    (c : Config World) : Option (Ending World) → Prop
  | some ending => ∃ d, Reaches w body c d ∧ Ends w [] stack d ending
  | none => ∀ n, CanRun w body n c

/-! ## Runs -/

section

variable {World : Type} {w : Callees World} {body : List Instruction} {c d e : Config World}

theorem Reaches.refl (c : Config World) : Reaches w body c c :=
  ⟨0, rfl⟩

theorem Reaches.of_step (h : step w body c = some d) : Reaches w body c d :=
  ⟨1, by rw [run, h]; rfl⟩

theorem Reaches.trans (hcd : Reaches w body c d) (hde : Reaches w body d e) :
    Reaches w body c e := by
  obtain ⟨m, hm⟩ := hcd
  obtain ⟨n, hn⟩ := hde
  refine ⟨m + n, ?_⟩
  rw [run_add, hm]
  exact hn

theorem Reaches.head (h : step w body c = some d) (hde : Reaches w body d e) :
    Reaches w body c e :=
  (Reaches.of_step h).trans hde

theorem CanRun.mono {m n : Nat} (h : CanRun w body n c) (hmn : m ≤ n) : CanRun w body m c := by
  obtain ⟨k, rfl⟩ := Nat.exists_eq_add_of_le hmn
  rw [CanRun, run_add] at h
  exact Option.isSome_of_isSome_bind h

theorem CanRun.of_step {n : Nat} (h : step w body c = some d) (hd : CanRun w body n d) :
    CanRun w body (n + 1) c := by
  rw [CanRun, run, h]
  exact hd

theorem CanRun.of_reaches {n : Nat} (h : Reaches w body c d) (hd : CanRun w body n d) :
    CanRun w body n c := by
  obtain ⟨m, hm⟩ := h
  refine CanRun.mono (n := m + n) ?_ (Nat.le_add_left n m)
  rw [CanRun, run_add, hm]
  exact hd

theorem CanRun.le {m n : Nat} (hn : CanRun w body n c) (hm : run w body m c = some d)
    (hd : step w body d = none) : n ≤ m := by
  by_contra h
  have hmore := hn.mono (m := m + 1) (Nat.lt_of_not_le h)
  rw [CanRun, run_add, hm, Option.bind_some, run, hd] at hmore
  exact Bool.false_ne_true hmore

theorem Reaches.unique (hd : Reaches w body c d) (he : Reaches w body c e)
    (hd' : step w body d = none) (he' : step w body e = none) : d = e := by
  obtain ⟨m, hm⟩ := hd
  obtain ⟨n, hn⟩ := he
  have hle := CanRun.le (Option.isSome_of_eq_some hm) hn he'
  have hge := CanRun.le (Option.isSome_of_eq_some hn) hm hd'
  obtain rfl := Nat.le_antisymm hle hge
  exact Option.some.inj (hm.symm.trans hn)

section

variable {stack : List UInt16}

theorem Ends.step_eq_none {ending : Ending World} (h : Ends w [] stack d ending) :
    step w body d = none := by
  cases h with
  | next => rfl
  | returned => rfl
  | lost code s hcount hlost =>
    rw [step, if_pos hcount, hlost]
    rfl

theorem Ends.unique {x y : Ending World} (hx : Ends w [] stack d x) (hy : Ends w [] stack d y) :
    x = y := by
  cases hx <;> cases hy <;> rfl

theorem Behaves.not_none {ending : Ending World} (h : Behaves w body stack c (some ending)) :
    ¬ Behaves w body stack c none := by
  intro hnone
  obtain ⟨d, ⟨n, hn⟩, hd⟩ := h
  exact Nat.not_succ_le_self n ((hnone (n + 1)).le hn hd.step_eq_none)

theorem Behaves.unique {x y : Option (Ending World)} (hx : Behaves w body stack c x)
    (hy : Behaves w body stack c y) : x = y := by
  cases x with
  | none =>
    cases y with
    | none => rfl
    | some y => exact absurd hx hy.not_none
  | some x =>
    cases y with
    | none => exact absurd hy hx.not_none
    | some y =>
      obtain ⟨d, hcd, hd⟩ := hx
      obtain ⟨e, hce, he⟩ := hy
      obtain rfl := hcd.unique hce hd.step_eq_none he.step_eq_none
      rw [hd.unique he]

end

/-! ## Single steps -/

section

variable (name : String) {count : UInt16} {arguments : List UInt16}
  (h : arguments.length = count.toNat) (stack : List UInt16) (store : Store World)
  (scratch : Scratch)

include h in
theorem length_of_call : count.toNat ≤ (arguments.reverse ++ stack).length := by
  rw [List.length_append, List.length_reverse, h]
  exact Nat.le_add_right _ _

include h in
theorem State.call_eq :
    State.call ⟨arguments.reverse ++ stack, store, scratch⟩ name count =
      ⟨name, arguments, store.memory⟩ := by
  have hlength : arguments.reverse.length = count.toNat := by
    rw [List.length_reverse, h]
  rw [call, List.take_left' hlength, List.reverse_reverse]

include h in
theorem step_call (code : List Instruction) :
    step w body ⟨.call name count :: code, ⟨arguments.reverse ++ stack, store, scratch⟩⟩ =
      (w.result ⟨name, arguments, store.memory⟩).map fun result =>
        ⟨code, ⟨result.1 :: stack, { store with memory := result.2 },
          w.scratch ⟨name, arguments, store.memory⟩ scratch⟩⟩ := by
  have hlength : arguments.reverse.length = count.toNat := by
    rw [List.length_reverse, h]
  rw [step, if_pos (length_of_call h stack), State.call_eq name h, List.drop_left' hlength]
  cases w.result ⟨name, arguments, store.memory⟩ <;> rfl

include h in
theorem Ends.of_call {code : List Instruction} {below : List UInt16} (rest : List Instruction)
    (hlost : w.result ⟨name, arguments, store.memory⟩ = none) :
    Ends w code below ⟨.call name count :: rest, ⟨arguments.reverse ++ stack, store, scratch⟩⟩
      (.lost ⟨name, arguments, store.memory⟩) := by
  have hcall := State.call_eq name h stack store scratch
  rw [← hcall] at hlost ⊢
  exact .lost rest _ (length_of_call h stack) hlost

end

theorem afterLabel_append {name : String} {p : List Instruction}
    (h : name ∉ p.filterMap Instruction.label?) (q : List Instruction) :
    afterLabel name (p ++ .label name :: q) = some q := by
  induction p with
  | nil => exact if_pos rfl
  | cons i p ih =>
    have hi : i.label? ≠ some name := by
      intro hi
      apply h
      rw [List.filterMap_cons_some hi]
      exact List.mem_cons_self ..
    have hp : name ∉ p.filterMap Instruction.label? := by
      intro hp
      apply h
      exact ((List.sublist_cons_self i p).filterMap _).subset hp
    rw [List.cons_append, afterLabel, if_neg hi, ih hp]

theorem afterLabel_of_suffix {name : String} {q : List Instruction}
    (hbody : (body.filterMap Instruction.label?).Nodup) (h : .label name :: q <:+ body) :
    afterLabel name body = some q := by
  obtain ⟨p, rfl⟩ := h
  apply afterLabel_append
  rw [List.filterMap_append, List.nodup_append] at hbody
  intro hname
  exact hbody.2.2 name hname name (List.mem_cons_self ..) rfl

section

variable {name : String} {q : List Instruction} (hbody : (body.filterMap Instruction.label?).Nodup)
  (h : .label name :: q <:+ body) (code : List Instruction)

include hbody h in
theorem step_goto (s : State World) : step w body ⟨.goto name :: code, s⟩ = some ⟨q, s⟩ := by
  rw [step, afterLabel_of_suffix hbody h]
  rfl

include hbody h in
theorem step_ifGoto {value : UInt16} (hvalue : value ≠ 0) (stack : List UInt16)
    (store : Store World) (scratch : Scratch) :
    step w body ⟨.ifGoto name :: code, ⟨value :: stack, store, scratch⟩⟩ =
      some ⟨q, ⟨stack, store, scratch⟩⟩ := by
  rw [step, if_neg hvalue, afterLabel_of_suffix hbody h]
  rfl

end

end

/-! ## Runs that keep the object -/

section

variable {World : Type} {w : Callees World} {p q : List Instruction} {c d : Config World}

theorem State.object_of_write? {s t : State World} {value index : UInt16} {segment : Segment}
    (h : s.write? value segment index = some t) (hplace : ¬ (segment = .pointer ∧ index = 0)) :
    t.store.object = s.store.object := by
  cases segment with
  | constant => cases h
  | pointer =>
    rw [write?, if_neg fun hindex => hplace ⟨rfl, hindex⟩] at h
    split at h <;> cases h
    rfl
  | temp =>
    rw [write?] at h
    split at h <;> cases h
    rfl
  | argument | «local» | static | this | that =>
    cases h
    rfl

theorem afterLabel_suffix {name : String} {code rest : List Instruction}
    (h : afterLabel name code = some rest) : rest <:+ code := by
  induction code with
  | nil => cases h
  | cons i code ih =>
    rw [afterLabel] at h
    split at h
    · obtain rfl := Option.some.inj h
      exact List.suffix_cons i code
    · exact (ih h).trans (List.suffix_cons i code)

theorem afterLabel_behind (hp : ∀ i ∈ p, i.label? = none) (name : String) :
    afterLabel name (p ++ q) = afterLabel name q := by
  induction p with
  | nil => rfl
  | cons i p ih =>
    rw [List.forall_mem_cons] at hp
    rw [List.cons_append, afterLabel, hp.1, if_neg (by simp), ih hp.2]

/-- Behind `p`, which no jump leads to, a step keeps to the code and to the object if the
code does not set it. -/
theorem step_keeps (hp : ∀ i ∈ p, i.label? = none) (hq : ∀ i ∈ q, i ≠ .pop .pointer 0)
    (hc : c.code <:+ q) (h : step w (p ++ q) c = some d) :
    d.code <:+ q ∧ d.state.store.object = c.state.store.object := by
  -- A jump goes to a label, and those are all behind `p`.
  have hjump : ∀ {name rest}, afterLabel name (p ++ q) = some rest → rest <:+ q := by
    intro name rest hrest
    rw [afterLabel_behind hp] at hrest
    exact afterLabel_suffix hrest
  obtain ⟨code, stack, store, scratch⟩ := c
  cases code with
  | nil => cases h
  | cons i code =>
    have hcode : code <:+ q := (List.suffix_cons i code).trans hc
    have hi := hq i (hc.subset (List.mem_cons_self ..))
    cases i with
    | push segment index =>
      simp only [step] at h
      cases hv : State.read? ⟨stack, store, scratch⟩ segment index <;> rw [hv] at h <;> cases h
      exact ⟨hcode, rfl⟩
    | pop segment index =>
      cases stack with
      | nil => cases h
      | cons value stack =>
        simp only [step] at h
        cases hs : State.write? ⟨stack, store, scratch⟩ value segment index <;> rw [hs] at h <;>
          cases h
        have hplace : ¬ (segment = .pointer ∧ index = 0) := fun hplace =>
          hi (by rw [hplace.1, hplace.2])
        exact ⟨hcode, (State.object_of_write? hs hplace :)⟩
    | operate operation =>
      simp only [step] at h
      cases hv : operation.run stack <;> rw [hv] at h <;> cases h
      exact ⟨hcode, rfl⟩
    | label name =>
      cases h
      exact ⟨hcode, rfl⟩
    | goto name =>
      simp only [step] at h
      cases hl : afterLabel name (p ++ q) <;> rw [hl] at h <;> cases h
      exact ⟨hjump hl, rfl⟩
    | ifGoto name =>
      cases stack with
      | nil => cases h
      | cons value stack =>
        simp only [step] at h
        split at h
        · cases h
          exact ⟨hcode, rfl⟩
        · cases hl : afterLabel name (p ++ q) <;> rw [hl] at h <;> cases h
          exact ⟨hjump hl, rfl⟩
    | call name count =>
      simp only [step] at h
      split at h
      · cases hr : w.result (State.call ⟨stack, store, scratch⟩ name count) <;> rw [hr] at h <;>
          cases h
        exact ⟨hcode, rfl⟩
      · cases h
    | function | «return» => cases h

theorem object_of_run {n : Nat} (hp : ∀ i ∈ p, i.label? = none)
    (hq : ∀ i ∈ q, i ≠ .pop .pointer 0) (hc : c.code <:+ q) (h : run w (p ++ q) n c = some d) :
    d.state.store.object = c.state.store.object := by
  induction n generalizing c with
  | zero =>
    cases h
    rfl
  | succ n ih =>
    obtain ⟨e, he, hrest⟩ := Option.bind_eq_some_iff.mp h
    obtain ⟨hcode, hobject⟩ := step_keeps hp hq hc he
    exact (ih hcode hrest).trans hobject

end

end Machine

end JackCompiler
