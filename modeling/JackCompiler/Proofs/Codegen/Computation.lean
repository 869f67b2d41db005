import JackCompiler.Proofs.Codegen.Evaluation
import JackCompiler.Proofs.Codegen.StackDiscipline
import JackCompiler.Proofs.Machine.Execution

/-!
# Expressions compute their values

The code of an expression does on the machine what the evaluation of the expression does,
whatever stands below on the stack and whatever code is behind.
-/

namespace JackCompiler

open Machine

variable {World : Type} {w : Callees World}

/-! ## Results of evaluations -/

namespace Eval

variable {α β : Type}

def Gives (m : Eval World α) (a : α) : Prop :=
  ∃ s t, m s = .ok (a, t)

theorem bind_of_ok {m : Eval World α} {s t : Store World} {a : α} (h : m s = .ok (a, t))
    (k : α → Eval World β) : (m >>= k) s = k a t := by
  show (m s).bind _ = _
  rw [h]
  rfl

theorem bind_of_error {m : Eval World α} {s : Store World} {call : Call World}
    (h : m s = .error call) (k : α → Eval World β) : (m >>= k) s = .error call := by
  show (m s).bind _ = _
  rw [h]
  rfl

theorem Gives.bind {m : Eval World α} {k : α → Eval World β} {b : β} (h : Gives (m >>= k) b) :
    ∃ a, Gives m a ∧ Gives (k a) b := by
  obtain ⟨s, t, h⟩ := h
  cases hm : m s with
  | error call =>
    rw [bind_of_error hm] at h
    cases h
  | ok result =>
    rw [bind_of_ok (a := result.1) (t := result.2) hm] at h
    exact ⟨result.1, ⟨s, result.2, hm⟩, _, t, h⟩

theorem Gives.of_pure {a b : α} (h : Gives (pure a : Eval World α) b) : b = a := by
  obtain ⟨s, t, h⟩ := h
  cases h
  rfl

end Eval

/-! ## Computations -/

/-- From the stack `before`, the code does what the evaluation does; with the result comes
the stack `after`. -/
def Computes {α : Type} (w : Callees World) (p : List Instruction) (before : List UInt16)
    (m : Eval World α) (after : α → List UInt16) : Prop :=
  ∀ body code s scratch, match m s with
    | .ok (a, t) => ∃ scratch', Reaches w body ⟨p ++ code, ⟨before, s, scratch⟩⟩
        ⟨code, ⟨after a, t, scratch'⟩⟩
    | .error call => ∃ d, Reaches w body ⟨p ++ code, ⟨before, s, scratch⟩⟩ d ∧
        ∀ rest stack, Ends w rest stack d (.lost call)

namespace Computes

variable {α β : Type} {p q : List Instruction} {before stack : List UInt16}
  {m : Eval World α} {k : α → Eval World β} {mid : α → List UInt16} {after : β → List UInt16}

theorem append_of (hp : Computes w p before m mid)
    (hq : ∀ a, m.Gives a → Computes w q (mid a) (k a) after) :
    Computes w (p ++ q) before (m >>= k) after := by
  intro body code s scratch
  have hm := hp body (q ++ code) s scratch
  rw [List.append_assoc]
  cases h : m s with
  | error call =>
    rw [Eval.bind_of_error h]
    rw [h] at hm
    exact hm
  | ok result =>
    obtain ⟨a, t⟩ := result
    rw [Eval.bind_of_ok h]
    rw [h] at hm
    obtain ⟨scratch₁, hreach⟩ := hm
    have hk := hq a ⟨s, t, h⟩ body code t scratch₁
    cases h' : k a t with
    | error call =>
      rw [h'] at hk
      obtain ⟨d, hd, hlost⟩ := hk
      exact ⟨d, hreach.trans hd, hlost⟩
    | ok result =>
      rw [h'] at hk
      obtain ⟨scratch₂, hk⟩ := hk
      exact ⟨scratch₂, hreach.trans hk⟩

theorem append (hp : Computes w p before m mid) (hq : ∀ a, Computes w q (mid a) (k a) after) :
    Computes w (p ++ q) before (m >>= k) after :=
  hp.append_of fun a _ => hq a

theorem pure (mid : α → List UInt16) (a : α) : Computes w [] (mid a) (Pure.pure a) mid := by
  intro body code s scratch
  exact ⟨scratch, .refl _⟩

theorem map (hp : Computes w p before m mid) {f : α → β} (hf : ∀ a, after (f a) = mid a) :
    Computes w p before (m >>= fun a => Pure.pure (f a)) after := by
  rw [← List.append_nil p]
  refine hp.append fun a => ?_
  rw [← hf]
  exact pure after (f a)

theorem of_step {i : Instruction} (h : ∀ body code s scratch, ∃ a t scratch',
    m s = .ok (a, t) ∧ Machine.step w body ⟨i :: code, ⟨before, s, scratch⟩⟩ =
      some ⟨code, ⟨mid a, t, scratch'⟩⟩) : Computes w [i] before m mid := by
  intro body code s scratch
  obtain ⟨a, t, scratch', hm, hstep⟩ := h body code s scratch
  rw [hm]
  exact ⟨scratch', .of_step hstep⟩

/-- An instruction that only changes the stack is executed before anything else. -/
theorem cons {i : Instruction} {values : List UInt16}
    (hi : ∀ body code s scratch, Machine.step w body ⟨i :: code, ⟨before, s, scratch⟩⟩ =
      some ⟨code, ⟨values, s, scratch⟩⟩)
    (hq : Computes w q values m mid) : Computes w (i :: q) before m mid := by
  intro body code s scratch
  have hstep := hi body (q ++ code) s scratch
  have hm := hq body code s scratch
  cases h : m s with
  | error call =>
    rw [h] at hm
    obtain ⟨d, hd, hlost⟩ := hm
    exact ⟨d, .head hstep hd, hlost⟩
  | ok result =>
    rw [h] at hm
    obtain ⟨scratch', hd⟩ := hm
    exact ⟨scratch', .head hstep hd⟩

end Computes

/-! ## Instructions -/

section

variable (stack : List UInt16)

theorem computes_constant (n : UInt16) :
    Computes w [pushConstant n] stack (pure n) fun value => value :: stack :=
  .of_step fun _ _ s scratch => ⟨n, s, scratch, rfl, rfl⟩

theorem computes_object :
    Computes w [.push .pointer 0] stack Eval.object fun value => value :: stack :=
  .of_step fun _ _ s scratch => ⟨s.object, s, scratch, rfl, rfl⟩

theorem computes_load (v : Variable) :
    Computes w [loadCode v] stack (Eval.load v) fun value => value :: stack := by
  refine .of_step fun body code s scratch => ⟨s.read v, s, scratch, rfl, ?_⟩
  obtain ⟨name, type, kind, index⟩ := v
  cases kind <;> rfl

theorem computes_store (v : Variable) (value : UInt16) :
    Computes w [storeCode v] (value :: stack) (Eval.store v value) fun _ => stack := by
  refine .of_step fun body code s scratch => ⟨(), s.write v value, scratch, rfl, ?_⟩
  obtain ⟨name, type, kind, index⟩ := v
  cases kind <;> rfl

theorem computes_operation {op : Operation} {before : List UInt16} {value : UInt16}
    (hop : op.run before = some (value :: stack)) :
    Computes w [.operate op] before (pure value) fun value => value :: stack := by
  refine .cons (fun body code s scratch => ?_) (.pure (fun value => value :: stack) value)
  rw [Machine.step, hop]
  rfl

theorem computes_call {name : String} {count : UInt16} (arguments : List UInt16)
    (h : arguments.length = count.toNat) :
    Computes w [.call name count] (arguments.reverse ++ stack) (Eval.invoke w name arguments)
      fun value => value :: stack := by
  intro body code s scratch
  cases hresult : w.result ⟨name, arguments, s.memory⟩ with
  | none =>
    rw [Eval.invoke, hresult]
    exact ⟨_, .refl _, fun _ _ => .of_call name h stack s scratch code hresult⟩
  | some result =>
    have hstep : Machine.step w body
        ⟨.call name count :: code, ⟨arguments.reverse ++ stack, s, scratch⟩⟩ = _ :=
      step_call name h stack s scratch code
    rw [hresult] at hstep
    rw [Eval.invoke, hresult]
    exact ⟨_, .of_step hstep⟩

theorem computes_element (address : UInt16) :
    Computes w [.pop .pointer 1, .push .that 0] (address :: stack) (Eval.loadHeap address)
      fun value => value :: stack := by
  intro body code s scratch
  have hread : s.readHeap (address + 0) = s.readHeap address := by
    rw [UInt16.add_zero]
  have hreach : Reaches w body
      ⟨[.pop .pointer 1, .push .that 0] ++ code, ⟨address :: stack, s, scratch⟩⟩
      ⟨code, ⟨s.readHeap (address + 0) :: stack, s, { scratch with that := address }⟩⟩ :=
    .head rfl (.of_step rfl)
  rw [hread] at hreach
  exact ⟨_, hreach⟩

theorem computes_storeElement (address value : UInt16) :
    Computes w storeElementCode (value :: address :: stack) (Eval.storeHeap address value)
      fun _ => stack := by
  intro body code s scratch
  have hwrite : s.writeHeap (address + 0) value = s.writeHeap address value := by
    rw [UInt16.add_zero]
  have htemp : Function.update scratch.temp 0 value 0 = value := Function.update_self ..
  have hreach : Reaches w body
      ⟨[.push .temp 0, .pop .that 0] ++ code,
        ⟨stack, s, ⟨address, Function.update scratch.temp 0 value⟩⟩⟩
      ⟨code, ⟨stack, s.writeHeap (address + 0) (Function.update scratch.temp 0 value 0),
        ⟨address, Function.update scratch.temp 0 value⟩⟩⟩ :=
    .head rfl (.of_step rfl)
  rw [htemp, hwrite] at hreach
  exact ⟨_, .head rfl (.head rfl hreach)⟩

/-! ## Operators and constants -/

theorem computes_unary (op : UnaryOp) (value : UInt16) :
    Computes w (unaryCode op) (value :: stack) (pure (op.value value))
      fun result => result :: stack := by
  cases op <;> exact computes_operation stack rfl

theorem computes_binary (op : BinaryOp) (a b : UInt16) :
    Computes w (binaryCode op) (b :: a :: stack) (op.eval w a b) fun result => result :: stack := by
  cases op with
  | mul => exact computes_call stack [a, b] rfl
  | div => exact computes_call stack [a, b] rfl
  | _ => exact computes_operation stack rfl

theorem computes_appendText (cs : List Char) (text : UInt16) :
    Computes w (cs.flatMap appendCode) (text :: stack) (appendText w cs text)
      fun result => result :: stack := by
  induction cs generalizing text with
  | nil => exact .pure (fun result => result :: stack) text
  | cons c cs ih =>
    have happend : Computes w (appendCode c) (text :: stack)
        (Eval.invoke w "String.appendChar" [text, UInt16.ofNat c.toNat])
        fun result => result :: stack :=
      .cons (fun _ _ _ _ => rfl) (computes_call stack [text, UInt16.ofNat c.toNat] rfl)
    exact happend.append ih

theorem computes_text (text : List Char) :
    Computes w (textCode text) stack (evalText w text) fun result => result :: stack := by
  have hnew : Computes w [pushConstant (UInt16.ofNat text.length), .call "String.new" 1] stack
      (Eval.invoke w "String.new" [UInt16.ofNat text.length]) fun result => result :: stack :=
    .cons (fun _ _ _ _ => rfl) (computes_call stack [UInt16.ofNat text.length] rfl)
  exact hnew.append (computes_appendText stack text)

theorem computes_word (word : Word) :
    Computes w (wordCode word) stack word.eval fun result => result :: stack := by
  cases word with
  | true =>
    have hnot : Computes w [.operate .not] (0 :: stack) (pure (truth True))
        fun result => result :: stack := computes_operation stack rfl
    exact .cons (fun _ _ _ _ => rfl) hnot
  | false => exact computes_constant stack 0
  | null => exact computes_constant stack 0
  | this => exact computes_object stack

end

/-! ## Names -/

section

variable {o : Options} {names : Names} (stack : List UInt16)

theorem Names.computes_load {name : Token} (h : (Use.storage name).Allowed o names) :
    Computes w (names.access name fun v => [loadCode v]) stack (names.load name)
      fun value => value :: stack := by
  obtain ⟨v, hv⟩ := Option.isSome_iff_exists.mp h
  rw [access, load, hv]
  exact JackCompiler.computes_load stack v

theorem Names.computes_store {name : Token} (h : (Use.storage name).Allowed o names)
    (value : UInt16) :
    Computes w (names.access name fun v => [storeCode v]) (value :: stack)
      (names.store name value) fun _ => stack := by
  obtain ⟨v, hv⟩ := Option.isSome_iff_exists.mp h
  rw [access, store, hv]
  exact JackCompiler.computes_store stack v value

/-- The base of an array is read before what follows is evaluated. -/
theorem Names.computes_address {α : Type} {q : List Instruction} {k : UInt16 → Eval World α}
    {after : α → List UInt16} {name : Token} (h : (Use.storage name).Allowed o names) (i : UInt16)
    (hq : ∀ base, Computes w q ((i + base) :: stack) (k base) after) :
    Computes w (names.access name addressCode ++ q) (i :: stack) (names.load name >>= k) after := by
  obtain ⟨v, hv⟩ := Option.isSome_iff_exists.mp h
  rw [access, load, hv]
  exact (JackCompiler.computes_load (i :: stack) v).append fun base =>
    .cons (fun _ _ _ _ => rfl) (hq base)

theorem Names.computes_element {name : Token} (h : (Use.storage name).Allowed o names)
    (i : UInt16) :
    Computes w (names.access name loadElementCode) (i :: stack)
      (names.load name >>= fun base => Eval.loadHeap (i + base)) fun value => value :: stack := by
  have haddress := names.computes_address stack h i fun base =>
    JackCompiler.computes_element (w := w) stack (i + base)
  obtain ⟨v, hv⟩ := Option.isSome_iff_exists.mp h
  rw [access, hv] at haddress ⊢
  exact haddress

theorem Names.computes_receiver (target : CallName) :
    Computes w (names.receiver target) stack (names.evalReceiver target)
      fun values => values.reverse ++ stack := by
  cases target with
  | own name => exact (computes_object stack).map fun value => rfl
  | member qualifier name =>
    rw [receiver, access, evalReceiver]
    cases names.find? qualifier.token.lexeme with
    | some v => exact (JackCompiler.computes_load stack v).map fun value => rfl
    | none => exact .pure (fun values => values.reverse ++ stack) []

theorem Names.length_of_gives {target : CallName} {values : List UInt16}
    (h : (names.evalReceiver target : Eval World _).Gives values) :
    values.length = names.receivers target := by
  cases target with
  | own name =>
    obtain ⟨value, -, hvalues⟩ := h.bind
    rw [hvalues.of_pure]
    rfl
  | member qualifier name =>
    rw [evalReceiver] at h
    rw [receivers]
    cases hv : names.find? qualifier.token.lexeme with
    | some v =>
      rw [hv] at h
      obtain ⟨value, -, hvalues⟩ := h.bind
      rw [hvalues.of_pure]
      rfl
    | none =>
      rw [hv] at h
      rw [h.of_pure]
      rfl

end

/-! ## Expressions -/

section

variable {o : Options} {names : Names}

theorem CallSite.Countable.computes {call : CallSite} (h : call.Countable names)
    (stack : List UInt16) {receiver values : List UInt16}
    (hreceiver : receiver.length = names.receivers call.target)
    (hvalues : values.length = call.count) :
    Computes w (names.call call.target call.count) (values.reverse ++ (receiver.reverse ++ stack))
      (Eval.invoke w (names.calleeName call.target) (receiver ++ values))
      fun value => value :: stack := by
  rw [h.call_eq, ← List.append_assoc, ← List.reverse_append]
  apply computes_call
  rw [h.toNat_eq, List.length_append, hreceiver, hvalues, Nat.add_comm]

theorem Arguments.length_of_gives : ∀ (e : Arguments) {values : List UInt16},
    (e.eval w names).Gives values → values.length = e.length
  | .nil, values, h => by
    rw [Arguments.eval] at h
    rw [h.of_pure]
    rfl
  | .cons first rest, values, h => by
    rw [Arguments.eval] at h
    obtain ⟨value, -, hrest⟩ := h.bind
    obtain ⟨others, hothers, hvalues⟩ := hrest.bind
    rw [hvalues.of_pure, List.length_cons, rest.length_of_gives hothers]
    rfl

mutual

theorem Term.computes : ∀ (e : Term) (stack : List UInt16),
    (∀ use ∈ e.uses, use.Allowed o names) → (∀ call ∈ e.calls, call.Countable names) →
    Computes w (e.code names) stack (e.eval w names) fun value => value :: stack
  | .integer _, stack, _, _ => computes_constant stack _
  | .text literal, stack, _, _ => computes_text stack literal.token.lexeme.toList
  | .word word, stack, _, _ => computes_word stack word
  | .unary op operand, stack, hu, hc =>
    (operand.computes stack hu hc).append fun value => computes_unary stack op value
  | .group inner, stack, hu, hc => inner.computes stack hu hc
  | .var name, stack, hu, _ => Names.computes_load stack (hu _ (List.mem_singleton_self _))
  | .element array index, stack, hu, hc => by
    obtain ⟨harray, hindex⟩ := List.forall_mem_cons.mp hu
    exact (index.computes stack hindex hc).append fun i => Names.computes_element stack harray i
  | .call target arguments, stack, hu, hc => by
    obtain ⟨-, harguments⟩ := List.forall_mem_append.mp hu
    obtain ⟨hcall, hcalls⟩ := List.forall_mem_cons.mp hc
    rw [Term.code, List.append_assoc]
    refine (names.computes_receiver stack target).append_of fun receiver hreceiver => ?_
    refine (arguments.computes (receiver.reverse ++ stack) harguments hcalls).append_of
      fun values hvalues => ?_
    exact hcall.computes stack (Names.length_of_gives hreceiver)
      (arguments.length_of_gives hvalues)

theorem Expression.computes : ∀ (e : Expression) (stack : List UInt16),
    (∀ use ∈ e.uses, use.Allowed o names) → (∀ call ∈ e.calls, call.Countable names) →
    Computes w (e.code names) stack (e.eval w names) fun value => value :: stack
  | .mk first rest, stack, hu, hc => by
    obtain ⟨hu, hu'⟩ := List.forall_mem_append.mp hu
    obtain ⟨hc, hc'⟩ := List.forall_mem_append.mp hc
    exact (first.computes stack hu hc).append fun value => rest.computes value stack hu' hc'

theorem Operations.computes : ∀ (e : Operations) (value : UInt16) (stack : List UInt16),
    (∀ use ∈ e.uses, use.Allowed o names) → (∀ call ∈ e.calls, call.Countable names) →
    Computes w (e.code names) (value :: stack) (e.eval w names value) fun result => result :: stack
  | .nil, value, stack, _, _ => .pure (fun result => result :: stack) value
  | .cons op operand rest, value, stack, hu, hc => by
    obtain ⟨hu, hu'⟩ := List.forall_mem_append.mp hu
    obtain ⟨hc, hc'⟩ := List.forall_mem_append.mp hc
    rw [Operations.code, List.append_assoc]
    refine (operand.computes (value :: stack) hu hc).append fun right => ?_
    exact (computes_binary stack op value right).append fun result =>
      rest.computes result stack hu' hc'

theorem Arguments.computes : ∀ (e : Arguments) (stack : List UInt16),
    (∀ use ∈ e.uses, use.Allowed o names) → (∀ call ∈ e.calls, call.Countable names) →
    Computes w (e.code names) stack (e.eval w names) fun values => values.reverse ++ stack
  | .nil, stack, _, _ => .pure (fun values => values.reverse ++ stack) []
  | .cons first rest, stack, hu, hc => by
    obtain ⟨hu, hu'⟩ := List.forall_mem_append.mp hu
    obtain ⟨hc, hc'⟩ := List.forall_mem_append.mp hc
    refine (first.computes stack hu hc).append fun value => ?_
    refine (rest.computes (value :: stack) hu' hc').map fun values => ?_
    rw [List.reverse_cons, List.append_assoc]
    rfl

end

/-! ## Assignments and results -/

theorem computes_assignment (target : Target) (value : Expression) (stack : List UInt16)
    (hu : ∀ use ∈ target.uses ++ value.uses, use.Allowed o names)
    (hc : ∀ call ∈ target.calls ++ value.calls, call.Countable names) :
    Computes w (target.code names ++ value.code names ++ target.storeCode names) stack
      (evalAssignment w names target value) fun _ => stack := by
  obtain ⟨hu, huvalue⟩ := List.forall_mem_append.mp hu
  obtain ⟨hc, hcvalue⟩ := List.forall_mem_append.mp hc
  cases target with
  | var name =>
    exact (value.computes stack huvalue hcvalue).append fun result =>
      Names.computes_store stack (hu _ (List.mem_singleton_self _)) result
  | element array index =>
    obtain ⟨harray, hindex⟩ := List.forall_mem_cons.mp hu
    rw [Target.code, List.append_assoc, List.append_assoc]
    refine (index.computes stack hindex hc).append fun i => ?_
    refine Names.computes_address stack harray i fun base => ?_
    exact (value.computes ((i + base) :: stack) huvalue hcvalue).append fun result =>
      computes_storeElement stack (i + base) result

theorem computes_result (value : Option Expression) (stack : List UInt16)
    (hu : ∀ use ∈ resultUses value, use.Allowed o names)
    (hc : ∀ call ∈ resultCalls value, call.Countable names) :
    Computes w (resultCode names value) stack (evalResult w names value)
      fun result => result :: stack := by
  cases value with
  | some value => exact value.computes stack hu hc
  | none => exact computes_constant stack 0

end

end JackCompiler
