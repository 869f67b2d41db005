import Mathlib.Data.List.Nodup
import JackCompiler.Proofs.Codegen.Acceptance

/-!
# Labels

A subroutine's labels are numbered as its conditionals and loops are met, so that no two
of them are the same text; each jump goes to a label of the same subroutine.
-/

namespace JackCompiler

/-! ## The text of a label -/

theorem LabelRole.text_no_digit (role : LabelRole) :
    ∀ c ∈ role.text.toList, (!c.isDigit) = true := by
  rw [← List.all_eq_true]
  cases role <;> decide

theorem LabelRole.text_injective {role role' : LabelRole} (h : role.text = role'.text) :
    role = role' := by
  cases role <;> cases role' <;> first | rfl | exact absurd h (by decide)

theorem takeWhile_roleText (role : LabelRole) (n : Nat) :
    (role.text.toList ++ Nat.toDigits 10 n).takeWhile (fun c => !c.isDigit) =
      role.text.toList := by
  have hdigits : ∀ cs : List Char, (∀ c ∈ cs, c.isDigit = true) →
      cs.takeWhile (fun c => !c.isDigit) = [] := by
    intro cs hcs
    cases cs with
    | nil => rfl
    | cons c cs => simp [hcs c (List.mem_cons_self ..)]
  rw [List.takeWhile_append_of_pos role.text_no_digit, hdigits, List.append_nil]
  exact fun c hc => Nat.isDigit_of_mem_toDigits (by decide) (by decide) hc

theorem labelText_injective {scope : String} {role role' : LabelRole} {n n' : Nat}
    (h : labelText scope role n = labelText scope role' n') : role = role' ∧ n = n' := by
  have htext : role.text.toList ++ Nat.toDigits 10 n = role'.text.toList ++ Nat.toDigits 10 n' := by
    have hlists := congrArg String.toList h
    simpa [labelText] using hlists
  have hrole : role = role' := by
    apply LabelRole.text_injective
    apply String.toList_injective
    rw [← takeWhile_roleText role n, htext, takeWhile_roleText]
  subst hrole
  have hdigits := List.append_cancel_left htext
  have hvalue := congrArg (fun ds => Nat.ofDigitChars 10 ds 0) hdigits
  exact ⟨rfl, by simpa using hvalue⟩

/-! ## Plain code -/

def Instruction.isPlain : Instruction → Bool
  | .push _ _ => true
  | .pop _ _ => true
  | .operate _ => true
  | .call _ _ => true
  | _ => false

def Plain (code : List Instruction) : Prop :=
  ∀ i ∈ code, i.isPlain = true

instance (code : List Instruction) : Decidable (Plain code) :=
  inferInstanceAs (Decidable (∀ i ∈ code, i.isPlain = true))

namespace Plain

theorem nil : Plain [] := by
  simp [Plain]

theorem append {p q : List Instruction} (hp : Plain p) (hq : Plain q) : Plain (p ++ q) :=
  List.forall_mem_append.mpr ⟨hp, hq⟩

theorem cons {i : Instruction} {p : List Instruction} (hi : i.isPlain = true) (hp : Plain p) :
    Plain (i :: p) :=
  List.forall_mem_cons.mpr ⟨hi, hp⟩

theorem flatMap {α : Type} {f : α → List Instruction} (h : ∀ x, Plain (f x)) (xs : List α) :
    Plain (xs.flatMap f) := by
  intro i hi
  obtain ⟨x, -, hx⟩ := List.mem_flatMap.mp hi
  exact h x i hx

theorem label? {p : List Instruction} (h : Plain p) : p.filterMap Instruction.label? = [] := by
  rw [List.filterMap_eq_nil_iff]
  intro i hi
  have hplain := h i hi
  cases i <;> first | rfl | cases hplain

theorem target? {p : List Instruction} (h : Plain p) : p.filterMap Instruction.target? = [] := by
  rw [List.filterMap_eq_nil_iff]
  intro i hi
  have hplain := h i hi
  cases i <;> first | rfl | cases hplain

theorem function {p : List Instruction} (h : Plain p) : p.filter Instruction.isFunction = [] := by
  rw [List.filter_eq_nil_iff]
  intro i hi
  have hplain := h i hi
  cases i <;> first | exact Bool.false_ne_true | cases hplain

end Plain

theorem Names.plain_access (names : Names) (name : Token) {code : Variable → List Instruction}
    (h : ∀ v, Plain (code v)) : Plain (names.access name code) := by
  rw [Names.access]
  split
  · exact h _
  · exact .nil

theorem Names.plain_receiver (names : Names) (target : CallName) :
    Plain (names.receiver target) := by
  cases target with
  | own name => exact .cons rfl .nil
  | member qualifier name => exact names.plain_access _ fun v => .cons rfl .nil

theorem Names.plain_call (names : Names) (target : CallName) (count : Nat) :
    Plain (names.call target count) :=
  Names.forall_mem_call (fun _ => rfl) count

theorem plain_textCode (text : List Char) : Plain (textCode text) :=
  .cons rfl (.cons rfl (.flatMap (fun _ => .cons rfl (.cons rfl .nil)) text))

theorem plain_wordCode (word : Word) : Plain (wordCode word) := by
  cases word <;> decide

theorem plain_unaryCode (op : UnaryOp) : Plain (unaryCode op) := by
  cases op <;> decide

theorem plain_binaryCode (op : BinaryOp) : Plain (binaryCode op) := by
  cases op <;> decide

theorem plain_setupCode (fields : UInt16) (kind : SubroutineKind) :
    Plain (setupCode fields kind) := by
  cases kind with
  | constructor => exact .cons rfl (.cons rfl (.cons rfl .nil))
  | method => exact .cons rfl (.cons rfl .nil)
  | function => exact .nil

mutual

theorem Term.plain (names : Names) : ∀ e : Term, Plain (e.code names)
  | .integer _ => .cons rfl .nil
  | .text literal => plain_textCode literal.token.lexeme.toList
  | .word word => plain_wordCode word
  | .unary op operand => (operand.plain names).append (plain_unaryCode op)
  | .group inner => inner.plain names
  | .var _ => names.plain_access _ fun _ => .cons rfl .nil
  | .element _ index => (index.plain names).append
      (names.plain_access _ fun _ => .cons rfl (.cons rfl (.cons rfl (.cons rfl .nil))))
  | .call target arguments =>
      ((names.plain_receiver target).append (arguments.plain names)).append
        (names.plain_call target _)

theorem Expression.plain (names : Names) : ∀ e : Expression, Plain (e.code names)
  | .mk first rest => (first.plain names).append (rest.plain names)

theorem Operations.plain (names : Names) : ∀ e : Operations, Plain (e.code names)
  | .nil => .nil
  | .cons op operand rest =>
      ((operand.plain names).append (plain_binaryCode op)).append (rest.plain names)

theorem Arguments.plain (names : Names) : ∀ e : Arguments, Plain (e.code names)
  | .nil => .nil
  | .cons first rest => (first.plain names).append (rest.plain names)

end

theorem Target.plain (names : Names) (target : Target) : Plain (target.code names) := by
  cases target with
  | var => exact .nil
  | element array index =>
    exact (index.plain names).append (names.plain_access _ fun _ => .cons rfl (.cons rfl .nil))

theorem Target.plain_store (names : Names) (target : Target) :
    Plain (target.storeCode names) := by
  cases target with
  | var name => exact names.plain_access _ fun _ => .cons rfl .nil
  | element =>
    exact .cons rfl (.cons rfl (.cons rfl (.cons rfl .nil)))

theorem plain_resultCode (names : Names) (value : Option Expression) :
    Plain (resultCode names value) := by
  cases value with
  | some value => exact value.plain names
  | none => exact .cons rfl .nil

/-! ## The labels of a block -/

abbrev LabelKey := LabelRole × Nat

def LabelKey.text (scope : String) (key : LabelKey) : String :=
  labelText scope key.1 key.2

def LabelRole.counter (ifs whiles : Nat) : LabelRole → Nat
  | .ifTrue => ifs
  | .ifFalse => ifs
  | .ifEnd => ifs
  | .whileExp => whiles
  | .whileEnd => whiles

/-- The label is numbered while the counts go from `i` and `w` to `i'` and `w'`. -/
def LabelKey.Within (i w i' w' : Nat) (key : LabelKey) : Prop :=
  key.1.counter i w ≤ key.2 ∧ key.2 < key.1.counter i' w'

theorem LabelRole.counter_le {i w i' w' : Nat} (role : LabelRole) (hi : i ≤ i') (hw : w ≤ w') :
    role.counter i w ≤ role.counter i' w' := by
  cases role <;> assumption

structure Numbered (i w j v : Nat) (keys : List LabelKey) : Prop where
  nodup : keys.Nodup
  within : ∀ key ∈ keys, key.Within i w j v
  ifs_le : i ≤ j
  whiles_le : w ≤ v

namespace Numbered

theorem nil (i w : Nat) : Numbered i w i w [] :=
  ⟨.nil, by simp, Nat.le_refl i, Nat.le_refl w⟩

theorem append {i w j v k u : Nat} {p q : List LabelKey} (hp : Numbered i w j v p)
    (hq : Numbered j v k u q) : Numbered i w k u (p ++ q) := by
  refine ⟨List.nodup_append.mpr ⟨hp.nodup, hq.nodup, ?_⟩, List.forall_mem_append.mpr ⟨?_, ?_⟩,
    Nat.le_trans hp.ifs_le hq.ifs_le, Nat.le_trans hp.whiles_le hq.whiles_le⟩
  · intro key hk key' hk' he
    subst he
    exact Nat.lt_irrefl _ (Nat.lt_of_lt_of_le (hp.within key hk).2 (hq.within key hk').1)
  · intro key hk
    have hwithin := hp.within key hk
    exact ⟨hwithin.1, Nat.lt_of_lt_of_le hwithin.2 (key.1.counter_le hq.ifs_le hq.whiles_le)⟩
  · intro key hk
    have hwithin := hq.within key hk
    exact ⟨Nat.le_trans (key.1.counter_le hp.ifs_le hp.whiles_le) hwithin.1, hwithin.2⟩

theorem of_perm {i w j v : Nat} {p q : List LabelKey} (hp : Numbered i w j v p) (h : q.Perm p) :
    Numbered i w j v q :=
  ⟨h.nodup_iff.mpr hp.nodup, fun key hk => hp.within key (h.mem_iff.mp hk), hp.ifs_le,
    hp.whiles_le⟩

theorem conditional (i w : Nat) :
    Numbered i w (i + 1) w [(.ifTrue, i), (.ifFalse, i), (.ifEnd, i)] := by
  refine ⟨by simp, ?_, by omega, by omega⟩
  simp [LabelKey.Within, LabelRole.counter]

theorem loop (i w : Nat) : Numbered i w i (w + 1) [(.whileExp, w), (.whileEnd, w)] := by
  refine ⟨by simp, ?_, by omega, by omega⟩
  simp [LabelKey.Within, LabelRole.counter]

theorem of_sublist {i w j v : Nat} {p q : List LabelKey} (hp : Numbered i w j v p)
    (h : q.Sublist p) : Numbered i w j v q :=
  ⟨hp.nodup.sublist h, fun key hk => hp.within key (h.subset hk), hp.ifs_le, hp.whiles_le⟩

end Numbered

def Block.labels (i w : Nat) : Block → List LabelKey
  | .empty => []
  | .let_ _ _ next => next.labels i w
  | .if_ _ yes next =>
    [(.ifTrue, i)] ++ yes.labels (i + 1) w ++ [(.ifFalse, i)] ++
    next.labels (i + 1 + yes.ifs) (w + yes.whiles)
  | .ifElse _ yes no next =>
    [(.ifTrue, i)] ++ yes.labels (i + 1) w ++ [(.ifFalse, i)] ++
    no.labels (i + 1 + yes.ifs) (w + yes.whiles) ++ [(.ifEnd, i)] ++
    next.labels (i + 1 + yes.ifs + no.ifs) (w + yes.whiles + no.whiles)
  | .while_ _ body next =>
    [(.whileExp, w)] ++ body.labels i (w + 1) ++ [(.whileEnd, w)] ++
    next.labels (i + body.ifs) (w + 1 + body.whiles)
  | .do_ _ _ next => next.labels i w
  | .return_ _ next => next.labels i w

def Block.targets (i w : Nat) : Block → List LabelKey
  | .empty => []
  | .let_ _ _ next => next.targets i w
  | .if_ _ yes next =>
    [(.ifTrue, i), (.ifFalse, i)] ++ yes.targets (i + 1) w ++
    next.targets (i + 1 + yes.ifs) (w + yes.whiles)
  | .ifElse _ yes no next =>
    [(.ifTrue, i), (.ifFalse, i)] ++ yes.targets (i + 1) w ++ [(.ifEnd, i)] ++
    no.targets (i + 1 + yes.ifs) (w + yes.whiles) ++
    next.targets (i + 1 + yes.ifs + no.ifs) (w + yes.whiles + no.whiles)
  | .while_ _ body next =>
    [(.whileEnd, w)] ++ body.targets i (w + 1) ++ [(.whileExp, w)] ++
    next.targets (i + body.ifs) (w + 1 + body.whiles)
  | .do_ _ _ next => next.targets i w
  | .return_ _ next => next.targets i w

namespace Block

theorem label?_code (names : Names) (scope : String) (b : Block) (i w : Nat) :
    (b.code names scope i w).filterMap Instruction.label? =
      (b.labels i w).map (LabelKey.text scope) := by
  induction b generalizing i w with
  | empty => rfl
  | let_ target value next ih =>
    simp [code, labels, ih, (target.plain names).label?, (value.plain names).label?,
      (target.plain_store names).label?]
  | if_ condition yes next ihyes ih =>
    simp [List.filterMap_cons, code, labels, ihyes, ih, (condition.plain names).label?,
      Instruction.label?, LabelKey.text]
  | ifElse condition yes no next ihyes ihno ih =>
    simp [List.filterMap_cons, code, labels, ihyes, ihno, ih, (condition.plain names).label?,
      Instruction.label?, LabelKey.text]
  | while_ condition body next ihbody ih =>
    simp [List.filterMap_cons, code, labels, ihbody, ih, (condition.plain names).label?,
      Instruction.label?, LabelKey.text]
  | do_ target arguments next ih =>
    simp [List.filterMap_cons, code, labels, ih, (names.plain_receiver target).label?,
      (arguments.plain names).label?, (names.plain_call target _).label?, Instruction.label?]
  | return_ value next ih =>
    simp [List.filterMap_cons, code, labels, ih, (plain_resultCode names value).label?,
      Instruction.label?]

theorem target?_code (names : Names) (scope : String) (b : Block) (i w : Nat) :
    (b.code names scope i w).filterMap Instruction.target? =
      (b.targets i w).map (LabelKey.text scope) := by
  induction b generalizing i w with
  | empty => rfl
  | let_ target value next ih =>
    simp [code, targets, ih, (target.plain names).target?, (value.plain names).target?,
      (target.plain_store names).target?]
  | if_ condition yes next ihyes ih =>
    simp [List.filterMap_cons, code, targets, ihyes, ih, (condition.plain names).target?,
      Instruction.target?, LabelKey.text]
  | ifElse condition yes no next ihyes ihno ih =>
    simp [List.filterMap_cons, code, targets, ihyes, ihno, ih, (condition.plain names).target?,
      Instruction.target?, LabelKey.text]
  | while_ condition body next ihbody ih =>
    simp [List.filterMap_cons, code, targets, ihbody, ih, (condition.plain names).target?,
      Instruction.target?, LabelKey.text]
  | do_ target arguments next ih =>
    simp [List.filterMap_cons, code, targets, ih, (names.plain_receiver target).target?,
      (arguments.plain names).target?, (names.plain_call target _).target?,
      Instruction.target?]
  | return_ value next ih =>
    simp [List.filterMap_cons, code, targets, ih, (plain_resultCode names value).target?,
      Instruction.target?]

theorem numbered_labels (b : Block) (i w : Nat) :
    Numbered i w (i + b.ifs) (w + b.whiles) (b.labels i w) := by
  induction b generalizing i w with
  | empty => exact .nil i w
  | let_ target value next ih => exact ih i w
  | if_ condition yes next ihyes ih =>
    have hif : Numbered i w (i + 1) w [(.ifTrue, i), (.ifFalse, i)] :=
      (Numbered.conditional i w).of_sublist (by simp)
    have h := (hif.append (ihyes (i + 1) w)).append (ih (i + 1 + yes.ifs) (w + yes.whiles))
    have hifs : i + 1 + yes.ifs + next.ifs = i + (if_ condition yes next).ifs := by
      rw [ifs]
      omega
    rw [hifs, Nat.add_assoc w] at h
    -- The labels of the statement stand around those of its blocks, not before them.
    refine h.of_perm (List.perm_iff_count.mpr fun key => ?_)
    simp only [labels, List.count_append, List.count_cons, List.count_nil]
    omega
  | ifElse condition yes no next ihyes ihno ih =>
    have h := (((Numbered.conditional i w).append (ihyes (i + 1) w)).append
      (ihno (i + 1 + yes.ifs) (w + yes.whiles))).append
      (ih (i + 1 + yes.ifs + no.ifs) (w + yes.whiles + no.whiles))
    have hifs : i + 1 + yes.ifs + no.ifs + next.ifs = i + (ifElse condition yes no next).ifs := by
      rw [ifs]
      omega
    have hwhiles : w + yes.whiles + no.whiles + next.whiles =
        w + (ifElse condition yes no next).whiles := by
      rw [whiles]
      omega
    rw [hifs, hwhiles] at h
    refine h.of_perm (List.perm_iff_count.mpr fun key => ?_)
    simp only [labels, List.count_append, List.count_cons, List.count_nil]
    omega
  | while_ condition body next ihbody ih =>
    have h := ((Numbered.loop i w).append (ihbody i (w + 1))).append
      (ih (i + body.ifs) (w + 1 + body.whiles))
    have hwhiles : w + 1 + body.whiles + next.whiles = w + (while_ condition body next).whiles := by
      rw [whiles]
      omega
    rw [hwhiles, Nat.add_assoc i] at h
    refine h.of_perm (List.perm_iff_count.mpr fun key => ?_)
    simp only [labels, List.count_append, List.count_cons, List.count_nil]
    omega
  | do_ target arguments next ih => exact ih i w
  | return_ value next ih => exact ih i w

theorem function_code (names : Names) (scope : String) (b : Block) (i w : Nat) :
    (b.code names scope i w).filter Instruction.isFunction = [] := by
  induction b generalizing i w with
  | empty => rfl
  | let_ target value next ih =>
    simp [code, ih, (target.plain names).function, (value.plain names).function,
      (target.plain_store names).function]
  | if_ condition yes next ihyes ih =>
    simp [code, ihyes, ih, (condition.plain names).function,
      Instruction.isFunction]
  | ifElse condition yes no next ihyes ihno ih =>
    simp [code, ihyes, ihno, ih, (condition.plain names).function,
      Instruction.isFunction]
  | while_ condition body next ihbody ih =>
    simp [code, ihbody, ih, (condition.plain names).function,
      Instruction.isFunction]
  | do_ target arguments next ih =>
    simp [code, ih, (names.plain_receiver target).function,
      (arguments.plain names).function, (names.plain_call target _).function,
      Instruction.isFunction]
  | return_ value next ih =>
    simp [code, ih, (plain_resultCode names value).function,
      Instruction.isFunction]

theorem targets_subset (b : Block) (i w : Nat) : b.targets i w ⊆ b.labels i w := by
  induction b generalizing i w with
  | empty => simp [targets]
  | let_ target value next ih => exact ih i w
  | if_ condition yes next ihyes ih =>
    intro key hkey
    simp only [targets, labels, List.mem_append, List.mem_cons, List.not_mem_nil] at hkey ⊢
    grind
  | ifElse condition yes no next ihyes ihno ih =>
    intro key hkey
    simp only [targets, labels, List.mem_append, List.mem_cons, List.not_mem_nil] at hkey ⊢
    grind
  | while_ condition body next ihbody ih =>
    intro key hkey
    simp only [targets, labels, List.mem_append, List.mem_cons, List.not_mem_nil] at hkey ⊢
    grind
  | do_ target arguments next ih => exact ih i w
  | return_ value next ih => exact ih i w

end Block

/-! ## The blocks of a class -/

namespace ClassDec

variable (tree : ClassDec) (o : Options) (s : SubroutineDec)

theorem plain_setup : Plain (tree.setup o s) := by
  rw [setup]
  split
  · exact plain_setupCode _ _
  · exact .nil

theorem labels_block :
    (tree.block o s).labels = (s.body.labels 0 0).map (LabelKey.text (tree.labelScope o s)) := by
  rw [CodeBlock.labels, block, List.filterMap_append, (tree.plain_setup o s).label?, bodyCode,
    Block.label?_code, List.nil_append]

theorem targets_block :
    (tree.block o s).targets = (s.body.targets 0 0).map (LabelKey.text (tree.labelScope o s)) := by
  rw [CodeBlock.targets, block, List.filterMap_append, (tree.plain_setup o s).target?, bodyCode,
    Block.target?_code, List.nil_append]

theorem nodup_labels_block : (tree.block o s).labels.Nodup := by
  have hinjective : Function.Injective (LabelKey.text (tree.labelScope o s)) := by
    intro key key' h
    obtain ⟨hrole, hnumber⟩ := labelText_injective h
    exact Prod.ext hrole hnumber
  rw [labels_block]
  exact (s.body.numbered_labels 0 0).nodup.map hinjective

theorem closed_block : (tree.block o s).Closed := by
  have hnodup := tree.nodup_labels_block o s
  refine ⟨hnodup, fun target ht => List.count_eq_one_of_mem hnodup ?_⟩
  rw [targets_block] at ht
  rw [labels_block]
  exact List.map_subset _ (s.body.targets_subset 0 0) ht

theorem isFunction_block : ∀ i ∈ (tree.block o s).body, i.isFunction = false := by
  have h : (tree.block o s).body.filter Instruction.isFunction = [] := by
    rw [block, List.filter_append, (tree.plain_setup o s).function, bodyCode,
      Block.function_code, List.nil_append]
  intro i hi
  exact (Bool.not_eq_true _).mp (List.filter_eq_nil_iff.mp h i hi)

theorem splitBlocks_code :
    splitBlocks (tree.code o) = ([], tree.subroutines.map (tree.block o)) := by
  have h : ∀ b ∈ tree.subroutines.map (tree.block o), ∀ i ∈ b.body, i.isFunction = false := by
    intro b hb
    obtain ⟨s, -, rfl⟩ := List.mem_map.mp hb
    exact tree.isFunction_block o s
  rw [← splitBlocks_flatMap h, List.flatMap_map]
  rfl

end ClassDec

/-- A compiled program is a row of blocks, one for each subroutine in the order of the
source, and each jump has just one place to go to, in its own block. -/
theorem jumps_closed {o : Options} {source : String} {out : Compiled} {tree : ClassDec}
    (h : compile o source = .ok out) (htree : tree.Heads source) :
    (splitBlocks out.program).1 = [] ∧
      (splitBlocks out.program).2.map CodeBlock.name =
        tree.subroutines.map (fun s => tree.name.token.lexeme ++ "." ++ s.name.token.lexeme) ∧
      ∀ b ∈ (splitBlocks out.program).2, b.Closed := by
  rw [program_of_compile h htree, tree.splitBlocks_code o]
  refine ⟨rfl, by rw [List.map_map]; rfl, fun b hb => ?_⟩
  obtain ⟨s, -, rfl⟩ := List.mem_map.mp hb
  exact tree.closed_block o s

theorem jumps_closed_loopClass : ∃ out, compile {} loopSource = .ok out ∧
    loopClass.Heads loopSource ∧ (splitBlocks out.program).1 = [] ∧
      (splitBlocks out.program).2.map CodeBlock.name = ["A.f"] ∧
      ∀ b ∈ (splitBlocks out.program).2, b.Closed := by
  obtain ⟨out, hout⟩ := exists_compile_loopSource
  exact ⟨out, hout, heads_loopClass, jumps_closed hout heads_loopClass⟩

end JackCompiler
