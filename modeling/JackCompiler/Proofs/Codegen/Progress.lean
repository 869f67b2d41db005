import Mathlib.Data.List.Nodup
import JackCompiler.Proofs.Codegen.Entries
import JackCompiler.Proofs.Codegen.Trace
import JackCompiler.Proofs.Codegen.Truncation
import JackCompiler.Proofs.Syntax.Recursion

/-!
# Reading makes progress

Whatever the source, at most three rules are entered between two tokens, and a rule that may
not be empty takes one before it is left. Each rule that is entered is nearer to the end than
those before it: fewer tokens are left, or as many and its rank is lower. So is each call of
a descent that reads the source by calls (`reading_progresses`).
-/

namespace JackCompiler

/-! ## Counts -/

def entered (lines : List TraceLine) : List Rule :=
  lines.filterMap TraceLine.entered?

def taken (lines : List TraceLine) : List Token :=
  lines.filterMap TraceLine.taken?

theorem taken_eq_nil_iff {lines : List TraceLine} :
    taken lines = [] ↔ ∀ l ∈ lines, l.taken? = none :=
  List.filterMap_eq_nil_iff

theorem taken_append (a b : List TraceLine) : taken (a ++ b) = taken a ++ taken b :=
  List.filterMap_append

/-- A list of numbers that fall is no longer than the bound on them. -/
theorem length_le_of_falling {ks : List Nat} {n : Nat} (h : ks.Pairwise (· > ·))
    (hn : ∀ k ∈ ks, k < n) : ks.length ≤ n := by
  have hnodup : ks.Nodup := h.imp fun hlt => Nat.ne_of_gt hlt
  have hsub : ks ⊆ List.range n := fun k hk => List.mem_range.mpr (hn k hk)
  have hlength := (hnodup.subperm hsub).length_le
  rwa [List.length_range] at hlength

/-- The ranks of the rules that are entered fall until a token is taken. -/
theorem length_entered_le_of_taken {gap : List TraceLine} (h : Steady gap)
    (hgap : taken gap = []) : (entered gap).length ≤ 3 := by
  have hfalling : ((entered gap).map Rule.rank).Pairwise (· > ·) := by
    rw [List.pairwise_map, entered, List.pairwise_filterMap]
    refine (h.pairwise (taken_eq_nil_iff.mp hgap)).imp fun {l l'} hl r hr r' hr' => ?_
    cases l <;> cases hr
    cases l' <;> cases hr'
    exact hl
  have hrank : ∀ k ∈ (entered gap).map Rule.rank, k < 3 := by
    intro k hk
    obtain ⟨r, -, rfl⟩ := List.mem_map.mp hk
    exact r.rank_lt
  have hlength := length_le_of_falling hfalling hrank
  rwa [List.length_map] at hlength

theorem length_entered_untilToken_le {lines : List TraceLine} (h : Steady lines) :
    (entered (untilToken lines)).length ≤ 3 := by
  have hfirst : untilToken lines <+: lines := List.takeWhile_prefix _
  exact length_entered_le_of_taken (h.of_part hfirst.isInfix)
    (taken_eq_nil_iff.mpr fun _ => taken?_of_mem_untilToken)

/-- Each token makes room for three more rules. -/
theorem length_entered_le {lines : List TraceLine} (h : Steady lines) :
    (entered lines).length ≤ 3 * (taken lines).length + (entered (untilToken lines)).length := by
  induction lines with
  | nil => exact Nat.le_refl _
  | cons l lines ih =>
    have ih := ih h.2
    cases l with
    | enter r => exact Nat.succ_le_succ ih
    | leave r => exact ih
    | leaf t =>
      have hgap := length_entered_untilToken_le h.2
      show (entered lines).length ≤ 3 * ((taken lines).length + 1) + 0
      omega

/-- A rule that may not be empty is left behind a token. -/
theorem taken_ne_nil_of_leave {lines body : List TraceLine} {r : Rule} (h : Steady lines)
    (hbody : .enter r :: (body ++ [.leave r]) <:+: lines) (hr : r ∉ emptyRules) :
    taken body ≠ [] := by
  intro hnil
  have hgap : ∀ l ∈ .enter r :: (body ++ [.leave r]), l.taken? = none := by
    rw [← taken_eq_nil_iff]
    show taken (body ++ [.leave r]) = []
    rw [taken_append, hnil]
    rfl
  have hadmits := List.rel_of_pairwise_cons ((h.of_part hbody).pairwise hgap)
    (List.mem_append_right body (List.mem_singleton_self _))
  exact hr hadmits

/-! ## Measures -/

/-- For each rule that is entered the number of tokens that are left then, and its rank. -/
def measures (tokens : Nat) : List TraceLine → List (Nat × Nat)
  | [] => []
  | .enter r :: lines => (tokens, r.rank) :: measures tokens lines
  | .leave _ :: lines => measures tokens lines
  | .leaf _ :: lines => measures (tokens - 1) lines

theorem fst_le_of_mem_measures {tokens : Nat} {lines : List TraceLine} {m : Nat × Nat}
    (h : m ∈ measures tokens lines) : m.1 ≤ tokens := by
  induction lines generalizing tokens with
  | nil => cases h
  | cons l lines ih =>
    cases l with
    | enter r =>
      rcases List.mem_cons.mp h with rfl | h
      · exact Nat.le_refl _
      · exact ih h
    | leave r => exact ih h
    | leaf t => exact (ih h).trans (Nat.sub_le _ _)

theorem nearer_of_mem_measures {tokens : Nat} {lines : List TraceLine} {r : Rule} {m : Nat × Nat}
    (hr : ∀ l ∈ untilToken lines, (TraceLine.enter r).Admits l)
    (hlines : (taken lines).length ≤ tokens) (h : m ∈ measures tokens lines) :
    Nearer m (tokens, r.rank) := by
  induction lines with
  | nil => cases h
  | cons l lines ih =>
    cases l with
    | enter r' =>
      rw [untilToken_cons rfl, List.forall_mem_cons] at hr
      rcases List.mem_cons.mp h with rfl | h
      · exact .right _ hr.1
      · exact ih hr.2 hlines h
    | leave r' =>
      rw [untilToken_cons rfl, List.forall_mem_cons] at hr
      exact ih hr.2 hlines h
    | leaf t =>
      have hpos : 0 < tokens := Nat.lt_of_lt_of_le (Nat.succ_pos _) hlines
      have hle : m.1 ≤ tokens - 1 := fst_le_of_mem_measures h
      exact .left _ _ (by omega)

/-- The measures fall, as long as there are tokens to take. -/
theorem pairwise_measures {tokens : Nat} {lines : List TraceLine} (h : Steady lines)
    (hlines : (taken lines).length ≤ tokens) :
    (measures tokens lines).Pairwise fun m m' => Nearer m' m := by
  induction lines generalizing tokens with
  | nil => exact .nil
  | cons l lines ih =>
    cases l with
    | enter r => exact .cons (fun m => nearer_of_mem_measures h.1 hlines) (ih h.2 hlines)
    | leave r => exact ih h.2 hlines
    | leaf t => exact ih h.2 (Nat.le_sub_of_add_le hlines)

/-! ## Tokens that are taken -/

theorem taken_notes (notes : List Note) : taken (eventLines (notes.map .note)) = [] := by
  rw [taken_eq_nil_iff]
  intro l hl
  obtain ⟨e, he, hline⟩ := List.mem_filterMap.mp hl
  obtain ⟨n, -, rfl⟩ := List.mem_map.mp he
  cases n <;> cases hline <;> rfl

theorem taken_descend (stack : List Item) (tokens : List Token) :
    taken (eventLines (descend stack tokens).1) <+: tokens := by
  fun_induction descend stack tokens with
  | case1 | case3 => exact List.nil_prefix
  | case2 n stack tokens es rest hd ih =>
    rw [hd] at ih
    cases n <;> exact ih
  | case4 g stack t tokens before after hg es rest hd ih =>
    rw [hd] at ih
    rw [eventLines_append, taken_append, taken_notes]
    exact List.cons_prefix_cons.mpr ⟨rfl, ih⟩
  | case5 g stack t tokens before hg es rest hd ih =>
    rw [hd] at ih
    rwa [eventLines_append, taken_append, taken_notes]
  | case6 g stack t tokens before expected hg =>
    rw [eventLines_append, taken_append, taken_notes]
    exact List.nil_prefix

theorem take_mem_of_mem_taken {es : List Event} {t : Token} (h : t ∈ taken (eventLines es)) :
    .take t ∈ es := by
  obtain ⟨l, hl, ht⟩ := List.mem_filterMap.mp h
  obtain ⟨e, he, hline⟩ := List.mem_filterMap.mp hl
  cases l <;> cases ht
  cases e with
  | note n => cases n <;> cases hline
  | take t' => cases hline; exact he
  | look | refuse | exhausted => cases hline

/-! ## Compilations -/

/-- The lines of a compilation that fails are the first of those that reading the source
leaves. -/
theorem traceLines_history (o : Options) (source : String) :
    (history o source).traceLines <+: eventLines (descend classItems (tokenize source)).1 := by
  obtain ⟨ran, rest, hes, -, hlines⟩ := exists_traceLines_generateFrom o #[] (.initial o)
    (parse (scan source.toList).toList).toList
  rw [eventLines, ← core_parse, line?_coreEvents, hes, List.filterMap_append]
  exact hlines ▸ List.prefix_append _ _

theorem steady_history (o : Options) (source : String) :
    Steady (history o source).traceLines :=
  (steady_descend orderly_classItems).of_part (traceLines_history o source).isInfix

theorem taken_history (o : Options) (source : String) :
    taken (history o source).traceLines <+: (tokenize source).dropLast := by
  have hfirst := (traceLines_history o source).filterMap TraceLine.taken?
  have htaken := hfirst.trans (taken_descend classItems (tokenize source))
  obtain ⟨front, hfront, -⟩ := exists_tokenize_concat source
  rw [hfront] at htaken ⊢
  rw [List.dropLast_concat]
  rcases List.prefix_concat_iff.mp htaken with hall | hfront'
  · have hmem : endToken source ∈ taken (history o source).traceLines := by
      rw [taken, hall]
      exact List.mem_append_right _ (List.mem_singleton_self _)
    have htake := take_mem_of_mem_taken (hfirst.subset hmem)
    exact absurd rfl (kind_ne_finish_of_mem_descend fixed_classItems htake)
  · exact hfront'

/-- What the source is read as is what a descent by calls makes of its tokens. -/
theorem recurse_parse (source : String) :
    (recurse ((tokenize source).length + 1, 0) (classItems.map Item.phase)
      (tokenize source)).map Prod.fst = .ok (coreEvents (parse (scan source.toList).toList)) := by
  rw [recurse_eq, core_parse]
  rfl

/-- A compilation takes the tokens in order, at most all but the last one. Between two of them,
before the first and behind the last at most three rules are entered, and a rule is left behind
a token that it has taken, unless it may be empty. So at any time there have been at most three
rules for each token, and three more. Each rule that is entered is nearer to the end than all
those entered before, among them the rules that it is read for. Reading comes to an end on every
source, as it does what a descent by calls does, which makes no call that is not nearer to the
end than the routine that makes it. -/
theorem reading_progresses (o : Options) (source : String) :
    let lines := (history o source).traceLines
    let tokens := tokenize source
    taken lines <+: tokens.dropLast ∧
    (∀ gap, gap <:+: lines → taken gap = [] → (entered gap).length ≤ 3) ∧
    (∀ r body, .enter r :: (body ++ [.leave r]) <:+: lines → r ∉ emptyRules → taken body ≠ []) ∧
    (∀ run, run <+: lines → (entered run).length ≤ 3 * ((taken run).length + 1)) ∧
    (measures tokens.length lines).Pairwise (fun m m' => Nearer m' m) ∧
    (recurse (tokens.length + 1, 0) (classItems.map Item.phase) tokens).map Prod.fst =
      .ok (coreEvents (parse (scan source.toList).toList)) := by
  intro lines tokens
  have hsteady : Steady lines := steady_history o source
  have htaken : taken lines <+: tokens.dropLast := taken_history o source
  have hlength : (taken lines).length ≤ tokens.length - 1 := by
    rw [← List.length_dropLast]
    exact htaken.length_le
  have hrun : ∀ run, run <+: lines → (entered run).length ≤ 3 * ((taken run).length + 1) := by
    intro run h
    have hrun := hsteady.of_part h.isInfix
    have hle := length_entered_le hrun
    have hgap := length_entered_untilToken_le hrun
    omega
  exact ⟨htaken, fun gap h => length_entered_le_of_taken (hsteady.of_part h),
    fun r body => taken_ne_nil_of_leave hsteady, hrun,
    pairwise_measures hsteady (hlength.trans (Nat.sub_le _ _)), recurse_parse source⟩

def openCall : String :=
  "class A \x7b function int f() \x7b return 1; do g("

theorem reading_progresses_openCall :
    let lines := (history {} openCall).traceLines
    let gap : List TraceLine := [.enter .expressionList, .enter .expression, .enter .term]
    let one : TraceLine := .leaf ⟨.number, ⟨36, 1⟩, "1"⟩
    (history {} openCall).fault.isSome = true ∧
      (gap <:+: lines ∧ (entered gap).length ≤ 3) ∧
      (.enter .term :: ([one] ++ [.leave .term]) <:+: lines ∧ taken [one] ≠ []) ∧
      (lines <+: lines ∧ (entered lines).length ≤ 3 * ((taken lines).length + 1)) := by
  intro lines gap one
  have hgap : gap <:+: lines := by decide +kernel
  have hterm : .enter .term :: ([one] ++ [.leave .term]) <:+: lines := by decide +kernel
  obtain ⟨-, hgaps, hrules, hruns, -⟩ := reading_progresses {} openCall
  exact ⟨by decide +kernel, ⟨hgap, hgaps gap hgap rfl⟩, ⟨hterm, hrules _ _ hterm (by decide)⟩,
    ⟨List.prefix_refl _, hruns lines (List.prefix_refl _)⟩⟩

end JackCompiler
