import JackCompiler.Command.Directory
import Mathlib.Data.List.TakeWhile

/-!
# Paths taken apart

A path falls apart into the directory it names, a stem and perhaps an extension
(`Path.exists_parts`), of which the last is what `Path.withExtension` replaces. The result
leads into the directory that the path leads into (`Directory.exists_locate?_withExtension`).
-/

namespace JackCompiler

namespace Path

theorem exists_last {c : Char} {cs : List Char} (h : c ∈ cs) :
    ∃ before behind, cs = before ++ c :: behind ∧ c ∉ behind := by
  obtain ⟨behind, before, hcs, hbehind⟩ := List.eq_append_cons_of_mem (List.mem_reverse.mpr h)
  refine ⟨before.reverse, behind.reverse, ?_, by simpa using hbehind⟩
  rw [← List.reverse_reverse cs, hcs]
  simp

/-! ## The last name -/

/-- The part of a path that names a directory is empty or ends with a slash. -/
def Parent (cs : List Char) : Prop :=
  ∀ c ∈ cs.getLast?, c = '/'

theorem Parent.eq_nil_or_concat {cs : List Char} (h : Parent cs) :
    cs = [] ∨ ∃ before, cs = before ++ ['/'] := by
  rcases List.eq_nil_or_concat cs with rfl | ⟨before, c, rfl⟩
  · exact .inl rfl
  · rw [h c (by simp)]
    exact .inr ⟨before, List.concat_eq_append⟩

theorem exists_parent (path : List Char) :
    ∃ parent name, path = parent ++ name ∧ Parent parent ∧ '/' ∉ name := by
  by_cases h : '/' ∈ path
  · obtain ⟨before, name, rfl, hname⟩ := exists_last h
    exact ⟨before ++ ['/'], name, by simp, by simp [Parent], hname⟩
  · exact ⟨[], path, rfl, by simp [Parent], h⟩

theorem all_reverse_ne {c : Char} {cs : List Char} (h : c ∉ cs) :
    ∀ x ∈ cs.reverse, decide (x ≠ c) = true := by
  intro x hx
  exact decide_eq_true fun hc => h (hc ▸ List.mem_reverse.mp hx)

theorem splitLast_append {parent name : List Char} (hparent : Parent parent)
    (hname : '/' ∉ name) : splitLast (parent ++ name) = (parent, name) := by
  rw [splitLast, List.reverse_append, List.dropWhile_append_of_pos (all_reverse_ne hname),
    List.takeWhile_append_of_pos (all_reverse_ne hname)]
  rcases hparent.eq_nil_or_concat with rfl | ⟨before, rfl⟩ <;> simp

/-! ## The extension -/

theorem stem_of_notMem {name : List Char} (h : '.' ∉ name) : stem name = name := by
  rw [stem, List.dropWhile_eq_nil_iff.mpr (all_reverse_ne h)]
  rfl

theorem stem_append_dot {before ending : List Char} (h : '.' ∉ ending) :
    stem (before ++ '.' :: ending) = if before = [] then '.' :: ending else before := by
  have hdrop : ((before ++ '.' :: ending).reverse.dropWhile (· ≠ '.')).tail.reverse = before := by
    rw [List.reverse_append, List.reverse_cons, List.append_assoc,
      List.dropWhile_append_of_pos (all_reverse_ne h)]
    simp
  rw [stem, hdrop]
  cases before <;> rfl

def dotted : Option (List Char) → List Char
  | none => []
  | some ending => '.' :: ending

/-- The path names a directory and a file in it, whose name is a stem and perhaps an
extension: what follows the last dot, unless that dot is the first character. -/
structure Parts (path parent stem : List Char) (extension : Option (List Char)) : Prop where
  path_eq : path = parent ++ (stem ++ dotted extension)
  parent : Parent parent
  slash : '/' ∉ stem ++ dotted extension
  dot : match extension with
    | none => '.' ∉ stem.tail
    | some ending => stem ≠ [] ∧ '.' ∉ ending

theorem Parts.stem_eq {path parent before : List Char} {extension : Option (List Char)}
    (h : Parts path parent before extension) : stem (before ++ dotted extension) = before := by
  have hdot := h.dot
  cases extension with
  | some ending => rw [dotted, stem_append_dot hdot.2, if_neg hdot.1]
  | none =>
    rw [dotted, List.append_nil]
    cases before with
    | nil => rfl
    | cons c cs =>
      by_cases hc : c = '.'
      · subst hc
        have hstem : stem ([] ++ '.' :: cs) = _ := stem_append_dot hdot
        exact hstem.trans (if_pos rfl)
      · exact stem_of_notMem (by simpa [Ne.symm hc] using hdot)

theorem exists_parts (path : List Char) :
    ∃ parent stem extension, Parts path parent stem extension := by
  obtain ⟨parent, name, rfl, hparent, hslash⟩ := exists_parent path
  have hbare : '.' ∉ name.tail → Parts (parent ++ name) parent name none := fun h =>
    ⟨by rw [dotted, List.append_nil], hparent, by rwa [dotted, List.append_nil], h⟩
  cases name with
  | nil => exact ⟨_, _, _, hbare List.not_mem_nil⟩
  | cons c cs =>
    by_cases h : '.' ∈ cs
    · obtain ⟨before, ending, rfl, hending⟩ := exists_last h
      exact ⟨parent, c :: before, some ending, rfl, hparent, hslash, List.cons_ne_nil _ _, hending⟩
    · exact ⟨_, _, _, hbare h⟩

theorem Parts.withExtension {path : String} {parent before : List Char}
    {extension : Option (List Char)} (h : Parts path.toList parent before extension)
    (ending : String) :
    (Path.withExtension path ending).toList = parent ++ (before ++ '.' :: ending.toList) := by
  have hsplit := splitLast_append h.parent h.slash
  rw [Path.withExtension, h.path_eq, hsplit]
  simp [h.stem_eq]

def HasExtension (path ending : String) : Prop :=
  ∃ parent stem, Parts path.toList parent stem (some ending.toList)

/-! ## The names of a path -/

theorem pathNames_slash (cs : List Char) :
    pathNames (String.ofList ('/' :: cs)) = "" :: pathNames (String.ofList cs) := by
  simp [pathNames]

theorem pathNames_cons {c : Char} (hc : c ≠ '/') {cs name : List Char} {names : List String}
    (h : pathNames (String.ofList cs) = String.ofList name :: names) :
    pathNames (String.ofList (c :: cs)) = String.ofList (c :: name) :: names := by
  rw [pathNames, String.toList_ofList] at h ⊢
  rw [List.foldr_cons, if_neg hc]
  obtain ⟨first, rest, hparts, hfirst, rfl⟩ := List.map_eq_cons_iff.mp h
  rw [hparts, ← String.ofList_injective hfirst]
  rfl

theorem pathNames_of_notMem {name : List Char} (h : '/' ∉ name) :
    pathNames (String.ofList name) = [String.ofList name] := by
  induction name with
  | nil => rfl
  | cons c cs ih =>
    rw [List.mem_cons, not_or] at h
    exact pathNames_cons (Ne.symm h.1) (ih h.2)

theorem Parent.exists_names {parent : List Char} (h : Parent parent) :
    ∃ above : List String, (parent ≠ [] → above ≠ []) ∧ ∀ name : List Char, '/' ∉ name →
      pathNames (String.ofList (parent ++ name)) = above ++ [String.ofList name] := by
  induction parent with
  | nil => exact ⟨[], fun hne => (hne rfl).elim, fun name => pathNames_of_notMem⟩
  | cons c cs ih =>
    have htail : Parent cs := fun x hx => h x (by rw [List.getLast?_cons, hx]; rfl)
    obtain ⟨above, hne, hnames⟩ := ih htail
    by_cases hc : c = '/'
    · subst hc
      refine ⟨"" :: above, fun _ => List.cons_ne_nil _ _, fun name hname => ?_⟩
      rw [List.cons_append, pathNames_slash, hnames name hname]
      rfl
    · have hcs : cs ≠ [] := by
        rintro rfl
        exact hc (h c rfl)
      obtain ⟨first, rest, rfl⟩ := List.exists_cons_of_ne_nil (hne hcs)
      refine ⟨String.ofList (c :: first.toList) :: rest, fun _ => List.cons_ne_nil _ _,
        fun name hname => ?_⟩
      have htext := hnames name hname
      rw [← String.ofList_toList (s := first)] at htext
      exact pathNames_cons hc htext

end Path

/-! ## Following a path -/

namespace Directory

variable {d : Directory}

theorem follow?_concat (d : Directory) (name : String) (here above : List String) :
    d.follow? here (above ++ [name]) =
      (d.follow? here above).bind fun names => d.follow? names.reverse [name] := by
  fun_induction d.follow? here above with
  | case1 here => rw [List.nil_append, Option.bind_some, List.reverse_reverse]
  | case2 | case3 | case4 | case5 | case6 => simp_all [follow?]

theorem follow?_singleton (d : Directory) (names : List String) {name : String}
    (hempty : name ≠ "") (hdot : name ≠ ".") (hdots : name ≠ "..") :
    d.follow? names.reverse [name] =
      if d.isDirectory names then some (names ++ [name]) else none := by
  simp only [follow?, List.reverse_reverse, List.reverse_cons, hempty, hdot, hdots, if_false]
  cases d.isDirectory names <;> rfl

theorem follow?_singleton_cases {names out : List String} {name : String}
    (h : d.follow? names.reverse [name] = some out) :
    d.isDirectory names ∧ (out.length ≤ names.length ∨ out = names ++ [name]) := by
  have hdirectory : d.isDirectory names := by
    by_contra hno
    simp [follow?, hno] at h
  refine ⟨hdirectory, ?_⟩
  by_cases hname : name = "" ∨ name = "."
  · have hout : names = out := by simpa [follow?, hdirectory, hname] using h
    exact .inl (hout ▸ Nat.le_refl _)
  by_cases hdots : name = ".."
  · subst hdots
    obtain ⟨here, rfl⟩ : ∃ here : List String, names = here.reverse :=
      ⟨names.reverse, names.reverse_reverse.symm⟩
    rw [List.reverse_reverse] at h
    cases here with
    | nil => simp [follow?] at h
    | cons last above =>
      have hout : above.reverse = out := by
        rw [List.reverse_cons] at hdirectory
        simpa [follow?, hdirectory] using h
      exact .inl (by rw [← hout, List.length_reverse, List.length_reverse]; exact Nat.le_succ _)
  · rw [not_or] at hname
    rw [follow?_singleton d names hname.1 hname.2 hdots, if_pos hdirectory] at h
    exact .inr (Option.some.inj h).symm

/-! ## The file next to a file -/

theorem locate?_eq_some_iff {path last : String} {above names : List String}
    (hpath : pathNames path = above ++ [last]) :
    d.locate? path = some names ↔ (above ++ [last]).head? ≠ some "" ∧ last ≠ "" ∧
      ∃ directory, d.follow? [] above = some directory ∧
        d.follow? directory.reverse [last] = some names := by
  simp only [locate?, hpath, List.getLast?_concat, follow?_concat]
  simp [Option.bind_eq_some_iff, and_assoc]

theorem ofList_dotted_ne (stem : List Char) {ending : List Char} (hempty : ending ≠ [])
    (hdot : '.' ∉ ending) :
    String.ofList (stem ++ '.' :: ending) ≠ "" ∧ String.ofList (stem ++ '.' :: ending) ≠ "." ∧
      String.ofList (stem ++ '.' :: ending) ≠ ".." := by
  have hne : ∀ text : List Char, stem ++ '.' :: ending ≠ text →
      String.ofList (stem ++ '.' :: ending) ≠ String.ofList text := fun text h he =>
    h (String.ofList_injective he)
  refine ⟨hne [] (by simp), hne ['.'] ?_, hne ['.', '.'] ?_⟩
  · rcases stem with - | ⟨c, cs⟩ <;> simp [hempty]
  · rcases stem with - | ⟨c, - | ⟨c', cs⟩⟩
    · rintro ⟨⟩
      simp at hdot
    · simp [hempty]
    · simp

theorem exists_locate?_withExtension {path ending : String} {names : List String}
    (hempty : ending ≠ "") (hdot : '.' ∉ ending.toList) (hslash : '/' ∉ ending.toList)
    (h : d.locate? path = some names) :
    ∃ directory name, d.locate? (Path.withExtension path ending) = some (directory ++ [name]) ∧
      d.isDirectory directory ∧
      (directory ++ [name] = names → Path.HasExtension path ending) := by
  obtain ⟨parent, stem, extension, hparts⟩ := Path.exists_parts path.toList
  obtain ⟨above, -, hnames⟩ := hparts.parent.exists_names
  have hpath : pathNames path = above ++ [String.ofList (stem ++ Path.dotted extension)] := by
    rw [← hnames _ hparts.slash, ← hparts.path_eq, String.ofList_toList]
  have hnext : pathNames (Path.withExtension path ending) =
      above ++ [String.ofList (stem ++ '.' :: ending.toList)] := by
    have hname : '/' ∉ stem ++ '.' :: ending.toList := fun hmem =>
      hparts.slash (List.mem_append_left _ (by simpa [hslash] using hmem))
    rw [← hnames _ hname, ← hparts.withExtension, String.ofList_toList]
  -- The new name leads to a file in the directory, whatever the old one leads to.
  obtain ⟨hnempty, hndot, hndots⟩ :=
    ofList_dotted_ne stem (mt String.toList_eq_nil_iff.mp hempty) hdot
  obtain ⟨hhead, -, directory, habove, hfollow⟩ := (locate?_eq_some_iff hpath).mp h
  obtain ⟨hdirectory, hout⟩ := follow?_singleton_cases hfollow
  have hfirst : (above ++ [String.ofList (stem ++ '.' :: ending.toList)]).head? ≠ some "" := by
    cases above with
    | nil => simp
    | cons first above => exact hhead
  have hlocate : d.locate? (Path.withExtension path ending) =
      some (directory ++ [String.ofList (stem ++ '.' :: ending.toList)]) :=
    (locate?_eq_some_iff hnext).mpr ⟨hfirst, hnempty, directory, habove,
      by rw [follow?_singleton d directory hnempty hndot hndots, if_pos hdirectory]⟩
  refine ⟨directory, _, hlocate, hdirectory, ?_⟩
  intro hsame
  subst hsame
  -- The old name leads out of the directory or is a file of it; only in the second case can the
  -- files be the same.
  rcases hout with hlength | hout
  · rw [List.length_append, List.length_singleton] at hlength
    omega
  · obtain ⟨-, hlast⟩ := List.append_inj' hout rfl
    have hname := List.append_cancel_left (String.ofList_injective (List.singleton_inj.mp hlast))
    cases extension with
    | none => cases hname
    | some old =>
      cases hname
      exact ⟨parent, stem, hparts⟩

end Directory

end JackCompiler
