import JackCompiler.Proofs.Command.Paths
import JackCompiler.Proofs.Text.Utf8

/-!
# Reading and writing in a directory

Writing changes the one file that the path leads to and no directory, and fails only if the
path leads nowhere or to a directory (`Directory.write_eq_ok_iff`).
-/

namespace JackCompiler

namespace Directory

variable {d d' : Directory}

/-! ## Putting a file in place -/

theorem lookup_cons_eq (other name : List String) (bytes : List UInt8)
    (files : List (List String × List UInt8)) :
    ((name, bytes) :: files).lookup other =
      if other = name then some bytes else files.lookup other := by
  by_cases h : other = name
  · simp [h]
  · rw [List.lookup_cons, beq_false_of_ne h, if_neg h]

theorem lookup_put (names : List String) (bytes : List UInt8)
    (files : List (List String × List UInt8)) (other : List String) :
    (put names bytes files).lookup other =
      if other = names then some bytes else files.lookup other := by
  induction files with
  | nil => exact lookup_cons_eq ..
  | cons file files ih =>
    obtain ⟨name, old⟩ := file
    rw [put, lookup_cons_eq]
    by_cases hname : name = names
    · rw [if_pos hname, lookup_cons_eq]
      grind
    · rw [if_neg hname, lookup_cons_eq, ih]
      grind

theorem mem_put {names : List String} {bytes : List UInt8}
    {files : List (List String × List UInt8)} {name : List String} :
    name ∈ (put names bytes files).map Prod.fst ↔ name = names ∨ name ∈ files.map Prod.fst := by
  induction files with
  | nil => simp [put]
  | cons file files ih =>
    rw [put]
    by_cases hname : file.1 = names
    · rw [if_pos hname]
      simp [hname]
    · rw [if_neg hname, List.map_cons, List.mem_cons, ih, List.map_cons, List.mem_cons,
        or_left_comm]

theorem isDirectory_iff {names : List String} :
    d.isDirectory names ↔
      names = [] ∨ ∃ file ∈ d.files.map Prod.fst, ∃ below ≠ [], file = names ++ below := by
  simp only [isDirectory, Bool.or_eq_true, List.isEmpty_iff, List.any_eq_true, Bool.and_eq_true,
    decide_eq_true_eq, List.isPrefixOf_iff_prefix, List.mem_map]
  refine or_congr_right ⟨?_, ?_⟩
  · rintro ⟨file, hfile, hlength, below, hbelow⟩
    refine ⟨file.1, ⟨file, hfile, rfl⟩, below, ?_, hbelow.symm⟩
    rintro rfl
    rw [← hbelow, List.append_nil] at hlength
    exact Nat.lt_irrefl _ hlength
  · rintro ⟨-, ⟨file, hfile, rfl⟩, below, hne, hbelow⟩
    have hlength := List.length_pos_iff.mpr hne
    exact ⟨file, hfile, by rw [hbelow, List.length_append]; omega, below, hbelow.symm⟩

theorem isDirectory_of_append {names below : List String} (h : d.isDirectory (names ++ below)) :
    d.isDirectory names := by
  rw [isDirectory_iff] at h ⊢
  rcases h with hnil | ⟨file, hfile, more, hne, rfl⟩
  · exact .inl (List.append_eq_nil_iff.mp hnil).1
  · exact .inr ⟨_, hfile, below ++ more, by simp [hne], List.append_assoc ..⟩

/-- A file that is put into a directory makes no other one. -/
theorem isDirectory_put {directory : List String} (h : d.isDirectory directory) (name : String)
    (bytes : List UInt8) :
    (⟨put (directory ++ [name]) bytes d.files⟩ : Directory).isDirectory = d.isDirectory := by
  funext names
  rw [Bool.eq_iff_iff]
  constructor
  · intro hput
    rw [isDirectory_iff] at hput
    rcases hput with rfl | ⟨file, hfile, below, hne, heq⟩
    · exact isDirectory_iff.mpr (.inl rfl)
    rcases mem_put.mp hfile with rfl | hfile
    -- What is above the new file is the directory it is put into, or above that.
    · rw [← List.dropLast_concat_getLast hne, ← List.append_assoc] at heq
      rw [(List.append_inj' heq rfl).1] at h
      exact isDirectory_of_append h
    · exact isDirectory_iff.mpr (.inr ⟨file, hfile, below, hne, heq⟩)
  · rw [isDirectory_iff, isDirectory_iff]
    rintro (rfl | ⟨file, hfile, hbelow⟩)
    · exact .inl rfl
    · exact .inr ⟨file, mem_put.mpr (.inr hfile), hbelow⟩

/-! ## Following paths -/

theorem follow?_congr (h : d'.isDirectory = d.isDirectory) (here names : List String) :
    d'.follow? here names = d.follow? here names := by
  fun_induction d.follow? here names with
  | case1 => rfl
  | case2 | case3 | case4 | case5 | case6 => simp_all [follow?]

theorem locate?_congr (h : d'.isDirectory = d.isDirectory) (path : String) :
    d'.locate? path = d.locate? path := by
  rw [locate?, locate?, follow?_congr h]

/-! ## Reading -/

def Holds (d : Directory) (path : String) (text : String) : Prop :=
  ∃ names, d.locate? path = some names ∧ d.file? names = some text.toUTF8.toList

theorem read_eq_ok_iff {path : String} {bytes : List UInt8} :
    d.read path = .ok bytes ↔
      ∃ names, d.locate? path = some names ∧ d.file? names = some bytes := by
  rw [← Option.bind_eq_some_iff, read]
  cases h : d.locate? path >>= d.file? with
  | none => simp [← Option.bind_eq_bind, h]
  | some => simp [← Option.bind_eq_bind, h]

/-! ## Writing -/

theorem write_eq_ok_iff {path text : String} :
    d.write path text = .ok d' ↔ ∃ names, d.locate? path = some names ∧
      d.isDirectory names = false ∧ ⟨put names text.toUTF8.toList d.files⟩ = d' := by
  rw [write]
  cases d.locate? path with
  | none => simp
  | some names => cases h : d.isDirectory names <;> simp [h]

/-- The second directory has that text in the file of that name, and no other difference. -/
structure Writes (d : Directory) (names : List String) (text : String) (d' : Directory) :
    Prop where
  file? : ∀ other,
    d'.file? other = if other = names then some text.toUTF8.toList else d.file? other
  locate? : ∀ path, d'.locate? path = d.locate? path

theorem writes_put {directory : List String} (h : d.isDirectory directory) (name text : String) :
    d.Writes (directory ++ [name]) text
      ⟨put (directory ++ [name]) text.toUTF8.toList d.files⟩ where
  file? := lookup_put _ _ d.files
  locate? := locate?_congr (isDirectory_put h name _)

theorem Writes.read_eq {names : List String} {text path : String} (h : d.Writes names text d')
    (hpath : d.locate? path ≠ some names) : d'.read path = d.read path := by
  have hfile : d'.locate? path >>= d'.file? = d.locate? path >>= d.file? := by
    rw [h.locate?]
    cases hlocate : d.locate? path with
    | none => rfl
    | some other =>
      have hne : other ≠ names := fun he => hpath (he ▸ hlocate)
      exact (h.file? other).trans (if_neg hne)
  rw [read, read, hfile]

def LeadsToDirectory (d : Directory) (path : String) : Prop :=
  ∃ names, d.locate? path = some names ∧ d.isDirectory names

section

variable {path ending : String} {names : List String} (hempty : ending ≠ "")
  (hdot : '.' ∉ ending.toList) (hslash : '/' ∉ ending.toList) (h : d.locate? path = some names)

include hempty hdot hslash h

/-- Next to a file another one can be written, unless there is a directory of its name. -/
theorem exists_write_withExtension_iff (text : String) :
    (∃ d', d.write (Path.withExtension path ending) text = .ok d') ↔
      ¬ d.LeadsToDirectory (Path.withExtension path ending) := by
  obtain ⟨directory, name, hlocate, -⟩ := exists_locate?_withExtension hempty hdot hslash h
  simp [write_eq_ok_iff, LeadsToDirectory, hlocate]

theorem writes_of_write_withExtension {text : String}
    (hwrite : d.write (Path.withExtension path ending) text = .ok d') :
    ∃ target, d.locate? (Path.withExtension path ending) = some target ∧
      d.Writes target text d' ∧
      (¬ Path.HasExtension path ending → d'.read path = d.read path) := by
  obtain ⟨directory, name, hlocate, hdirectory, hname⟩ :=
    exists_locate?_withExtension hempty hdot hslash h
  obtain ⟨target, htarget, -, rfl⟩ := write_eq_ok_iff.mp hwrite
  obtain rfl := Option.some.inj (hlocate.symm.trans htarget)
  have hwrites := writes_put hdirectory name text
  refine ⟨_, hlocate, hwrites, fun hextension => hwrites.read_eq ?_⟩
  rw [h]
  exact fun he => hextension (hname (Option.some.inj he).symm)

end

end Directory

end JackCompiler
