import JackCompiler.Proofs.Command.Files

/-!
# Jobs in a directory

What the steps of a command give, for the files that there are, and what they leave: reading
keeps the directory as it is, and writing does if it fails.
-/

namespace JackCompiler

/-! ## Jobs -/

abbrev Job (α : Type) := ExceptT (Fault Position) (StateM Directory) α

namespace Job

variable {α β : Type} {d d' : Directory}

def perform (x : Job α) (d : Directory) : Except (Fault Position) α × Directory :=
  x.run d

def Gives (x : Job α) (d : Directory) (a : α) (d' : Directory) : Prop :=
  perform x d = (.ok a, d')

/-- The job leaves a directory in which it fails as it is. -/
def Atomic (x : Job α) : Prop :=
  ∀ d fault d', perform x d = (.error fault, d') → d' = d

def Keeps (x : Job α) : Prop :=
  ∀ d, ∃ result, perform x d = (result, d)

theorem perform_bind (x : Job α) (f : α → Job β) (d : Directory) :
    perform (x >>= f) d = match perform x d with
      | (.ok a, between) => perform (f a) between
      | (.error fault, between) => (.error fault, between) := by
  simp only [perform, bind, ExceptT.run, ExceptT.bind, ExceptT.mk, StateT.bind]
  rcases x d with ⟨fault | a, between⟩ <;> rfl

/-! ### What a job gives -/

theorem gives_pure {a b : α} : Gives (pure a) d b d' ↔ a = b ∧ d = d' := by
  constructor
  · rintro ⟨⟩
    exact ⟨rfl, rfl⟩
  · rintro ⟨rfl, rfl⟩
    rfl

theorem not_gives_throw {fault : Fault Position} {a : α} : ¬ Gives (throw fault) d a d' := by
  rintro ⟨⟩

theorem gives_bind {x : Job α} {f : α → Job β} {b : β} :
    Gives (x >>= f) d b d' ↔ ∃ a between, Gives x d a between ∧ Gives (f a) between b d' := by
  rw [Gives, perform_bind]
  constructor
  · intro h
    split at h
    · exact ⟨_, _, ‹_›, h⟩
    · cases h
  · rintro ⟨a, between, hx, hf⟩
    rw [hx]
    exact hf

theorem perform_orFault (action : StateM Directory (Except String α)) (d : Directory) :
    perform (orFault action) d = ((action d).1.mapError Fault.file, (action d).2) := by
  simp only [perform, orFault, ExceptT.run_mk, bind, StateT.bind]
  rcases action d with ⟨message | a, between⟩ <;> rfl

/-! ### What a job leaves -/

theorem keeps_pure (a : α) : Keeps (pure a) :=
  fun _ => ⟨.ok a, rfl⟩

theorem keeps_throw (fault : Fault Position) : Keeps (throw fault : Job α) :=
  fun _ => ⟨.error fault, rfl⟩

theorem Keeps.bind {x : Job α} {f : α → Job β} (hx : Keeps x) (hf : ∀ a, Keeps (f a)) :
    Keeps (x >>= f) := by
  intro d
  obtain ⟨result, hresult⟩ := hx d
  rw [perform_bind, hresult]
  cases result with
  | ok a => exact hf a d
  | error fault => exact ⟨.error fault, rfl⟩

theorem Keeps.atomic {x : Job α} (h : Keeps x) : Atomic x := by
  intro d fault d' hx
  obtain ⟨result, hresult⟩ := h d
  rw [hx] at hresult
  exact congrArg Prod.snd hresult

theorem Keeps.bind_atomic {x : Job α} {f : α → Job β} (hx : Keeps x) (hf : ∀ a, Atomic (f a)) :
    Atomic (x >>= f) := by
  intro d fault d' h
  obtain ⟨result, hresult⟩ := hx d
  rw [perform_bind, hresult] at h
  cases result with
  | ok a => exact hf a d fault d' h
  | error fault' => exact (congrArg Prod.snd h).symm

theorem Atomic.bind_pure {x : Job α} {f : α → β} (hx : Atomic x) :
    Atomic (x >>= fun a => pure (f a)) := by
  intro d fault d' h
  rw [perform_bind] at h
  split at h
  · cases h
  · rename_i hfault
    cases h
    exact hx d _ d' hfault

end Job

/-! ## Reading and writing -/

/-- The settings file, if there is one, is valid for the reader and describes the options. -/
inductive Directory.Configures (d : Directory) (reader : SettingsReader) :
    Option String → Options → Prop
  | default : d.Configures reader none {}
  | file {path : String} {bytes : List UInt8} {o : Options} (h : d.read path = .ok bytes)
      (ho : reader bytes = some o) : d.Configures reader (some path) o

open Directory Job

section

variable {d d' : Directory} {reader : SettingsReader} {path file : String}
  {settings : Option String} {o : Options}

theorem gives_read {bytes : List UInt8} :
    Gives (orFault (fileSystem.read path)) d bytes d' ↔ d.read path = .ok bytes ∧ d = d' := by
  rw [Gives, perform_orFault]
  show ((d.read path).mapError Fault.file, d) = _ ↔ _
  cases d.read path <;> simp [Except.mapError]

theorem keeps_read (path : String) : Keeps (orFault (fileSystem.read path)) :=
  fun d => ⟨_, perform_orFault _ d⟩

theorem gives_write {text : String} {u : Unit} :
    Gives (orFault (fileSystem.write path text)) d u d' ↔ d.write path text = .ok d' := by
  rw [Gives, perform_orFault]
  simp only [fileSystem]
  cases d.write path text <;> simp [Except.mapError]

theorem atomic_write (path text : String) : Atomic (orFault (fileSystem.write path text)) := by
  intro d fault d' h
  rw [perform_orFault] at h
  simp only [fileSystem] at h
  cases hwrite : d.write path text with
  | ok => simp [hwrite, Except.mapError] at h
  | error => simp_all

theorem gives_readText {text : List Char} :
    Gives (readText fileSystem path) d text d' ↔ d.Holds path (String.ofList text) ∧ d = d' := by
  rw [readText, gives_bind]
  constructor
  · rintro ⟨bytes, between, hbytes, htext⟩
    obtain ⟨hread, rfl⟩ := gives_read.mp hbytes
    obtain ⟨names, hlocate, hfile⟩ := read_eq_ok_iff.mp hread
    cases hdecode : Utf8.decode bytes with
    | error fault =>
      rw [hdecode] at htext
      exact (not_gives_throw htext).elim
    | ok decoded =>
      rw [hdecode] at htext
      obtain ⟨rfl, rfl⟩ := gives_pure.mp htext
      rw [Utf8.decode_eq_ok_iff_toUTF8.mp hdecode] at hfile
      exact ⟨⟨names, hlocate, hfile⟩, rfl⟩
  · rintro ⟨⟨names, hlocate, hfile⟩, rfl⟩
    refine ⟨_, d, gives_read.mpr ⟨read_eq_ok_iff.mpr ⟨names, hlocate, hfile⟩, rfl⟩, ?_⟩
    rw [Utf8.decode_eq_ok_iff_toUTF8.mpr rfl]
    exact gives_pure.mpr ⟨rfl, rfl⟩

theorem keeps_readText (path : String) : Keeps (readText fileSystem path) := by
  refine (keeps_read path).bind fun bytes => ?_
  cases Utf8.decode bytes with
  | ok text => exact keeps_pure text
  | error fault => exact keeps_throw _

theorem gives_readOptions :
    Gives (readOptions fileSystem reader settings) d o d' ↔
      d.Configures reader settings o ∧ d = d' := by
  cases settings with
  | none =>
    rw [readOptions, gives_pure]
    refine and_congr_left' ⟨?_, ?_⟩
    · rintro rfl
      exact .default
    · rintro ⟨⟩
      rfl
  | some path =>
    rw [readOptions, gives_bind]
    constructor
    · rintro ⟨bytes, between, hread, ho⟩
      obtain ⟨hbytes, rfl⟩ := gives_read.mp hread
      cases hsettings : reader bytes with
      | none =>
        rw [hsettings] at ho
        exact (not_gives_throw ho).elim
      | some described =>
        rw [hsettings] at ho
        obtain ⟨rfl, rfl⟩ := gives_pure.mp ho
        exact ⟨.file hbytes hsettings, rfl⟩
    · rintro ⟨hconfigures, rfl⟩
      obtain ⟨-⟩ | ⟨hbytes, ho⟩ := hconfigures
      refine ⟨_, d, gives_read.mpr ⟨hbytes, rfl⟩, ?_⟩
      rw [ho]
      exact gives_pure.mpr ⟨rfl, rfl⟩

theorem keeps_readOptions (reader : SettingsReader) (settings : Option String) :
    Keeps (readOptions fileSystem reader settings) := by
  cases settings with
  | none => exact keeps_pure _
  | some path =>
    refine (keeps_read path).bind fun bytes => ?_
    cases reader bytes with
    | some o => exact keeps_pure o
    | none => exact keeps_throw _

theorem gives_compileFile {compiled : Compiled} :
    Gives (compileFile fileSystem file o) d compiled d' ↔
      (∃ text, d.Holds file text ∧ compile o text = .ok compiled) ∧ d = d' := by
  rw [compileFile, gives_bind]
  constructor
  · rintro ⟨text, between, hread, hcompiled⟩
    obtain ⟨htext, rfl⟩ := gives_readText.mp hread
    cases hcompile : compile o (String.ofList text) with
    | error fault =>
      rw [hcompile] at hcompiled
      exact (not_gives_throw hcompiled).elim
    | ok out =>
      rw [hcompile] at hcompiled
      obtain ⟨rfl, rfl⟩ := gives_pure.mp hcompiled
      exact ⟨⟨_, htext, hcompile⟩, rfl⟩
  · rintro ⟨⟨text, htext, hcompile⟩, rfl⟩
    refine ⟨text.toList, d, gives_readText.mpr ⟨by rwa [String.ofList_toList], rfl⟩, ?_⟩
    rw [String.ofList_toList, hcompile]
    exact gives_pure.mpr ⟨rfl, rfl⟩

theorem keeps_compileFile (file : String) (o : Options) :
    Keeps (compileFile fileSystem file o) := by
  refine (keeps_readText file).bind fun text => ?_
  cases compile o (String.ofList text) with
  | ok compiled => exact keeps_pure compiled
  | error fault => exact keeps_throw fault

end

end JackCompiler
