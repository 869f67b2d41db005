import JackCompiler.Options.File
import JackCompiler.Proofs.Codegen.Acceptance
import JackCompiler.Proofs.Command.Jobs

/-!
# Commands are all or nothing

A command that fails leaves its directory as it was. Which ones do, and what the others
write and print, is read off the arguments and the files (`run_all_or_nothing`).
-/

namespace JackCompiler

open Directory Job

section

variable {d d' : Directory} {reader : SettingsReader} {file : String} {settings : Option String}

/-! ## Requests -/

theorem gives_serve_compile {output : String} :
    Gives ((Request.compile file settings).serve fileSystem reader) d output d' ↔
      ∃ o text compiled, d.Configures reader settings o ∧ d.Holds file text ∧
        compile o text = .ok compiled ∧
        d.write (Path.withExtension file "vm") (programText compiled.program) = .ok d' ∧
        output = "" := by
  simp only [Request.serve, gives_bind, gives_readOptions, gives_compileFile, gives_write,
    gives_pure]
  constructor
  · rintro ⟨o, _, ⟨ho, rfl⟩, compiled, _, ⟨⟨text, htext, hcompile⟩, rfl⟩, -, _, hwrite, rfl, rfl⟩
    exact ⟨o, text, compiled, ho, htext, hcompile, hwrite, rfl⟩
  · rintro ⟨o, text, compiled, ho, htext, hcompile, hwrite, rfl⟩
    exact ⟨o, d, ⟨ho, rfl⟩, compiled, d, ⟨⟨text, htext, hcompile⟩, rfl⟩, (), d', hwrite, rfl, rfl⟩

theorem gives_serve_trace {output : String} :
    Gives ((Request.trace file settings).serve fileSystem reader) d output d' ↔
      (∃ o text compiled, d.Configures reader settings o ∧ d.Holds file text ∧
        compile { o with trace := true } text = .ok compiled ∧
        compiled.trace = some output) ∧ d = d' := by
  have htrace : ∀ {o : Options} {text : String} {compiled : Compiled},
      compile { o with trace := true } text = .ok compiled →
      (compiled.trace.getD "" = output ↔ compiled.trace = some output) := by
    intro o text compiled h
    obtain ⟨-, hsome⟩ := compile_eq_ok_iff.mp h
    rw [hsome]
    simp
  simp only [Request.serve, gives_bind, gives_readOptions, gives_compileFile, gives_pure]
  constructor
  · rintro ⟨o, _, ⟨ho, rfl⟩, compiled, _, ⟨⟨text, htext, hcompile⟩, rfl⟩, houtput, rfl⟩
    exact ⟨⟨o, text, compiled, ho, htext, hcompile, (htrace hcompile).mp houtput⟩, rfl⟩
  · rintro ⟨⟨o, text, compiled, ho, htext, hcompile, houtput⟩, rfl⟩
    exact ⟨o, d, ⟨ho, rfl⟩, compiled, d, ⟨⟨text, htext, hcompile⟩, rfl⟩,
      (htrace hcompile).mpr houtput, rfl⟩

theorem keeps_serve_tokens (reader : SettingsReader) (file : String) :
    Keeps ((Request.tokens file).serve fileSystem reader) :=
  (keeps_readText file).bind fun _ => keeps_pure _

theorem keeps_serve_trace (reader : SettingsReader) (file : String) (settings : Option String) :
    Keeps ((Request.trace file settings).serve fileSystem reader) :=
  (keeps_readOptions reader settings).bind fun o =>
    (keeps_compileFile file { o with trace := true }).bind fun _ => keeps_pure _

theorem atomic_serve (reader : SettingsReader) (request : Request) :
    Atomic (request.serve fileSystem reader) := by
  cases request with
  | compile file settings =>
    refine (keeps_readOptions reader settings).bind_atomic fun o => ?_
    refine (keeps_compileFile file o).bind_atomic fun compiled => ?_
    exact (atomic_write _ _).bind_pure
  | tokens file => exact (keeps_serve_tokens reader file).atomic
  | trace file settings => exact (keeps_serve_trace reader file settings).atomic

end

/-! ## Command lines -/

section

variable {d d' : Directory} {reader : SettingsReader} {arguments rest : List String}
  {file : String} {settings : Option String} {request : Request} {outcome : Outcome}

/-- The arguments after a source's name: none, or a settings file's name. -/
inductive Settled : List String → Option String → Prop
  | default : Settled [] none
  | file (path : String) (more : List String) : Settled ("--config" :: path :: more) (some path)

/-- The command line is too short, names no command, or has something else than settings
after the name of a source that is compiled. -/
def Misused (arguments : List String) : Prop :=
  arguments.length < 2 ∨ ∃ command file rest, arguments = command :: file :: rest ∧
    (command ∉ ["compile", "tokens", "trace"] ∨
      command ∈ ["compile", "trace"] ∧ rest ≠ [] ∧
        ¬ ∃ path more, rest = "--config" :: path :: more)

theorem settings?_eq_some_iff :
    Request.settings? rest = some settings ↔ Settled rest settings := by
  constructor
  · intro h
    unfold Request.settings? at h
    split at h
    · cases h
      exact .default
    · cases h
      exact .file ..
    · cases h
  · rintro (_ | ⟨path, more⟩) <;> rfl

theorem settings?_eq_none_iff : Request.settings? rest = none ↔
    rest ≠ [] ∧ ¬ ∃ path more, rest = "--config" :: path :: more := by
  unfold Request.settings?
  split
  · simp
  · simp
  · rename_i hnil hconfig
    simp only [true_iff]
    exact ⟨hnil, fun ⟨path, more, h⟩ => hconfig path more h⟩

theorem ofArguments?_eq_none_iff :
    Request.ofArguments? arguments = none ↔ Misused arguments := by
  unfold Request.ofArguments?
  split
  · simp [Misused, settings?_eq_none_iff]
  · simp [Misused]
  · simp [Misused, settings?_eq_none_iff]
  · rename_i hcompile htokens htrace
    simp only [true_iff]
    match arguments with
    | [] => exact .inl (by decide)
    | [_] => exact .inl (by simp)
    | command :: file :: rest =>
      refine .inr ⟨command, file, rest, rfl, .inl ?_⟩
      simp only [List.mem_cons, List.not_mem_nil, or_false, not_or]
      refine ⟨?_, ?_, ?_⟩ <;> rintro rfl
      · exact hcompile file rest rfl
      · exact htokens file rest rfl
      · exact htrace file rest rfl

theorem ofArguments?_compile (h : Settled rest settings) :
    Request.ofArguments? ("compile" :: file :: rest) = some (.compile file settings) := by
  rw [Request.ofArguments?, settings?_eq_some_iff.mpr h]
  rfl

theorem ofArguments?_trace (h : Settled rest settings) :
    Request.ofArguments? ("trace" :: file :: rest) = some (.trace file settings) := by
  rw [Request.ofArguments?, settings?_eq_some_iff.mpr h]
  rfl

/-! ## Exits -/

theorem run_of_misused (h : Request.ofArguments? arguments = none) :
    d.run reader arguments = (⟨64, usage, ""⟩, d) := by
  rw [Directory.run, runCommand, h]
  rfl

theorem run_of_asked (h : Request.ofArguments? arguments = some request) :
    d.run reader arguments = match Job.perform (request.serve fileSystem reader) d with
      | (.ok output, between) => (⟨0, output, ""⟩, between)
      | (.error fault, between) => (⟨fault.exitCode, "", fault.message⟩, between) := by
  rw [Directory.run, runCommand, h]
  simp only [Job.perform, bind, StateT.bind]
  rcases (request.serve fileSystem reader).run d with ⟨fault | output, between⟩ <;> rfl

theorem Fault.exitCode_cases (fault : Fault Position) :
    fault.exitCode = 1 ∨ fault.exitCode = 101 := by
  cases fault with
  | overflow => exact .inr rfl
  | _ => exact .inl rfl

theorem run_cases_of_asked (h : Request.ofArguments? arguments = some request) :
    (∃ output d', d.run reader arguments = (⟨0, output, ""⟩, d')) ∨
      ∃ code complaint, (code = 1 ∨ code = 101) ∧
        d.run reader arguments = (⟨code, "", complaint⟩, d) := by
  rw [run_of_asked h]
  cases hresult : Job.perform (request.serve fileSystem reader) d with
  | mk result between =>
    cases result with
    | ok output => exact .inl ⟨output, between, rfl⟩
    | error fault =>
      rw [atomic_serve reader request d fault between hresult]
      exact .inr ⟨fault.exitCode, fault.message, fault.exitCode_cases, rfl⟩

theorem run_eq_iff_gives (h : Request.ofArguments? arguments = some request) {output : String} :
    d.run reader arguments = (⟨0, output, ""⟩, d') ↔
      Gives (request.serve fileSystem reader) d output d' := by
  rw [run_of_asked h, Gives]
  rcases Job.perform (request.serve fileSystem reader) d with ⟨fault | given, between⟩
  · rcases fault.exitCode_cases with hcode | hcode <;> simp [hcode]
  · simp

theorem code_eq_zero_iff (h : Request.ofArguments? arguments = some request)
    (hrun : d.run reader arguments = (outcome, d')) {output : String} :
    outcome.code = 0 ∧ outcome.output = output ↔
      Gives (request.serve fileSystem reader) d output d' := by
  rw [← run_eq_iff_gives h, hrun]
  rcases run_cases_of_asked (d := d) h with
    ⟨given, between, heq⟩ | ⟨code, complaint, rfl | rfl, heq⟩ <;>
    obtain ⟨rfl, rfl⟩ := Prod.mk.inj (hrun.symm.trans heq) <;> simp

theorem run_codes (hrun : d.run reader arguments = (outcome, d')) :
    (outcome.code = 0 ∨ outcome.code = 1 ∨ outcome.code = 64 ∨ outcome.code = 101) ∧
    (outcome.code = 64 ↔ Misused arguments) ∧
    (outcome.code ≠ 0 → d' = d) ∧
    (outcome.code = 1 ∨ outcome.code = 101 → outcome.output = "") := by
  rw [← ofArguments?_eq_none_iff]
  cases hrequest : Request.ofArguments? arguments with
  | none =>
    obtain ⟨rfl, rfl⟩ := Prod.mk.inj (hrun.symm.trans (run_of_misused hrequest))
    simp
  | some request =>
    rcases run_cases_of_asked (d := d) hrequest with
      ⟨output, between, heq⟩ | ⟨code, complaint, rfl | rfl, heq⟩ <;>
      obtain ⟨rfl, rfl⟩ := Prod.mk.inj (hrun.symm.trans heq) <;> simp

/-! ## Compiling a file -/

theorem Directory.Holds.exists_write_iff {text : String} (h : d.Holds file text)
    (program : String) :
    (∃ d', d.write (Path.withExtension file "vm") program = .ok d') ↔
      ¬ d.LeadsToDirectory (Path.withExtension file "vm") := by
  obtain ⟨names, hnames, -⟩ := h
  exact exists_write_withExtension_iff (by decide) (by decide) (by decide) hnames program

theorem exists_run_compile (hsettings : Settled rest settings) {o : Options} {text : String}
    {compiled : Compiled} (ho : d.Configures reader settings o) (htext : d.Holds file text)
    (hcompile : compile o text = .ok compiled)
    (hfree : ¬ d.LeadsToDirectory (Path.withExtension file "vm")) :
    ∃ d', d.run reader ("compile" :: file :: rest) = (⟨0, "", ""⟩, d') ∧
      d.write (Path.withExtension file "vm") (programText compiled.program) = .ok d' := by
  obtain ⟨d', hwrite⟩ := (htext.exists_write_iff (programText compiled.program)).mpr hfree
  exact ⟨d', (run_eq_iff_gives (ofArguments?_compile hsettings)).mpr
    (gives_serve_compile.mpr ⟨o, text, compiled, ho, htext, hcompile, hwrite, rfl⟩), hwrite⟩

theorem code_eq_zero_iff_of_compile (hsettings : Settled rest settings)
    (hrun : d.run reader ("compile" :: file :: rest) = (outcome, d')) :
    outcome.code = 0 ↔ ∃ o text compiled, d.Configures reader settings o ∧ d.Holds file text ∧
      compile o text = .ok compiled ∧ ¬ d.LeadsToDirectory (Path.withExtension file "vm") := by
  constructor
  · intro hcode
    obtain ⟨o, text, compiled, ho, htext, hcompile, hwrite, -⟩ := gives_serve_compile.mp
      ((code_eq_zero_iff (ofArguments?_compile hsettings) hrun).mp ⟨hcode, rfl⟩)
    exact ⟨o, text, compiled, ho, htext, hcompile, (htext.exists_write_iff _).mp ⟨d', hwrite⟩⟩
  · rintro ⟨o, text, compiled, ho, htext, hcompile, hfree⟩
    obtain ⟨between, hzero, -⟩ := exists_run_compile hsettings ho htext hcompile hfree
    rw [(Prod.mk.inj (hrun.symm.trans hzero)).1]

theorem writes_of_compile (hsettings : Settled rest settings)
    (hrun : d.run reader ("compile" :: file :: rest) = (outcome, d')) {o : Options} {text : String}
    {compiled : Compiled} (ho : d.Configures reader settings o) (htext : d.Holds file text)
    (hcompile : compile o text = .ok compiled) (hcode : outcome.code = 0) :
    ∃ target, d.locate? (Path.withExtension file "vm") = some target ∧
      d.Writes target (programText compiled.program) d' ∧
      (¬ Path.HasExtension file "vm" → d'.read file = d.read file) := by
  -- The code rules out a directory in the way, so the program given is the one written.
  obtain ⟨-, -, -, -, -, -, hfree⟩ := (code_eq_zero_iff_of_compile hsettings hrun).mp hcode
  obtain ⟨between, hzero, hwrite⟩ := exists_run_compile hsettings ho htext hcompile hfree
  obtain ⟨-, rfl⟩ := Prod.mk.inj (hrun.symm.trans hzero)
  obtain ⟨names, hnames, -⟩ := htext
  exact writes_of_write_withExtension (by decide) (by decide) (by decide) hnames hwrite

/-! ## Commands that only print -/

theorem Job.Keeps.run_eq (h : Request.ofArguments? arguments = some request)
    (hkeeps : Keeps (request.serve fileSystem reader))
    (hrun : d.run reader arguments = (outcome, d')) : d' = d := by
  obtain ⟨result, hresult⟩ := hkeeps d
  rw [run_of_asked h, hresult] at hrun
  cases result <;> exact (congrArg Prod.snd hrun).symm

theorem run_trace (hsettings : Settled rest settings)
    (hrun : d.run reader ("trace" :: file :: rest) = (outcome, d')) :
    d' = d ∧ ∀ output, outcome.code = 0 ∧ outcome.output = output ↔
      ∃ o text compiled, d.Configures reader settings o ∧ d.Holds file text ∧
        compile { o with trace := true } text = .ok compiled ∧ compiled.trace = some output := by
  have hrequest : Request.ofArguments? ("trace" :: file :: rest) = _ :=
    ofArguments?_trace hsettings
  obtain rfl := (keeps_serve_trace reader file settings).run_eq hrequest hrun
  refine ⟨rfl, fun output => ?_⟩
  rw [code_eq_zero_iff hrequest hrun, gives_serve_trace, and_iff_left rfl]

/-! ## All or nothing -/

/-- The code 101 is that of a panic. -/
theorem run_all_or_nothing (hrun : d.run reader arguments = (outcome, d')) :
    (outcome.code = 0 ∨ outcome.code = 1 ∨ outcome.code = 64 ∨ outcome.code = 101) ∧
    (outcome.code = 64 ↔ Misused arguments) ∧
    (outcome.code ≠ 0 → d' = d) ∧
    (outcome.code = 1 ∨ outcome.code = 101 → outcome.output = "") ∧
    (∀ file rest settings, arguments = "compile" :: file :: rest → Settled rest settings →
      (outcome.code = 0 ↔ ∃ o text compiled, d.Configures reader settings o ∧ d.Holds file text ∧
        compile o text = .ok compiled ∧ ¬ d.LeadsToDirectory (Path.withExtension file "vm")) ∧
      ∀ o text compiled, d.Configures reader settings o → d.Holds file text →
        compile o text = .ok compiled → outcome.code = 0 →
        ∃ target, d.locate? (Path.withExtension file "vm") = some target ∧
          d.Writes target (programText compiled.program) d' ∧
          (¬ Path.HasExtension file "vm" → d'.read file = d.read file)) ∧
    (∀ file rest, arguments = "tokens" :: file :: rest → d' = d) ∧
    ∀ file rest settings, arguments = "trace" :: file :: rest → Settled rest settings →
      d' = d ∧ ∀ output, outcome.code = 0 ∧ outcome.output = output ↔
        ∃ o text compiled, d.Configures reader settings o ∧ d.Holds file text ∧
          compile { o with trace := true } text = .ok compiled ∧
          compiled.trace = some output := by
  obtain ⟨hcode, husage, hfailed, hsilent⟩ := run_codes hrun
  refine ⟨hcode, husage, hfailed, hsilent, ?_, ?_, ?_⟩
  · rintro file rest settings rfl hsettings
    exact ⟨code_eq_zero_iff_of_compile hsettings hrun,
      fun o text compiled ho htext hcompile => writes_of_compile hsettings hrun ho htext hcompile⟩
  · rintro file rest rfl
    exact (keeps_serve_tokens reader file).run_eq rfl hrun
  · rintro file rest settings rfl hsettings
    exact run_trace hsettings hrun

def loopDirectory : Directory :=
  ⟨[(["A.jack"], loopSource.toUTF8.toList), (["A.yaml"], "strict: true".toUTF8.toList)]⟩

def loopArguments : List String :=
  ["compile", "A.jack", "--config", "A.yaml"]

theorem run_all_or_nothing_loopDirectory :
    ∃ out, compile { strict := true } loopSource = .ok out ∧
      (loopDirectory.run Options.ofFile? loopArguments).1.code = 0 ∧
      (loopDirectory.run Options.ofFile? loopArguments).2.file? ["A.vm"] =
        some (programText out.program).toUTF8.toList ∧
      (loopDirectory.run Options.ofFile? loopArguments).2.read "A.jack" =
        loopDirectory.read "A.jack" := by
  obtain ⟨out, hout⟩ : ∃ out, compile { strict := true } loopSource = .ok out := by
    rw [exists_compile_iff]
    decide +kernel
  have hsettings : loopDirectory.Configures Options.ofFile? (some "A.yaml") { strict := true } :=
    .file (read_eq_ok_iff.mpr ⟨["A.yaml"], by decide, rfl⟩) (by decide +kernel)
  have hholds : loopDirectory.Holds "A.jack" loopSource := ⟨["A.jack"], by decide, rfl⟩
  have hnext : loopDirectory.locate? (Path.withExtension "A.jack" "vm") = some ["A.vm"] := by
    decide
  have hfree : ¬ loopDirectory.LeadsToDirectory (Path.withExtension "A.jack" "vm") := by
    rintro ⟨names, hnames, hdirectory⟩
    obtain rfl := Option.some.inj (hnext.symm.trans hnames)
    exact absurd hdirectory (by decide)
  have hextension : ¬ Path.HasExtension "A.jack" "vm" := by
    rintro ⟨parent, stem, h⟩
    have hlast := congrArg List.getLast? h.path_eq
    simp [Path.dotted] at hlast
  cases hrun : loopDirectory.run Options.ofFile? loopArguments with
  | mk outcome d' =>
    obtain ⟨hcode, hwrites⟩ :=
      (run_all_or_nothing hrun).2.2.2.2.1 "A.jack" _ _ rfl (.file "A.yaml" [])
    have hzero := hcode.mpr ⟨_, loopSource, out, hsettings, hholds, hout, hfree⟩
    obtain ⟨target, htarget, hwritten, hread⟩ :=
      hwrites _ loopSource out hsettings hholds hout hzero
    obtain rfl := Option.some.inj (hnext.symm.trans htarget)
    exact ⟨out, hout, hzero, (hwritten.file? _).trans (if_pos rfl), hread hextension⟩

end

end JackCompiler
