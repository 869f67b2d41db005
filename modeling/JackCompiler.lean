import JackCompiler.Command.Directory
import JackCompiler.Main
import JackCompiler.Token.Reader
import JackCompiler.Proofs.Codegen.Preservation
import JackCompiler.Proofs.Codegen.Strictness
import JackCompiler.Proofs.Codegen.Passes
import JackCompiler.Proofs.Codegen.Constants
import JackCompiler.Proofs.Codegen.Independence
import JackCompiler.Proofs.Codegen.Storage
import JackCompiler.Proofs.Codegen.Calls
import JackCompiler.Proofs.Token.Rendering
import JackCompiler.Proofs.Codegen.Placement
import JackCompiler.Proofs.Syntax.Prefixes
import JackCompiler.Proofs.Codegen.Refusals
import JackCompiler.Proofs.Syntax.Markup
import JackCompiler.Proofs.Syntax.Pattern
import JackCompiler.Proofs.Codegen.Trace
import JackCompiler.Proofs.Codegen.Convention
import JackCompiler.Proofs.Scope.History
import JackCompiler.Proofs.Token.Reading
import JackCompiler.Proofs.Codegen.QualifiedLabels
import JackCompiler.Proofs.Codegen.ProgramNames
import JackCompiler.Proofs.Codegen.Aliasing
import JackCompiler.Proofs.Codegen.Diagnostics
import JackCompiler.Proofs.Token.Extension
import JackCompiler.Proofs.Token.Composition
import JackCompiler.Proofs.Codegen.Online
import JackCompiler.Proofs.Codegen.Truncation
import JackCompiler.Proofs.Codegen.Texts
import JackCompiler.Proofs.Codegen.Renaming
import JackCompiler.Proofs.Command.Atomicity
import JackCompiler.Proofs.Codegen.Progress
import JackCompiler.Proofs.Text.Offsets
