import Transpiler.Main
import Transpiler.Text.Pattern
import Transpiler.Proofs.SourceMap.Construction
import Transpiler.Proofs.Source.Reached
import Transpiler.Proofs.Meaning.Function
import Transpiler.Proofs.Compile.Features
import Transpiler.Proofs.Compile.Assigned
import Transpiler.Proofs.Compile.Hygiene
import Transpiler.Proofs.Compile.Bracketed
import Transpiler.Proofs.Meaning.Handlers
import Transpiler.Proofs.Compile.Prefixed
import Transpiler.Proofs.Command.Visits
import Transpiler.Proofs.Compile.Doubts
import Transpiler.Proofs.Meaning.Range
import Transpiler.Proofs.Compile.Captured
import Transpiler.Proofs.Compile.FunctionKinds
import Transpiler.Proofs.Compile.Interpolated
import Transpiler.Proofs.Compile.Superclass
import Transpiler.Proofs.Meaning.Decorated
import Transpiler.Proofs.Compile.ModulePaths
import Transpiler.Proofs.SourceMap.Sorted
import Transpiler.Proofs.Compile.Remapped
import Transpiler.Proofs.Script.Comments
import Transpiler.Proofs.SourceMap.Inline
import Transpiler.Proofs.Command.Failing
