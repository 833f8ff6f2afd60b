import ShaderDialect.Main
import ShaderDialect.Proofs.Body.Nesting
import ShaderDialect.Proofs.Build.Freshness
import ShaderDialect.Proofs.Build.Overwriting
import ShaderDialect.Proofs.Build.Schedules
import ShaderDialect.Proofs.Build.UpToDate
import ShaderDialect.Proofs.Command.Checking
import ShaderDialect.Proofs.Condition.Printing
import ShaderDialect.Proofs.Config.Arguments
import ShaderDialect.Proofs.Config.Compilers
import ShaderDialect.Proofs.Emit.Bindings
import ShaderDialect.Proofs.Emit.Declarations
import ShaderDialect.Proofs.Emit.Layout
import ShaderDialect.Proofs.Emit.Literals
import ShaderDialect.Proofs.Emit.Plumbing
import ShaderDialect.Proofs.Expression.Matrices
import ShaderDialect.Proofs.Program.Progress
import ShaderDialect.Proofs.Reload.Truncation
import ShaderDialect.Proofs.ResourceTable.Counters
import ShaderDialect.Proofs.ResourceTable.Header
import ShaderDialect.Proofs.ResourceTable.Independence
import ShaderDialect.Proofs.ResourceTable.Insertion
import ShaderDialect.Proofs.ShaderUnit.Recursion
import ShaderDialect.Proofs.ShaderUnit.Validation
import ShaderDialect.Proofs.Source.Visibility
import ShaderDialect.Proofs.Token.Lines
import ShaderDialect.Proofs.VariantContainer.Insertions
