import OwnLang.Check.Basic
import OwnLang.CommandLine.Basic
import OwnLang.Core.Coerce
import OwnLang.Diagnostic.Report
import OwnLang.Inquiry
import OwnLang.Main
import OwnLang.Proofs.Check.Instances
import OwnLang.Proofs.Check.Folding
import OwnLang.Proofs.Core.Walk
import OwnLang.Proofs.Check.Inversion
import OwnLang.Proofs.Check.Reach
import OwnLang.Proofs.Core.Typing
import OwnLang.Proofs.Check.Elaborate
import OwnLang.Proofs.Check.TypedValue
import OwnLang.Proofs.Check.TypedBody
import OwnLang.Proofs.Emit.Build
import OwnLang.Proofs.Exec.Graph
import OwnLang.Proofs.Emit.Growth
import OwnLang.Proofs.Emit.Simulate
import OwnLang.Proofs.Emit.SimulateValue
import OwnLang.Proofs.Core.Route
import OwnLang.Proofs.Exec.Route
import OwnLang.Proofs.Emit.SimulateBody
import OwnLang.Proofs.Check.Moments
import OwnLang.Proofs.Check.Containment
import OwnLang.Proofs.Check.Accepted
import OwnLang.Proofs.Emit.Render
import OwnLang.Proofs.Emit.Function
import OwnLang.Proofs.Emit.Module
import OwnLang.Proofs.Check.Declared
import OwnLang.Proofs.Check.Finished
import OwnLang.Proofs.Emit.Linkage
import OwnLang.Proofs.Emit.Linking
import OwnLang.Proofs.Grammar.Words
import OwnLang.Proofs.Grammar.Bare
import OwnLang.Proofs.Grammar.Print
import OwnLang.Proofs.Token.Tiling
import OwnLang.Proofs.Grammar.RoundTrip
import OwnLang.Proofs.Emit.Flow
import OwnLang.Proofs.Check.Guard
import OwnLang.Proofs.Check.GuardBody
import OwnLang.Proofs.Check.Pruned
import OwnLang.Proofs.Emit.FlowBody
import OwnLang.Proofs.Emit.WellFormed
import OwnLang.Proofs.Emit.LinkingBody
import OwnLang.Proofs.Check.Roll
import OwnLang.Proofs.Emit.Closed
import OwnLang.Proofs.Emit.Covered
import OwnLang.Proofs.Check.Hygiene
import OwnLang.Proofs.Check.WriteOnce
import OwnLang.Proofs.Check.Release
import OwnLang.Proofs.Check.Comparison
import OwnLang.Proofs.Check.Copyable
import OwnLang.Proofs.Core.Coerce
import OwnLang.Proofs.Check.Initializer
import OwnLang.Proofs.Check.Written
import OwnLang.Proofs.Grammar.Precedence
import OwnLang.Proofs.Grammar.Progress
import OwnLang.Proofs.Grammar.Nesting
import OwnLang.Proofs.Ir.Strings
import OwnLang.Proofs.Check.Values
import OwnLang.Proofs.Check.ValuesBody
import OwnLang.Proofs.Emit.Printing
import OwnLang.Proofs.Emit.PrintCalls
import OwnLang.Proofs.Check.Sizes
import OwnLang.Proofs.Check.Depth
import OwnLang.Proofs.Emit.Allocation
import OwnLang.Proofs.Emit.Texts
import OwnLang.Proofs.Diagnostic.Report
import OwnLang.Proofs.Ir.Discipline
import OwnLang.Proofs.Check.Scope
