import Arth.Vm.Bytecode
import Arth.Vm.Roundtrip
import Arth.Vm.Library
import Arth.Codegen.Compile
import Arth.Codegen.Emission
import Arth.Codegen.Link
import Arth.Codegen.Targets
import Arth.Vm.Machine
import Arth.Lib.Runs
import Arth.Vm.Confinement
import Arth.Vm.Handles
import Arth.Codegen.Dispatch
import Arth.Lower.Layout
import Arth.Lower.Elaboration
import Arth.Lower.Scoping
import Arth.Opt.Simple
import Arth.Runtime.Order
import Arth.Runtime.Actor
import Arth.Runtime.Receive
import Arth.Runtime.Stranding
import Arth.Runtime.Completion
import Arth.Codegen.Symbols
import Arth.Typeck.Dangling
import Arth.Typeck.Bookkeeping
import Arth.Driver.Extlib
import Arth.Driver.Fingerprints
import Arth.Driver.Rebuild
import Arth.Driver.Invalidation
import Arth.Driver.Consistency
import Arth.Runtime.Honest
import Arth.Typeck.Witnesses
import Arth.Typeck.Solver
import Arth.Typeck.Nll
import Arth.Typeck.Derivation
import Arth.Vm.Native
import Arth.Vm.OsrRuns
import Arth.Vm.OverCaller
import Arth.Vm.Export
import Arth.Parser.Grammar
import Arth.Parser.TypeNames
import Arth.Typeck.Handled
import Arth.Typeck.Assigned
import Arth.Ir.Frontier
import Arth.Ir.AsyncSaved
import Arth.Vm.JsonRfc
import Arth.Vm.Untrusted
import Arth.Codegen.Calls
import Arth.Codegen.SourceMap
import Arth.Codegen.Lambdas
import Arth.Lower.Optionals
import Arth.Lower.ShortCircuit
import Arth.Lower.Constants
import Arth.Codegen.LlvmLayouts
import Arth.Typeck.EscapeMarks
import Arth.Runtime.ChannelWaiters
import Arth.Runtime.TaskTable
import Arth.Runtime.Affinity
import Arth.Vm.ValueMap
import Arth.Vm.Strings
import Arth.Vm.StructJson
import Arth.Vm.BigInt
import Arth.Vm.DateTime
import Arth.Runtime.Encoding
import Arth.Vm.Tiers
import Arth.Vm.Template
import Arth.Syntax.Literals
import Arth.Runtime.Timers
import Arth.Vm.BigDecimal
import Arth.Resolve.InitOrder
import Arth.Resolve.Imports
import Arth.Codegen.Encoded
