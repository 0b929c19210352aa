import ModuleCompiler.Text.Basic
import ModuleCompiler.Unicode.Ranges
import ModuleCompiler.Unicode.DecimalDigit
import ModuleCompiler.Unicode.WordCharacter
import ModuleCompiler.Unicode.Blank
import ModuleCompiler.Table
import ModuleCompiler.CompileError
import ModuleCompiler.Path.Basic
import ModuleCompiler.Path.Extension
import ModuleCompiler.Version.Basic
import ModuleCompiler.Version.Constraint
import ModuleCompiler.Version.Interval
import ModuleCompiler.Version.Versioned
import ModuleCompiler.ModuleId
import ModuleCompiler.Json.Token
import ModuleCompiler.Json.Basic
import ModuleCompiler.Config
import ModuleCompiler.Scope.Basic
import ModuleCompiler.Scope.Descriptor
import ModuleCompiler.Trace
import ModuleCompiler.Version.Resolution
import ModuleCompiler.Script.Lexeme
import ModuleCompiler.Script.Cell
import ModuleCompiler.Script.Call
import ModuleCompiler.Script.Splice
import ModuleCompiler.Script.Reference
import ModuleCompiler.Script.Header
import ModuleCompiler.CompiledFile
import ModuleCompiler.Output
import ModuleCompiler.Loader
import ModuleCompiler.Session
import ModuleCompiler.Compiler
import ModuleCompiler.FileTree
import ModuleCompiler.CommandLine.Options
import ModuleCompiler.CommandLine.Run
import ModuleCompiler.Main
import ModuleCompiler.Proofs.Lists
import ModuleCompiler.Proofs.Session.Execution
import ModuleCompiler.Proofs.Session.Growth
import ModuleCompiler.Proofs.Session.Log
import ModuleCompiler.Proofs.Compile.Loading
import ModuleCompiler.Proofs.Compile.Outlook
import ModuleCompiler.Proofs.Compile.Recursion
import ModuleCompiler.Proofs.Compile.Induction
import ModuleCompiler.Proofs.Compile.Chain
import ModuleCompiler.Proofs.Compile.Steps
import ModuleCompiler.Proofs.Compile.Nesting
import ModuleCompiler.Proofs.Compile.Failure
import ModuleCompiler.Proofs.Compile.Cut
import ModuleCompiler.Proofs.Compile.Unversioned
import ModuleCompiler.Proofs.Cache.Invariant
import ModuleCompiler.Proofs.Cache.LoadOrder
import ModuleCompiler.Proofs.Cache.Traversal
import ModuleCompiler.Proofs.Cache.Pins
import ModuleCompiler.Proofs.Cache.Retry
import ModuleCompiler.Proofs.Cache.Accounting
import ModuleCompiler.Proofs.Cache.Cycle
import ModuleCompiler.Proofs.Cache.History
import ModuleCompiler.Proofs.Version.Narrowing
import ModuleCompiler.Proofs.Version.Bounds
import ModuleCompiler.Proofs.Version.Pinning
import ModuleCompiler.Proofs.Path.Normal
import ModuleCompiler.Proofs.Path.Extension
import ModuleCompiler.Proofs.Version.Splitting
import ModuleCompiler.Proofs.Version.Printing
import ModuleCompiler.Proofs.Version.Spelling
import ModuleCompiler.Proofs.Path.Pathname
import ModuleCompiler.Proofs.Script.Settling
import ModuleCompiler.Proofs.Compile.Requests
import ModuleCompiler.Proofs.Compile.Ranges
import ModuleCompiler.Proofs.Path.Ancestors
import ModuleCompiler.Proofs.Compile.NormalPathnames
import ModuleCompiler.Proofs.Output.Targets
import ModuleCompiler.Proofs.FileTree.Following
import ModuleCompiler.Proofs.FileTree.Writing
import ModuleCompiler.Proofs.Output.Written
import ModuleCompiler.Proofs.Scope.Declared
import ModuleCompiler.Proofs.Scope.Nearest
import ModuleCompiler.Proofs.Script.Layout
import ModuleCompiler.Proofs.Script.Alignment
import ModuleCompiler.Proofs.Script.Lexing
import ModuleCompiler.Proofs.Script.Respelling
import ModuleCompiler.Proofs.Script.Recognition
import ModuleCompiler.Proofs.Script.Scanning
import ModuleCompiler.Proofs.Script.Rescanning
import ModuleCompiler.Proofs.Script.HeaderSearch
import ModuleCompiler.Proofs.Script.HeaderReplacement
import ModuleCompiler.Proofs.Output.Stamps
import ModuleCompiler.Proofs.Path.Collapsed
import ModuleCompiler.Proofs.Version.Enclosed
import ModuleCompiler.Proofs.Version.Expansion
import ModuleCompiler.Proofs.ModuleId.Canonical
import ModuleCompiler.Proofs.ModuleId.Reference
import ModuleCompiler.Proofs.ModuleId.Declared
import ModuleCompiler.Proofs.ModuleId.Query
import ModuleCompiler.Proofs.Script.CallLayout
import ModuleCompiler.Proofs.Script.LayoutScan
import ModuleCompiler.Proofs.Output.Headers
import ModuleCompiler.Proofs.Path.Congruence
import ModuleCompiler.Proofs.ModuleId.RangeMarks
import ModuleCompiler.Proofs.Script.Sight
import ModuleCompiler.Proofs.Script.Masking
import ModuleCompiler.Proofs.Script.Changes
import ModuleCompiler.Proofs.Script.Slicing
import ModuleCompiler.Proofs.Script.Spans
import ModuleCompiler.Proofs.Script.Reversal
