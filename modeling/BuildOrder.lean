import BuildOrder.Application
import BuildOrder.Assemble
import BuildOrder.Build
import BuildOrder.BuildError
import BuildOrder.Bytes
import BuildOrder.CommandLine
import BuildOrder.Config
import BuildOrder.Config.Parse
import BuildOrder.Constraint
import BuildOrder.Context
import BuildOrder.Dependency
import BuildOrder.Exclusion
import BuildOrder.Extract
import BuildOrder.FileTree
import BuildOrder.FileTree.Listing
import BuildOrder.ImportPath
import BuildOrder.LiteralTags
import BuildOrder.Log.Filter
import BuildOrder.Log.Logger
import BuildOrder.Log.Options
import BuildOrder.Log.Record
import BuildOrder.Log.Sink
import BuildOrder.Main
import BuildOrder.Order
import BuildOrder.Path
import BuildOrder.Pattern
import BuildOrder.Pattern.Class
import BuildOrder.Pattern.Match
import BuildOrder.Pattern.Parse
import BuildOrder.Pattern.Token
import BuildOrder.Program
import BuildOrder.Proofs.Cycle
import BuildOrder.Proofs.Graph
import BuildOrder.Proofs.Sort
import BuildOrder.Proofs.Sweep
import BuildOrder.Resolve
import BuildOrder.Scan
import BuildOrder.Source
import BuildOrder.SourceFile
import BuildOrder.SourceFile.Group
import BuildOrder.SourceFile.Literals
import BuildOrder.SourceFile.Load
import BuildOrder.SourceFile.Parse
import BuildOrder.SourceFile.SyntaxError
import BuildOrder.Stdlib
import BuildOrder.Token
import BuildOrder.Token.Literal
import BuildOrder.Token.Scan
import BuildOrder.Trace
import BuildOrder.Workspace
import BuildOrder.Proofs.Relabel
import BuildOrder.Proofs.Search
import BuildOrder.Proofs.WellFormed
import BuildOrder.Proofs.Resolve
import BuildOrder.Proofs.Lookups
import BuildOrder.Proofs.Gather
import BuildOrder.Proofs.Sound
import BuildOrder.Proofs.Assemble
import BuildOrder.Proofs.Build
import BuildOrder.Proofs.Origin
import BuildOrder.Proofs.Closure
import BuildOrder.Proofs.Spelling
import BuildOrder.Proofs.Alike
import BuildOrder.Proofs.Shuffle
import BuildOrder.Proofs.Declarations
import BuildOrder.Proofs.Groups
import BuildOrder.Proofs.Untagged
import BuildOrder.Proofs.Failures
import BuildOrder.Proofs.Check
import BuildOrder.Proofs.TopLevel
import BuildOrder.Proofs.Headers
import BuildOrder.Proofs.LiteralScan
import BuildOrder.Proofs.Qualified
import BuildOrder.Proofs.Tiling
import BuildOrder.Proofs.Sites
import BuildOrder.Proofs.Written
import BuildOrder.Proofs.Prefixed
import BuildOrder.Proofs.Blocks
import BuildOrder.Proofs.Dependencies
import BuildOrder.Proofs.Arguments
import BuildOrder.Proofs.Document
import BuildOrder.Proofs.ReadBack
import BuildOrder.Proofs.Calls
import BuildOrder.Proofs.Visits
import BuildOrder.Proofs.Containment
import BuildOrder.Proofs.InPlace
import BuildOrder.Proofs.Indexed
import BuildOrder.Proofs.Join
import BuildOrder.Proofs.Standard
import BuildOrder.Proofs.Nesting
import BuildOrder.Proofs.SourceOrder
import BuildOrder.Proofs.StringLiteral
import BuildOrder.Proofs.Offsets
import BuildOrder.Proofs.LineCount
import BuildOrder.Proofs.Locations
import BuildOrder.Proofs.Memory
import BuildOrder.Proofs.Constraints
import BuildOrder.Proofs.Spacing
import BuildOrder.Proofs.Overrides
import BuildOrder.Proofs.Levels
import BuildOrder.Proofs.Matching
import BuildOrder.Proofs.Json
import BuildOrder.Proofs.RecordLine
import BuildOrder.Proofs.Tape
import BuildOrder.Proofs.CallStack
import BuildOrder.Proofs.Answers
