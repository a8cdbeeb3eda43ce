import Stencil.Ascii
import Stencil.Bytes
import Stencil.CommandLine.FileTree
import Stencil.CommandLine.Host
import Stencil.CommandLine.Options
import Stencil.CommandLine.Path
import Stencil.CommandLine.Run
import Stencil.Compile.Attributes
import Stencil.Compile.Contribution
import Stencil.Compile.Environment
import Stencil.Compile.Expansion
import Stencil.Compile.Failure
import Stencil.Compile.Ledger
import Stencil.Compile.Page
import Stencil.Compile.Preamble
import Stencil.Compile.Progress
import Stencil.Compile.Render
import Stencil.Compile.Session
import Stencil.Compile.Settings
import Stencil.Decimal.Binary
import Stencil.Decimal.Digits
import Stencil.Decimal.Layout
import Stencil.Decimal.Numeral
import Stencil.Dialect
import Stencil.Dictionary
import Stencil.Display
import Stencil.Element
import Stencil.Entity
import Stencil.Forest.Basic
import Stencil.Forest.Mutation
import Stencil.Forest.Snapshot
import Stencil.Helper
import Stencil.Json.Basic
import Stencil.Json.Printer
import Stencil.Json.Reader
import Stencil.Json.Record
import Stencil.Main
import Stencil.Merge
import Stencil.Mixin.Binding
import Stencil.Origin
import Stencil.Pattern
import Stencil.Quoted
import Stencil.Reference
import Stencil.SourceMap
import Stencil.Template
import Stencil.Token.Basic
import Stencil.Token.Group
import Stencil.Token.Lexer
import Stencil.Token.Scan
import Stencil.Unicode.Lower
import Stencil.Unicode.Printable
import Stencil.Unicode.Space
import Stencil.Unicode.Utf8
import Stencil.Value.Basic
import Stencil.Value.Literal
import Stencil.Value.Table
import Stencil.Wire.Basic
import Stencil.Wire.Build
import Stencil.Proofs.Token.Extent
import Stencil.Proofs.Token.Move
import Stencil.Proofs.Token.Partition
import Stencil.Proofs.Reference.Plan
import Stencil.Proofs.Token.Locality
import Stencil.Proofs.Token.Replay
import Stencil.Proofs.Token.Closing
import Stencil.Proofs.Token.Nesting
import Stencil.Proofs.Reference.Chain
import Stencil.Proofs.Reference.Guarded
import Stencil.Proofs.Compile.Following
import Stencil.Proofs.Compile.Rendering
import Stencil.Proofs.Compile.Preamble
import Stencil.Proofs.Compile.Rollback
import Stencil.Proofs.Compile.Calls
import Stencil.Proofs.Forest.Consistency
import Stencil.Proofs.Forest.Growth
import Stencil.Proofs.Forest.Steps
import Stencil.Proofs.Forest.Ownership
import Stencil.Proofs.Script.Merging
import Stencil.Proofs.Script.Results
import Stencil.Proofs.Distinct
import Stencil.Proofs.Merge.Agreement
import Stencil.Proofs.Helper.Closure
import Stencil.Proofs.Helper.Reachability
import Stencil.Proofs.Compile.Demand
import Stencil.Proofs.Compile.Marks
import Stencil.Proofs.Compile.Delivery
import Stencil.Proofs.Literal.Layout
import Stencil.Proofs.Compile.Declared
import Stencil.Proofs.Compile.History
import Stencil.Proofs.Compile.Roster
import Stencil.Proofs.Decimal
import Stencil.Proofs.Literal.Spelling
import Stencil.Proofs.Literal.Roundtrip
import Stencil.Proofs.Compile.Kinship
import Stencil.Proofs.Compile.Independence
import Stencil.Proofs.NullFree
import Stencil.Proofs.Compile.Texts
import Stencil.Proofs.Compile.Layout
import Stencil.Proofs.Compile.Drawing
import Stencil.Proofs.Compile.Positions
import Stencil.Proofs.Compile.Builtin
import Stencil.Proofs.Compile.SourceMaps
import Stencil.Proofs.Compile.Keeps
import Stencil.Proofs.Compile.Modes
import Stencil.Proofs.Compile.Weaving
import Stencil.Proofs.Compile.Alternation
import Stencil.Proofs.Compile.Seams
import Stencil.Proofs.Compile.Outline
import Stencil.Proofs.Success
import Stencil.Proofs.Compile.Relocation
import Stencil.Proofs.Compile.Templates
import Stencil.Proofs.Compile.Recast
import Stencil.Proofs.Compile.Origins
import Stencil.Proofs.Compile.Spacing
import Stencil.Proofs.Literal.Denotation
import Stencil.Proofs.Compile.Arguments
import Stencil.Proofs.Compile.Recursion
import Stencil.Proofs.Compile.Repetition
import Stencil.Proofs.CommandLine.Places
import Stencil.Proofs.CommandLine.Task
import Stencil.Proofs.CommandLine.Crew
import Stencil.Proofs.CommandLine.Schedules
import Stencil.Proofs.Token.LineComment
import Stencil.Proofs.Reference.Targets
import Stencil.Proofs.Merge.Grouping
import Stencil.Proofs.Literal.Scalars
import Stencil.Proofs.Compile.Attributes
import Stencil.Proofs.Compile.Escaping
import Stencil.Proofs.Mixin.Binding
import Stencil.Proofs.Unicode.Lower
import Stencil.Proofs.Token.Strings
import Stencil.Proofs.Literal.Grammar
import Stencil.Proofs.Literal.Escapes
import Stencil.Proofs.Reference.Access
import Stencil.Proofs.Reference.Places
import Stencil.Proofs.Reference.Placement
import Stencil.Proofs.Unicode.Characters
import Stencil.Proofs.Merge.Entries
import Stencil.Proofs.Merge.Classes
import Stencil.Proofs.Merge.Attributes
import Stencil.Proofs.Merge.Styles
import Stencil.Proofs.Walk
import Stencil.Proofs.Pattern.Resolution
import Stencil.Proofs.Compile.Spreading
import Stencil.Proofs.Template
import Stencil.Proofs.Value.Key
import Stencil.Proofs.Value.Table
import Stencil.Proofs.Value.Store
import Stencil.Proofs.Compile.Verbatim
import Stencil.Proofs.Forest.Positions
import Stencil.Proofs.Token.Derivation
import Stencil.Proofs.Compile.Failures
import Stencil.Proofs.Compile.Temporaries
import Stencil.Proofs.Token.Progress
import Stencil.Proofs.Token.Lookahead
import Stencil.Proofs.Token.Brackets
import Stencil.Proofs.Reference.Bounds
import Stencil.Proofs.Reference.Indices
