import ActionLog.Text.Byte
import ActionLog.Text.Basic
import ActionLog.Text.Utf8
import ActionLog.Text.Blank
import ActionLog.Text.Scan
import ActionLog.Text.Word
import ActionLog.Text.Literal
import ActionLog.Text.Decimal
import ActionLog.Text.Double
import ActionLog.Text.LowerCase
import ActionLog.Text.Printable
import ActionLog.Text.Quoted
import ActionLog.Name.Core
import ActionLog.Name.Registry
import ActionLog.Declaration
import ActionLog.Draft
import ActionLog.Log.Entry
import ActionLog.Log.Junk
import ActionLog.Code.Table
import ActionLog.Code.Resolver
import ActionLog.Tables.Basic
import ActionLog.Tables.Builtin
import ActionLog.Pass.Error
import ActionLog.Pass.Normalize
import ActionLog.Pass.Conflict
import ActionLog.Pass.Hoist
import ActionLog.Pass.Construction
import ActionLog.Pass.Inline
import ActionLog.Pass.Describe
import ActionLog.Pass.CodeCall
import ActionLog.Pass.Shorten
import ActionLog.Pass.Parameter
import ActionLog.Pass.Wrap
import ActionLog.Fault
import ActionLog.Options
import ActionLog.Stage
import ActionLog.Pipeline
import ActionLog.LineDiff.Script
import ActionLog.LineDiff.Halves
import ActionLog.LineDiff.Middle
import ActionLog.LineDiff.Merge
import ActionLog.Json
import ActionLog.LineDiff.Basic
import ActionLog.LineDiff.Render
import ActionLog.Toml
import ActionLog.Value
import ActionLog.Yaml.Cursor
import ActionLog.Yaml.Node
import ActionLog.Yaml.Scalar
import ActionLog.Yaml.Stream
import ActionLog.Yaml.Timestamp
import ActionLog.Yaml.Token
import ActionLog.Yaml.Reader
import ActionLog.Tables.Version
import ActionLog.Tables.Reader
import ActionLog.Text.Integer
import ActionLog.Command.Files
import ActionLog.Command.Flags
import ActionLog.Command.Environment
import ActionLog.Yaml.Value
import ActionLog.Command.Settings
import ActionLog.Command.Journal
import ActionLog.Command.Listing
import ActionLog.Command.Run
import ActionLog.Main
import ActionLog.Proofs.Resolver
import ActionLog.Proofs.Name
import ActionLog.Proofs.Registry
import ActionLog.Proofs.Stage
import ActionLog.Proofs.Isolation
import ActionLog.Proofs.Word
import ActionLog.Proofs.Trim
import ActionLog.Proofs.Declaration
import ActionLog.Proofs.Conflict
import ActionLog.Proofs.Reaching
import ActionLog.Proofs.Draft
import ActionLog.Proofs.Use
import ActionLog.Proofs.Inline
import ActionLog.Proofs.Dangling
import ActionLog.Proofs.Quote
import ActionLog.Proofs.History
import ActionLog.Proofs.Wrap
import ActionLog.Proofs.FunctionName
import ActionLog.Proofs.Shadowing
import ActionLog.Proofs.Literal
import ActionLog.Proofs.Describe
import ActionLog.Proofs.StringData
import ActionLog.Proofs.Allocation
import ActionLog.Proofs.Occurrence
import ActionLog.Proofs.RoundTrip
import ActionLog.Proofs.Statement
import ActionLog.Proofs.Accounting
import ActionLog.Proofs.Cache
import ActionLog.Proofs.Hoist
import ActionLog.Proofs.Arrangement
import ActionLog.Proofs.FaultLine
import ActionLog.Proofs.Encoding
import ActionLog.Proofs.Normalize
import ActionLog.Proofs.Substitution
import ActionLog.Proofs.Insertion
import ActionLog.Proofs.Dependency
import ActionLog.Proofs.Inlining
import ActionLog.Proofs.Expansion
import ActionLog.Proofs.Underway
import ActionLog.Proofs.Consolidation
import ActionLog.Proofs.Initialiser
import ActionLog.Proofs.Relabelling
import ActionLog.Proofs.LineChange
import ActionLog.Proofs.Setting
import ActionLog.Proofs.Lifting
import ActionLog.Proofs.CodeCall
import ActionLog.Proofs.Conversion
import ActionLog.Proofs.Method
import ActionLog.Proofs.Shortening
import ActionLog.Proofs.Queue
import ActionLog.Proofs.Validity
import ActionLog.Proofs.Safety
import ActionLog.Proofs.Rejection
import ActionLog.Proofs.Window
import ActionLog.Proofs.Spelling
import ActionLog.Proofs.Unwrap
import ActionLog.Proofs.Junk
import ActionLog.Proofs.Commutation
import ActionLog.Proofs.Sorting
import ActionLog.Proofs.FaultSet
import ActionLog.Proofs.Summary
import ActionLog.Proofs.EditScript
import ActionLog.Proofs.Difference
import ActionLog.Proofs.Segment
import ActionLog.Proofs.Outcome
