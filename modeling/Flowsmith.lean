import Flowsmith.Text.Bytes
import Flowsmith.Text.Power
import Flowsmith.Text.Utf8
import Flowsmith.Text.Category
import Flowsmith.Text.Blank
import Flowsmith.Text.Quoted
import Flowsmith.Text.Double
import Flowsmith.Text.Match
import Flowsmith.Text.Case
import Flowsmith.Text.Numeral
import Flowsmith.Text.Moment
import Flowsmith.Fault
import Flowsmith.Settings.Value
import Flowsmith.Settings.Model
import Flowsmith.Settings.Decode
import Flowsmith.Source.Token
import Flowsmith.Source.Group
import Flowsmith.Source.Outline
import Flowsmith.Source.Scan
import Flowsmith.Source.Heading
import Flowsmith.Activity.Pass
import Flowsmith.FlowClass.Member
import Flowsmith.FlowClass.Layout
import Flowsmith.FlowClass.Render
import Flowsmith.Xml.Name
import Flowsmith.Xml.Tree
import Flowsmith.Xml.Reader
import Flowsmith.Xml.Writer
import Flowsmith.Definition.Node
import Flowsmith.Definition.Read
import Flowsmith.Flow.Expression
import Flowsmith.Files.Path
import Flowsmith.Files.Glob
import Flowsmith.Files.Store
import Flowsmith.Files.Memory
import Flowsmith.Files.Overlay
import Flowsmith.Files.Refusing
import Flowsmith.Project.Items
import Flowsmith.Project.Registry
import Flowsmith.Report.Model
import Flowsmith.Migration.Workflow
import Flowsmith.Migration.Session
import Flowsmith.Migration.Run
import Flowsmith.Text.Columns
import Flowsmith.Document.Tree
import Flowsmith.Document.Json
import Flowsmith.Document.Toml
import Flowsmith.Yaml.Scalar
import Flowsmith.Document.Yaml
import Flowsmith.Text.Wrap
import Flowsmith.Report.Style
import Flowsmith.Report.Layout
import Flowsmith.Report.Format
import Flowsmith.Message
import Flowsmith.Toml.Number
import Flowsmith.Toml.Token
import Flowsmith.Toml.Tree
import Flowsmith.Toml.Read
import Flowsmith.Files.Disk
import Flowsmith.Settings.Load
import Flowsmith.Settings.Sample
import Flowsmith.Help.Topic
import Flowsmith.Help.Guides
import Flowsmith.CommandLine.Flag
import Flowsmith.CommandLine.Program
import Flowsmith.CommandLine.Catalog
import Flowsmith.CommandLine.Run
import Flowsmith.Yaml.Text
import Flowsmith.Yaml.Tree
import Flowsmith.Yaml.Read
import Flowsmith.Report.Stylesheet
import Flowsmith.Main
import Flowsmith.Proofs.Outcome
import Flowsmith.Proofs.Flow.Lowering
import Flowsmith.Proofs.Flow.Chain
import Flowsmith.Proofs.Flow.Grammar
import Flowsmith.Proofs.Flow.Strict
import Flowsmith.Proofs.Migration.Strict
import Flowsmith.Proofs.Flow.Brackets
import Flowsmith.Proofs.Source.Statements
import Flowsmith.Proofs.FlowClass.Emits
import Flowsmith.Proofs.FlowClass.Members
import Flowsmith.Proofs.FlowClass.Tracker
import Flowsmith.Proofs.FlowClass.Tracked
import Flowsmith.Proofs.FlowClass.Carried
import Flowsmith.Proofs.FlowClass.Kept
import Flowsmith.Proofs.FlowClass.Agreement
import Flowsmith.Proofs.FlowClass.Laid
import Flowsmith.Proofs.FlowClass.Reindent
import Flowsmith.Proofs.FlowClass.Block
import Flowsmith.Proofs.Source.Tiling
import Flowsmith.Proofs.Source.Safety
import Flowsmith.Proofs.Source.Place
import Flowsmith.Proofs.Source.Chunk
import Flowsmith.Proofs.Source.Types
import Flowsmith.Proofs.Source.Listing
import Flowsmith.Proofs.Source.ReadBack
import Flowsmith.Proofs.Source.RoundTrip
import Flowsmith.Proofs.Steps
import Flowsmith.Proofs.Files.Path
import Flowsmith.Proofs.Files.Below
import Flowsmith.Proofs.Files.Memory
import Flowsmith.Proofs.Files.Search
import Flowsmith.Proofs.Files.Walk
import Flowsmith.Proofs.Files.Table
import Flowsmith.Proofs.Files.Linked
import Flowsmith.Proofs.Files.Beside
import Flowsmith.Proofs.Files.Atomic
import Flowsmith.Proofs.Files.Lawful
import Flowsmith.Proofs.Files.Logged
import Flowsmith.Proofs.Text.Utf8
import Flowsmith.Proofs.Xml.Forest
import Flowsmith.Proofs.Xml.Escape
import Flowsmith.Proofs.Migration.Session
import Flowsmith.Proofs.Migration.Mirror
import Flowsmith.Proofs.Migration.Account
import Flowsmith.Proofs.Migration.Units
import Flowsmith.Proofs.Migration.Sibling
import Flowsmith.Proofs.Migration.Cleanup
import Flowsmith.Proofs.Migration.Success
import Flowsmith.Proofs.Migration.Definitions
import Flowsmith.Proofs.Migration.Written
import Flowsmith.Proofs.Migration.Listing
import Flowsmith.Proofs.Migration.Halted
import Flowsmith.Proofs.Files.Overlay
import Flowsmith.Proofs.Files.History
import Flowsmith.Proofs.Migration.DryRun
import Flowsmith.Proofs.Migration.DryRunBoth
import Flowsmith.Proofs.Migration.Again
import Flowsmith.Proofs.Migration.InStep
import Flowsmith.Proofs.Project.Modified
import Flowsmith.Proofs.Project.Lookup
import Flowsmith.Proofs.Project.Reloaded
import Flowsmith.Proofs.Flow.Depth
import Flowsmith.Proofs.Flow.Contained
import Flowsmith.Proofs.Flow.Shape
import Flowsmith.Proofs.Text.Lines
import Flowsmith.Proofs.Activity.Usings
import Flowsmith.Proofs.Source.Abutting
import Flowsmith.Proofs.Source.Moved
import Flowsmith.Proofs.Source.Collapse
import Flowsmith.Proofs.Source.Reheaded
import Flowsmith.Proofs.Source.Headings
import Flowsmith.Proofs.Activity.Again
import Flowsmith.Proofs.Activity.Added
import Flowsmith.Proofs.Source.LineStart
import Flowsmith.Proofs.Activity.Dropped
import Flowsmith.Proofs.Source.Header
import Flowsmith.Proofs.Activity.Settled
import Flowsmith.Proofs.Migration.InView
import Flowsmith.Proofs.Migration.Resumed
import Flowsmith.Proofs.Definition.Scope
import Flowsmith.Proofs.Flow.Closing
import Flowsmith.Proofs.Flow.Balance
import Flowsmith.Proofs.Flow.Spliced
import Flowsmith.Proofs.Flow.Skeleton
import Flowsmith.Proofs.Source.Inset
import Flowsmith.Proofs.FlowClass.Outlined
import Flowsmith.Proofs.FlowClass.Reread
import Flowsmith.Proofs.Xml.Entries
import Flowsmith.Proofs.Project.Exact
import Flowsmith.Proofs.Files.Found
import Flowsmith.Proofs.Source.Mapped
import Flowsmith.Proofs.Source.Sketch
import Flowsmith.Proofs.Source.Covered
import Flowsmith.Proofs.Flow.Naming
