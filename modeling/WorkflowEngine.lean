import WorkflowEngine.Text.Pieces
import WorkflowEngine.Dictionary.Order
import WorkflowEngine.Dictionary
import WorkflowEngine.Number.Binary64
import WorkflowEngine.Number.Decimal
import WorkflowEngine.Number.Duration
import WorkflowEngine.Number.Reading
import WorkflowEngine.Value
import WorkflowEngine.Value.Json
import WorkflowEngine.Value.Json.Reading
import WorkflowEngine.Template
import WorkflowEngine.Params
import WorkflowEngine.Path
import WorkflowEngine.Location
import WorkflowEngine.Path.Lexical
import WorkflowEngine.Text.Bytes
import WorkflowEngine.Path.Raw
import WorkflowEngine.FileSystem
import WorkflowEngine.FileSystem.Edit
import WorkflowEngine.FileSystem.Normal
import WorkflowEngine.Text.Quoted
import WorkflowEngine.Reference
import WorkflowEngine.Yaml.Fault
import WorkflowEngine.Yaml.Glyph
import WorkflowEngine.Yaml.Token
import WorkflowEngine.Yaml.Folding
import WorkflowEngine.Yaml.Tag
import WorkflowEngine.Yaml.Tokens
import WorkflowEngine.Yaml.Node
import WorkflowEngine.Yaml.Scalar
import WorkflowEngine.Yaml.Tree
import WorkflowEngine.Yaml.Value
import WorkflowEngine.Document
import WorkflowEngine.Document.Fields
import WorkflowEngine.Document.Reading
import WorkflowEngine.LogFilter
import WorkflowEngine.Toml.Fault
import WorkflowEngine.Error
import WorkflowEngine.Resolver
import WorkflowEngine.Resolver.Raw
import WorkflowEngine.Cache
import WorkflowEngine.Graph
import WorkflowEngine.Discovery
import WorkflowEngine.Action
import WorkflowEngine.Run
import WorkflowEngine.Toml.Table
import WorkflowEngine.Toml.Text
import WorkflowEngine.Toml.Scalar
import WorkflowEngine.Toml.Reading
import WorkflowEngine.Config
import WorkflowEngine.Config.Reading
import WorkflowEngine.Engine
import WorkflowEngine.Graph.Tree
import WorkflowEngine.Report
import WorkflowEngine.Command
import WorkflowEngine.Command.Arguments
import WorkflowEngine.Command.Execution
import WorkflowEngine.Main
import WorkflowEngine.Proofs.ListsAndResults
import WorkflowEngine.Proofs.Graph.Sources
import WorkflowEngine.Proofs.Graph.Walk
import WorkflowEngine.Proofs.Graph.Findings
import WorkflowEngine.Proofs.Graph.Representation
import WorkflowEngine.Proofs.Location.Proper
import WorkflowEngine.Proofs.FileSystem.Readable
import WorkflowEngine.Proofs.Graph.Resolution
import WorkflowEngine.Proofs.Run.Execution
import WorkflowEngine.Proofs.Run.Accounting
import WorkflowEngine.Proofs.Run.Coverage
import WorkflowEngine.Proofs.Run.Determinacy
import WorkflowEngine.Proofs.Run.Expansion
import WorkflowEngine.Proofs.Graph.Rejection
import WorkflowEngine.Proofs.Graph.Unshared
import WorkflowEngine.Proofs.Params.Lookup
import WorkflowEngine.Proofs.Run.Moments
import WorkflowEngine.Proofs.Run.Scoping
import WorkflowEngine.Proofs.Run.Descent
import WorkflowEngine.Proofs.FileSystem.Lookup
import WorkflowEngine.Proofs.Location.Linkless
import WorkflowEngine.Proofs.Cache.History
import WorkflowEngine.Proofs.Cache.Accesses
import WorkflowEngine.Proofs.Cache.Operations
import WorkflowEngine.Proofs.Cache.Transparency
import WorkflowEngine.Proofs.Run.Transparency
import WorkflowEngine.Proofs.Engine.Calls
import WorkflowEngine.Proofs.Run.Success
import WorkflowEngine.Proofs.Command.DryRun
import WorkflowEngine.Proofs.Path.Components
import WorkflowEngine.Proofs.Path.Raw
import WorkflowEngine.Proofs.Reference.Meaning
import WorkflowEngine.Proofs.Command.RootVariable
import WorkflowEngine.Proofs.FileSystem.Unlinked
import WorkflowEngine.Proofs.Run.Agreement
import WorkflowEngine.Proofs.Engine.Modes
import WorkflowEngine.Proofs.Graph.Paths
import WorkflowEngine.Proofs.Graph.Printing
import WorkflowEngine.Proofs.Run.Paths
import WorkflowEngine.Proofs.Engine.Confinement
import WorkflowEngine.Proofs.Params.Interpolation
import WorkflowEngine.Proofs.Location.Spelling
import WorkflowEngine.Proofs.Text.Trimming
import WorkflowEngine.Proofs.FileSystem.Discovery
import WorkflowEngine.Proofs.Path.Climbing
import WorkflowEngine.Proofs.Path.Order
import WorkflowEngine.Proofs.FileSystem.Listing
import WorkflowEngine.Proofs.FileSystem.Sweep
import WorkflowEngine.Proofs.Reference.Entry
import WorkflowEngine.Proofs.Reference.Raw
import WorkflowEngine.Proofs.Reference.Separators
import WorkflowEngine.Proofs.Run.Invocations
import WorkflowEngine.Proofs.Run.Pauses
import WorkflowEngine.Proofs.Graph.Search
import WorkflowEngine.Proofs.Graph.Visits
import WorkflowEngine.Proofs.Template.Grammar
import WorkflowEngine.Proofs.Engine.Construction
import WorkflowEngine.Proofs.Engine.Discovery
import WorkflowEngine.Proofs.Text.Extent
import WorkflowEngine.Proofs.Engine.Listing
import WorkflowEngine.Proofs.Params.Locality
import WorkflowEngine.Proofs.Graph.Tree
import WorkflowEngine.Proofs.Config.Placement
import WorkflowEngine.Proofs.Document.Blank
import WorkflowEngine.Proofs.Document.Fields
import WorkflowEngine.Proofs.Document.Acceptance
