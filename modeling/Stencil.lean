import Stencil.Ordered.Set
import Stencil.Ordered.Map
import Stencil.Span
import Stencil.Operator
import Stencil.Evaluation
import Stencil.Decimal.Binary64
import Stencil.Decimal.Shortest
import Stencil.Decimal.Layout
import Stencil.Decimal.Reading
import Stencil.Text.Printable
import Stencil.Text.Combining
import Stencil.Text.Quoted
import Stencil.Digest.Blake3
import Stencil.Literal
import Stencil.Computation
import Stencil.Computation.Text
import Stencil.Alias
import Stencil.Scope
import Stencil.Tree
import Stencil.Tree.Computation
import Stencil.Tree.Walk
import Stencil.NameTable
import Stencil.Assigned
import Stencil.FilterLedger
import Stencil.Options
import Stencil.Diagnostic
import Stencil.Analysis.State
import Stencil.Analysis
import Stencil.Hoisting
import Stencil.Optimize
import Stencil.Json
import Stencil.Json.Number
import Stencil.Json.Token
import Stencil.Json.Parser
import Stencil.Json.Printer
import Stencil.Json.Record
import Stencil.Codec.Values
import Stencil.Codec.Computation
import Stencil.Codec.Tree
import Stencil.Settings.Yaml.Cursor
import Stencil.Settings.Yaml.Document
import Stencil.Settings.Yaml.Layout
import Stencil.Settings.Yaml.Scalar
import Stencil.Settings.Yaml.Token
import Stencil.Settings.File
import Stencil.CommandLine.Arguments
import Stencil.CommandLine.Directory
import Stencil.CommandLine.Run
import Stencil.Main
import Stencil.Proofs.Source
import Stencil.Proofs.Walk
import Stencil.Proofs.AliasNames
import Stencil.Proofs.ControlPaths
import Stencil.Proofs.Execution
import Stencil.Proofs.Expansion
import Stencil.Proofs.Introduction
import Stencil.Proofs.Relocation
import Stencil.Proofs.Simulation
import Stencil.Proofs.Dominance
import Stencil.Proofs.Meaning
import Stencil.Proofs.Naming
import Stencil.Proofs.Blocks
import Stencil.Proofs.Registration
import Stencil.Proofs.Moves
import Stencil.Proofs.Coherence
import Stencil.Proofs.SingleDefinitions
import Stencil.Proofs.Restoration
import Stencil.Proofs.Novelty
import Stencil.Proofs.ScopeOrder
import Stencil.Proofs.FixedPoint
import Stencil.Proofs.StaleFilters
import Stencil.Proofs.Placeholders
import Stencil.Proofs.Reanalysis
import Stencil.Proofs.Rewalk
import Stencil.Proofs.Echo
import Stencil.Proofs.Idempotence
import Stencil.Proofs.RoundTrip
import Stencil.Proofs.Twins
import Stencil.Proofs.Replacement
import Stencil.Proofs.Isolation
import Stencil.Proofs.Capture
import Stencil.Proofs.Directories
import Stencil.Proofs.Workers
import Stencil.Proofs.Delivery
import Stencil.Proofs.Needs
import Stencil.Proofs.FirstNeed
import Stencil.Proofs.Sites
import Stencil.Proofs.Survey
import Stencil.Proofs.Access
import Stencil.Proofs.Report
import Stencil.Proofs.Classification
import Stencil.Proofs.Warnings
import Stencil.Proofs.Checks
import Stencil.Proofs.Conservation
import Stencil.Proofs.Joins
import Stencil.Proofs.Numbering
import Stencil.Proofs.Skeletons
import Stencil.Proofs.KnownNumbers
