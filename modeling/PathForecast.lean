import PathForecast.Binary64
import PathForecast.Bytes
import PathForecast.Catalog
import PathForecast.Catalog.Json
import PathForecast.Codec
import PathForecast.CommandLine
import PathForecast.CommandLine.Options
import PathForecast.CommandLine.Run
import PathForecast.Decimal.Shortest
import PathForecast.Decimal.Text
import PathForecast.Edge
import PathForecast.Estimator
import PathForecast.Fault
import PathForecast.Fault.Data
import PathForecast.Fault.File
import PathForecast.FileTree
import PathForecast.FileTree.Session
import PathForecast.Forecast
import PathForecast.Graph
import PathForecast.Graph.Audit
import PathForecast.Graph.Forecasting
import PathForecast.Graph.History
import PathForecast.Graph.Learning
import PathForecast.Graph.Prediction
import PathForecast.Graph.Recompute
import PathForecast.HitCount
import PathForecast.Host
import PathForecast.Host.Inputs
import PathForecast.Ids
import PathForecast.Json.Fields
import PathForecast.Json.Numeral
import PathForecast.Json.Quoted
import PathForecast.Json.Reader
import PathForecast.Json.Token
import PathForecast.Json.Value
import PathForecast.Json.Writer
import PathForecast.Main
import PathForecast.Proofs.Layout
import PathForecast.Order
import PathForecast.PartitionSet
import PathForecast.Report.Audit
import PathForecast.Report.Build
import PathForecast.Report.Columns
import PathForecast.Report.Inspection
import PathForecast.RunSettings
import PathForecast.Saturation
import PathForecast.Settings
import PathForecast.Snapshot
import PathForecast.Snapshot.Binary
import PathForecast.Snapshot.File
import PathForecast.Snapshot.Json
import PathForecast.Table
import PathForecast.Timing
import PathForecast.Toml.Document
import PathForecast.Toml.Reader
import PathForecast.Toml.Scalar
import PathForecast.Toml.Value
import PathForecast.Trace
import PathForecast.Trace.Json
import PathForecast.Traversal
import PathForecast.Vertex
import PathForecast.Violation
import PathForecast.Weight
import PathForecast.Workload
import PathForecast.Proofs.Growth
import PathForecast.Proofs.Arrangement
import PathForecast.Proofs.Audit.Structure
import PathForecast.Proofs.Audit.Recomputed
import PathForecast.Proofs.Audit.Lineage
import PathForecast.Proofs.Audit.Resets
import PathForecast.Proofs.Audit.Rules
import PathForecast.Proofs.HitMaps
import PathForecast.Proofs.Accounting
import PathForecast.Proofs.Conservation
import PathForecast.Proofs.Forecasts
import PathForecast.Proofs.ForecastSums
import PathForecast.Proofs.Shares
import PathForecast.Proofs.Lockstep
import PathForecast.Proofs.Windows
import PathForecast.Proofs.Batches
import PathForecast.Proofs.Identity
import PathForecast.Proofs.SinglePartition
import PathForecast.Proofs.NoAbort
import PathForecast.Proofs.Interleaving
import PathForecast.Proofs.Coherence
import PathForecast.Proofs.Passages
import PathForecast.Proofs.Schedules
import PathForecast.Proofs.Content
import PathForecast.Proofs.ArrivalOrder
import PathForecast.Proofs.Idempotence
import PathForecast.Proofs.Confidence
import PathForecast.Proofs.Bookkeeping
import PathForecast.Proofs.Recovery
import PathForecast.Proofs.RoundTrip
import PathForecast.Proofs.Rewriting
import PathForecast.Proofs.StatementIndex
import PathForecast.Proofs.Samples
import PathForecast.Proofs.Statistics
import PathForecast.Proofs.SharedKeys
import PathForecast.Proofs.Evidence
import PathForecast.Proofs.Drift
import PathForecast.Proofs.Estimates
import PathForecast.Proofs.Retracing
import PathForecast.Proofs.Effects
import PathForecast.Proofs.Workloads
import PathForecast.Proofs.Json.Quotation
import PathForecast.Proofs.Json.Lexing
import PathForecast.Proofs.Json.Parsing
import PathForecast.Proofs.Json.Records
import PathForecast.Proofs.Refusals
import PathForecast.Proofs.Traversal.Loop
import PathForecast.Proofs.Traversal.Postorder
import PathForecast.Proofs.Successors
import PathForecast.Proofs.Listing
import PathForecast.Proofs.Audit.Offenders
import PathForecast.Proofs.Cycles
import PathForecast.Proofs.Lookup
import PathForecast.Proofs.Averages
import PathForecast.Proofs.FileNames
import PathForecast.Proofs.OutputFiles
