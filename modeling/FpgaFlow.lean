import FpgaFlow.Build.Options
import FpgaFlow.Build.Run
import FpgaFlow.Build.State
import FpgaFlow.Build.Synthesis
import FpgaFlow.Command.Arguments
import FpgaFlow.Command.Plan
import FpgaFlow.Command.Run
import FpgaFlow.Config
import FpgaFlow.Constraint
import FpgaFlow.ControlScript
import FpgaFlow.Datum
import FpgaFlow.Decimal.Binary64
import FpgaFlow.Decimal.Shortest
import FpgaFlow.Design
import FpgaFlow.Device
import FpgaFlow.Failure
import FpgaFlow.Fault
import FpgaFlow.FileTree
import FpgaFlow.Fragment
import FpgaFlow.Glob.Pattern
import FpgaFlow.Glob.Search
import FpgaFlow.Host
import FpgaFlow.Inspection
import FpgaFlow.Installation
import FpgaFlow.Json
import FpgaFlow.Lowering
import FpgaFlow.Manifest
import FpgaFlow.Mode
import FpgaFlow.Path
import FpgaFlow.Primitive
import FpgaFlow.Programs
import FpgaFlow.Schema
import FpgaFlow.Source
import FpgaFlow.Text
import FpgaFlow.Text.Hidden
import FpgaFlow.Toml.Document
import FpgaFlow.Toml.Moment
import FpgaFlow.Toml.Number
import FpgaFlow.Toml.Quoted
import FpgaFlow.Toml.Scan
import FpgaFlow.Toml.Table
import FpgaFlow.Toml.Value
import FpgaFlow.Toml.Written
import FpgaFlow.ToolOptions
import FpgaFlow.Ucf
import FpgaFlow.Verilog.Splice
import FpgaFlow.Version
import FpgaFlow.View
import FpgaFlow.XstProject
import FpgaFlow.YosysScript
import FpgaFlow.Main
import FpgaFlow.Proofs.Path.Steps
import FpgaFlow.Proofs.Path.Components
import FpgaFlow.Proofs.Path.Ancestors
import FpgaFlow.Proofs.Tree.Nearest
import FpgaFlow.Proofs.Tree.Growth
import FpgaFlow.Proofs.Host.Writing
import FpgaFlow.Proofs.Host.Standpoint
import FpgaFlow.Proofs.Build.Deeds
import FpgaFlow.Proofs.Build.Stages
import FpgaFlow.Proofs.Build.Ends
import FpgaFlow.Proofs.Build.Contents
import FpgaFlow.Proofs.Build.Trace
import FpgaFlow.Proofs.Build.Frame
import FpgaFlow.Proofs.Build.FailStop
import FpgaFlow.Proofs.Build.Written
import FpgaFlow.Proofs.Build.Extension
import FpgaFlow.Proofs.Glob.Steps
import FpgaFlow.Proofs.Glob.Growth
import FpgaFlow.Proofs.Build.Repeat
import FpgaFlow.Proofs.Command.Arguments
import FpgaFlow.Proofs.Command.Plan
import FpgaFlow.Proofs.Command.Precedence
import FpgaFlow.Proofs.Command.Rebuild
import FpgaFlow.Proofs.Glob.Sources
import FpgaFlow.Proofs.Glob.Standpoint
import FpgaFlow.Proofs.Build.Sheets
import FpgaFlow.Proofs.Build.Flow
import FpgaFlow.Proofs.Build.Pipeline
import FpgaFlow.Proofs.Build.Standpoint
import FpgaFlow.Proofs.Command.Standpoint
import FpgaFlow.Proofs.Command.Refusal
import FpgaFlow.Proofs.Build.WorkingDirectory
import FpgaFlow.Proofs.Tree.Detours
import FpgaFlow.Proofs.Build.Constraints
import FpgaFlow.Proofs.Host.Installation
import FpgaFlow.Proofs.Build.Toolchain
import FpgaFlow.Proofs.Command.Prediction
import FpgaFlow.Proofs.Build.Independence
import FpgaFlow.Proofs.Build.SourceLists
import FpgaFlow.Proofs.Host.Remaking
import FpgaFlow.Proofs.Build.Beside
import FpgaFlow.Proofs.Build.Neighbours
import FpgaFlow.Proofs.Toml.Moments
import FpgaFlow.Proofs.Schema.Shape
import FpgaFlow.Proofs.Manifest.Shape
import FpgaFlow.Proofs.Manifest.UnknownKeys
import FpgaFlow.Proofs.Build.Explanation
import FpgaFlow.Proofs.Text.Occurrence
import FpgaFlow.Proofs.Verilog.Splice
import FpgaFlow.Proofs.Verilog.Lexeme
import FpgaFlow.Proofs.Verilog.TopModule
import FpgaFlow.Proofs.Verilog.Composition
import FpgaFlow.Proofs.Schema.Form
import FpgaFlow.Proofs.Schema.Fields
import FpgaFlow.Proofs.Schema.Records
import FpgaFlow.Proofs.Version.Order
import FpgaFlow.Proofs.Host.NewestVersion
import FpgaFlow.Proofs.Text.Lines
import FpgaFlow.Proofs.Ucf.ReadBack
import FpgaFlow.Proofs.Manifest.PinTable
import FpgaFlow.Proofs.Fragment.DelayLine
import FpgaFlow.Proofs.Fragment.Directives
import FpgaFlow.Proofs.Fragment.Domains
import FpgaFlow.Proofs.Fragment.Names
import FpgaFlow.Proofs.Glob.Selection
import FpgaFlow.Proofs.Manifest.Sources
import FpgaFlow.Proofs.Glob.Matching
import FpgaFlow.Proofs.Glob.Literal
import FpgaFlow.Proofs.Glob.Origin
import FpgaFlow.Proofs.Glob.Relative
import FpgaFlow.Proofs.Glob.Relocation
import FpgaFlow.Proofs.Manifest.Relocation
import FpgaFlow.Proofs.Config.Layers
import FpgaFlow.Proofs.Inspection.Reports
import FpgaFlow.Proofs.Lowering.History
import FpgaFlow.Proofs.Words.Shell
import FpgaFlow.Proofs.Words.Yosys
import FpgaFlow.Proofs.Build.CommandLines
