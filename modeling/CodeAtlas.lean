import CodeAtlas.Analysis.Calls
import CodeAtlas.Analysis.Declarations
import CodeAtlas.Analysis.Description
import CodeAtlas.Analysis.Exports
import CodeAtlas.Analysis.Imports
import CodeAtlas.Analysis.Naming
import CodeAtlas.Analysis.Outline
import CodeAtlas.Analysis.Parameters
import CodeAtlas.Analysis.TypesOnly
import CodeAtlas.Banner
import CodeAtlas.Command.Clear
import CodeAtlas.Command.Index
import CodeAtlas.Command.Init
import CodeAtlas.Command.Options
import CodeAtlas.Command.Run
import CodeAtlas.Diagram
import CodeAtlas.Disk.Basic
import CodeAtlas.Disk.Change
import CodeAtlas.Disk.Resolve
import CodeAtlas.Imports
import CodeAtlas.Index.Read
import CodeAtlas.Index.Write
import CodeAtlas.Intake
import CodeAtlas.Language
import CodeAtlas.Main
import CodeAtlas.Message
import CodeAtlas.Outline
import CodeAtlas.Path
import CodeAtlas.Proofs.Analysis.CallGraph
import CodeAtlas.Proofs.Analysis.Complete
import CodeAtlas.Proofs.Analysis.Fits
import CodeAtlas.Proofs.Analysis.Passes
import CodeAtlas.Proofs.Analysis.Places
import CodeAtlas.Proofs.Analysis.Readable
import CodeAtlas.Proofs.Analysis.Recorded
import CodeAtlas.Proofs.Analysis.Reorder
import CodeAtlas.Proofs.Analysis.Scopes
import CodeAtlas.Proofs.Analysis.Texts
import CodeAtlas.Proofs.Analysis.Under
import CodeAtlas.Proofs.Analysis.Whole
import CodeAtlas.Proofs.Command.Clear
import CodeAtlas.Proofs.Command.Index
import CodeAtlas.Proofs.Command.Outputs
import CodeAtlas.Proofs.Command.Sweep
import CodeAtlas.Proofs.Command.Targets
import CodeAtlas.Proofs.Command.Undo
import CodeAtlas.Proofs.Diagram.File
import CodeAtlas.Proofs.Diagram.Identifiers
import CodeAtlas.Proofs.Diagram.Lines
import CodeAtlas.Proofs.Diagram.Project
import CodeAtlas.Proofs.Diagram.Recursion
import CodeAtlas.Proofs.Disk.Entries
import CodeAtlas.Proofs.Disk.Plain
import CodeAtlas.Proofs.Disk.Tree
import CodeAtlas.Proofs.Disk.Ways
import CodeAtlas.Proofs.Fallible
import CodeAtlas.Proofs.Imports
import CodeAtlas.Proofs.Index.Lines
import CodeAtlas.Proofs.Index.RoundTrip
import CodeAtlas.Proofs.Index.Survival
import CodeAtlas.Proofs.Path
import CodeAtlas.Proofs.Report
import CodeAtlas.Proofs.Scan
import CodeAtlas.Proofs.Settings.Load
import CodeAtlas.Proofs.Syntax.Cursor
import CodeAtlas.Proofs.Syntax.Source
import CodeAtlas.Proofs.Table
import CodeAtlas.Proofs.Text
import CodeAtlas.Report
import CodeAtlas.Scan
import CodeAtlas.Settings.Basic
import CodeAtlas.Settings.Globs
import CodeAtlas.Settings.Json
import CodeAtlas.Settings.Format
import CodeAtlas.Settings.Load
import CodeAtlas.Settings.Toml.Document
import CodeAtlas.Settings.Toml.Entry
import CodeAtlas.Settings.Toml.Layout
import CodeAtlas.Settings.Toml.Number
import CodeAtlas.Settings.Toml.Quoted
import CodeAtlas.Settings.Value
import CodeAtlas.Syntax.Cursor
import CodeAtlas.Syntax.Defect
import CodeAtlas.Syntax.Kind
import CodeAtlas.Syntax.Source
import CodeAtlas.Syntax.Tree
import CodeAtlas.Table
import CodeAtlas.Text.Alphanumeric
import CodeAtlas.Text.Bands
import CodeAtlas.Text.Blank
import CodeAtlas.Text.Digit
import CodeAtlas.Text.Find
import CodeAtlas.Text.Fixed
import CodeAtlas.Text.Line
import CodeAtlas.Text.Points
import CodeAtlas.Text.Printable
import CodeAtlas.Text.Quoted
import CodeAtlas.Text.Utf8
import CodeAtlas.TreeFile
import CodeAtlas.Proofs.Banner.Blocks
import CodeAtlas.Proofs.Banner.Comments
import CodeAtlas.Proofs.Analysis.Uses
import CodeAtlas.Proofs.Disk.Opens
import CodeAtlas.Proofs.Scan.Exact
import CodeAtlas.Proofs.Analysis.Down
import CodeAtlas.Proofs.Analysis.Lines
import CodeAtlas.Proofs.Analysis.Redeclared
import CodeAtlas.Proofs.Disk.Reads
import CodeAtlas.Proofs.Scan.Once
import CodeAtlas.Proofs.Syntax.Defect
import CodeAtlas.Proofs.Analysis.Kept
import CodeAtlas.Proofs.Analysis.Exported
import CodeAtlas.Proofs.Command.TypesOnly
import CodeAtlas.Proofs.Index.Reader
import CodeAtlas.Proofs.Index.Names
import CodeAtlas.Proofs.Settings.Globs
import CodeAtlas.Proofs.Settings.Sources
import CodeAtlas.Proofs.Syntax.Walk
import CodeAtlas.Proofs.Analysis.DocComment
import CodeAtlas.Proofs.Analysis.Parameters
import CodeAtlas.Proofs.Banner.Agreement
