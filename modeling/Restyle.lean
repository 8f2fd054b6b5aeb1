import Restyle.CommandLine.Arguments
import Restyle.Decimal.Binary64
import Restyle.Decimal.Shortest
import Restyle.Dom.StyleProps
import Restyle.Expansion.Convention
import Restyle.Expansion.Expanded
import Restyle.Expansion.Generated
import Restyle.Expansion.Journal
import Restyle.Expansion.Options
import Restyle.Expansion.Outcome
import Restyle.Expansion.Plan
import Restyle.Expansion.Session
import Restyle.Glob.Match
import Restyle.Glob.Pattern
import Restyle.Json.Comments
import Restyle.Json.Reader
import Restyle.Json.Value
import Restyle.Json.Writer
import Restyle.Main
import Restyle.Markup.Attributes
import Restyle.Markup.Closing
import Restyle.Markup.Cursor
import Restyle.Markup.Elements
import Restyle.Markup.Embedded
import Restyle.Markup.Fault
import Restyle.Markup.Frame
import Restyle.Markup.Names
import Restyle.Markup.Nodes
import Restyle.Markup.Reader
import Restyle.Markup.Scripts
import Restyle.Markup.Tree
import Restyle.Proofs.Expansion.Advice
import Restyle.Proofs.Expansion.Amending
import Restyle.Proofs.Expansion.Arguments
import Restyle.Proofs.Expansion.Changes
import Restyle.Proofs.Expansion.Code
import Restyle.Proofs.Expansion.Declarations
import Restyle.Proofs.Expansion.Edits
import Restyle.Proofs.Expansion.Hoists
import Restyle.Proofs.Expansion.Journaling
import Restyle.Proofs.Expansion.Leftovers
import Restyle.Proofs.Expansion.Mentions
import Restyle.Proofs.Expansion.Occasions
import Restyle.Proofs.Expansion.Pieces
import Restyle.Proofs.Expansion.Plan
import Restyle.Proofs.Expansion.Reread
import Restyle.Proofs.Expansion.Statements
import Restyle.Proofs.Glob.Matching
import Restyle.Proofs.Json.Comments
import Restyle.Proofs.Json.Documents
import Restyle.Proofs.Markup.Alike
import Restyle.Proofs.Markup.Amended
import Restyle.Proofs.Markup.Below
import Restyle.Proofs.Markup.Bracketing
import Restyle.Proofs.Markup.Branches
import Restyle.Proofs.Markup.Clean
import Restyle.Proofs.Markup.Components
import Restyle.Proofs.Markup.Contents
import Restyle.Proofs.Markup.Departures
import Restyle.Proofs.Markup.Descent
import Restyle.Proofs.Markup.Document
import Restyle.Proofs.Markup.Elsewhere
import Restyle.Proofs.Markup.Faults
import Restyle.Proofs.Markup.Following
import Restyle.Proofs.Markup.Leaving
import Restyle.Proofs.Markup.Nodes
import Restyle.Proofs.Markup.Placement
import Restyle.Proofs.Markup.Preorder
import Restyle.Proofs.Markup.PrintedBlocks
import Restyle.Proofs.Markup.PrintedDocuments
import Restyle.Proofs.Markup.PrintedNodes
import Restyle.Proofs.Markup.PrintedTags
import Restyle.Proofs.Markup.Printing
import Restyle.Proofs.Markup.Promises
import Restyle.Proofs.Markup.Rereading
import Restyle.Proofs.Markup.Simulation
import Restyle.Proofs.Markup.Slices
import Restyle.Proofs.Markup.Tags
import Restyle.Proofs.Markup.Walk
import Restyle.Proofs.Markup.Woven
import Restyle.Proofs.Markup.Zones
import Restyle.Proofs.Offsets.Attributes
import Restyle.Proofs.Offsets.Bodies
import Restyle.Proofs.Offsets.Descent
import Restyle.Proofs.Offsets.Documents
import Restyle.Proofs.Offsets.Nodes
import Restyle.Proofs.Offsets.Scanning
import Restyle.Proofs.Offsets.Slashes
import Restyle.Proofs.Offsets.Spots
import Restyle.Proofs.Script.Arrays
import Restyle.Proofs.Script.Places
import Restyle.Proofs.Script.Postconditions
import Restyle.Proofs.Script.Progress
import Restyle.Proofs.Script.Trailing
import Restyle.Proofs.Source.Locations
import Restyle.Proofs.Source.Lookups
import Restyle.Proofs.Source.MachineWords
import Restyle.Proofs.Source.MapReading
import Restyle.Proofs.Source.Origins
import Restyle.Proofs.Source.Places
import Restyle.Proofs.Source.Readings
import Restyle.Proofs.Source.Rows
import Restyle.Proofs.Source.Slices
import Restyle.Proofs.Splice.Acceptance
import Restyle.Proofs.Splice.Commuting
import Restyle.Proofs.Splice.InPlace
import Restyle.Proofs.Splice.Meaning
import Restyle.Proofs.Splice.Rendering
import Restyle.Proofs.Splice.Runs
import Restyle.Proofs.Splice.Segments
import Restyle.Proofs.Splice.Sound
import Restyle.Proofs.Splice.Tracing
import Restyle.Proofs.Splice.Verbatim
import Restyle.Proofs.Text.Weave
import Restyle.Proofs.Workspace.Confinement
import Restyle.Proofs.Workspace.Discovery
import Restyle.Proofs.Workspace.Edits
import Restyle.Proofs.Workspace.Filing
import Restyle.Proofs.Workspace.Order
import Restyle.Proofs.Workspace.Outputs
import Restyle.Proofs.Workspace.PathOrder
import Restyle.Proofs.Workspace.Repetition
import Restyle.Proofs.Workspace.Rewriting
import Restyle.Proofs.Workspace.Routes
import Restyle.Proofs.Workspace.Spelling
import Restyle.Script.Bindings
import Restyle.Script.Brackets
import Restyle.Script.Classes
import Restyle.Script.Declarations
import Restyle.Script.Fault
import Restyle.Script.Functions
import Restyle.Script.Grammar
import Restyle.Script.Items
import Restyle.Script.Module
import Restyle.Script.Operands
import Restyle.Script.Operators
import Restyle.Script.Parse
import Restyle.Script.Shape
import Restyle.Script.Statements
import Restyle.Script.Term
import Restyle.Script.Token
import Restyle.Script.Token.Gap
import Restyle.Script.Token.Numeral
import Restyle.Script.Token.Quoted
import Restyle.Script.Token.Reader
import Restyle.Script.Types
import Restyle.Source.File
import Restyle.Source.InPlace
import Restyle.Source.Lines
import Restyle.Source.MapFile
import Restyle.Source.Mapping
import Restyle.Source.OffsetTable
import Restyle.Source.Row
import Restyle.Source.Span
import Restyle.Source.Splice
import Restyle.Text.Blank
import Restyle.Text.Identifier
import Restyle.Text.Search
import Restyle.Text.Units
import Restyle.Text.Visible
import Restyle.Text.Width
import Restyle.Workspace.FileTree
import Restyle.Workspace.Path
import Restyle.Workspace.Report
import Restyle.Workspace.Run
import Restyle.Workspace.Selection
import Restyle.Workspace.Settings
