import ServerMarkup.Cursor
import ServerMarkup.Diagnostic
import ServerMarkup.Digest.Sha256
import ServerMarkup.Excerpt
import ServerMarkup.Files
import ServerMarkup.Html
import ServerMarkup.Json.Reader
import ServerMarkup.Lexer.Construct
import ServerMarkup.Lexer.Scanner
import ServerMarkup.Lexer.Searching
import ServerMarkup.Lexer.State
import ServerMarkup.Lexer.Tag
import ServerMarkup.Lexer.Tokens
import ServerMarkup.Options
import ServerMarkup.Options.Reader
import ServerMarkup.Parse.Binding
import ServerMarkup.Parse.Builder
import ServerMarkup.Parse.ControlType
import ServerMarkup.Parse.Directives
import ServerMarkup.Parse.File
import ServerMarkup.Parse.Item
import ServerMarkup.Parse.Output
import ServerMarkup.Parse.Session
import ServerMarkup.Path
import ServerMarkup.Position
import ServerMarkup.Proofs.Binding.Outcomes
import ServerMarkup.Proofs.Binding.Spots
import ServerMarkup.Proofs.Binding.Tries
import ServerMarkup.Proofs.Binding.Walks
import ServerMarkup.Proofs.Content.Conservation
import ServerMarkup.Proofs.Content.Counts
import ServerMarkup.Proofs.Content.Fed
import ServerMarkup.Proofs.Content.Held
import ServerMarkup.Proofs.Content.ItemTokens
import ServerMarkup.Proofs.Content.Leaves
import ServerMarkup.Proofs.Content.Outside
import ServerMarkup.Proofs.Content.ScriptBodies
import ServerMarkup.Proofs.Controls.ActedOn
import ServerMarkup.Proofs.Controls.Bases
import ServerMarkup.Proofs.Controls.Scan
import ServerMarkup.Proofs.Controls.Silent
import ServerMarkup.Proofs.Failure.Calls
import ServerMarkup.Proofs.Failure.Outcome
import ServerMarkup.Proofs.Fields.Declared
import ServerMarkup.Proofs.Fields.Owned
import ServerMarkup.Proofs.Fields.Places
import ServerMarkup.Proofs.Fields.Sound
import ServerMarkup.Proofs.History.Arrivals
import ServerMarkup.Proofs.History.Building
import ServerMarkup.Proofs.History.Deeds
import ServerMarkup.Proofs.History.Events
import ServerMarkup.Proofs.History.Growth
import ServerMarkup.Proofs.History.Included
import ServerMarkup.Proofs.History.Pieces
import ServerMarkup.Proofs.History.Runs
import ServerMarkup.Proofs.History.Templates
import ServerMarkup.Proofs.History.Traced
import ServerMarkup.Proofs.Include.Alike
import ServerMarkup.Proofs.Include.Calls
import ServerMarkup.Proofs.Include.Chains
import ServerMarkup.Proofs.Include.Confined
import ServerMarkup.Proofs.Include.Hosted
import ServerMarkup.Proofs.Include.Paths
import ServerMarkup.Proofs.Include.References
import ServerMarkup.Proofs.Include.Seams
import ServerMarkup.Proofs.Include.Splice
import ServerMarkup.Proofs.Include.Termination
import ServerMarkup.Proofs.Include.Unnamed
import ServerMarkup.Proofs.Lexer.Alike
import ServerMarkup.Proofs.Lexer.Coverage
import ServerMarkup.Proofs.Lexer.Determined
import ServerMarkup.Proofs.Lexer.Faithful
import ServerMarkup.Proofs.Lexer.Grammar
import ServerMarkup.Proofs.Lexer.Inspection
import ServerMarkup.Proofs.Lexer.Layout
import ServerMarkup.Proofs.Lexer.Lookahead
import ServerMarkup.Proofs.Lexer.Lossless
import ServerMarkup.Proofs.Lexer.Lowered
import ServerMarkup.Proofs.Lexer.LoweredStates
import ServerMarkup.Proofs.Lexer.Moves
import ServerMarkup.Proofs.Lexer.Openings
import ServerMarkup.Proofs.Lexer.Parted
import ServerMarkup.Proofs.Lexer.PassThrough
import ServerMarkup.Proofs.Lexer.Pieces
import ServerMarkup.Proofs.Lexer.Reads
import ServerMarkup.Proofs.Lexer.Recased
import ServerMarkup.Proofs.Lexer.Runat
import ServerMarkup.Proofs.Lexer.Scanned
import ServerMarkup.Proofs.Lexer.ScannedCalls
import ServerMarkup.Proofs.Lexer.ScannedStates
import ServerMarkup.Proofs.Lexer.Searches
import ServerMarkup.Proofs.Lexer.Shapes
import ServerMarkup.Proofs.Lexer.Slices
import ServerMarkup.Proofs.Lexer.Sound
import ServerMarkup.Proofs.Lexer.Spacing
import ServerMarkup.Proofs.Lexer.Steps
import ServerMarkup.Proofs.Lexer.Stretches
import ServerMarkup.Proofs.Lexer.Written
import ServerMarkup.Proofs.Lookup.Inherited
import ServerMarkup.Proofs.Lookup.NormalPaths
import ServerMarkup.Proofs.Lookup.Registrations
import ServerMarkup.Proofs.Lookup.RootMarks
import ServerMarkup.Proofs.Lookup.StoredFiles
import ServerMarkup.Proofs.Lookup.Views
import ServerMarkup.Proofs.Naming.Distinct
import ServerMarkup.Proofs.Naming.Parts
import ServerMarkup.Proofs.Nesting.Agreement
import ServerMarkup.Proofs.Nesting.Backed
import ServerMarkup.Proofs.Nesting.ClosingCase
import ServerMarkup.Proofs.Nesting.Entries
import ServerMarkup.Proofs.Nesting.Inert
import ServerMarkup.Proofs.Nesting.LiteralContent
import ServerMarkup.Proofs.Nesting.Mirrors
import ServerMarkup.Proofs.Nesting.QuotedValues
import ServerMarkup.Proofs.Nesting.RawBodies
import ServerMarkup.Proofs.Nesting.Runs
import ServerMarkup.Proofs.Nesting.Scripts
import ServerMarkup.Proofs.Nesting.SelfClosing
import ServerMarkup.Proofs.Nesting.Turns
import ServerMarkup.Proofs.Parse.Asking
import ServerMarkup.Proofs.Parse.CodeBetween
import ServerMarkup.Proofs.Parse.Frames
import ServerMarkup.Proofs.Parse.Gathering
import ServerMarkup.Proofs.Parse.Items
import ServerMarkup.Proofs.Parse.Ledger
import ServerMarkup.Proofs.Parse.Reading
import ServerMarkup.Proofs.Parse.Recorded
import ServerMarkup.Proofs.Parse.Reports
import ServerMarkup.Proofs.Parse.Steps
import ServerMarkup.Proofs.Parse.TagEndings
import ServerMarkup.Proofs.Parse.TagNames
import ServerMarkup.Proofs.Parse.Writing
import ServerMarkup.Proofs.Reports.Messages
import ServerMarkup.Proofs.Reports.Order
import ServerMarkup.Proofs.Reports.Places
import ServerMarkup.Proofs.Reports.Telling
import ServerMarkup.Proofs.Source.Cuts
import ServerMarkup.Proofs.Source.Excerpts
import ServerMarkup.Proofs.Source.LetterCase
import ServerMarkup.Proofs.Source.Lines
import ServerMarkup.Proofs.Source.Places
import ServerMarkup.Proofs.Spans.Bound
import ServerMarkup.Proofs.Spans.Built
import ServerMarkup.Proofs.Spans.Collections
import ServerMarkup.Proofs.Spans.Containers
import ServerMarkup.Proofs.Spans.InFiles
import ServerMarkup.Proofs.Spans.Items
import ServerMarkup.Proofs.Spans.Marks
import ServerMarkup.Proofs.Spans.Nested
import ServerMarkup.Proofs.Spans.Placed
import ServerMarkup.Proofs.Spans.Throughout
import ServerMarkup.Proofs.Spans.Upholds
import ServerMarkup.Proofs.Spans.Values
import ServerMarkup.Proofs.Spans.Walked
import ServerMarkup.Proofs.Tree.Frames
import ServerMarkup.Proofs.Tree.Growth
import ServerMarkup.Proofs.Tree.Labels
import ServerMarkup.Proofs.Tree.Stages
import ServerMarkup.Registry
import ServerMarkup.Source
import ServerMarkup.Span
import ServerMarkup.Text.Alphabetic
import ServerMarkup.Text.CharSet
import ServerMarkup.Text.Name
import ServerMarkup.Text.Numeric
import ServerMarkup.Text.Pieces
import ServerMarkup.Text.Reach
import ServerMarkup.Text.Replacement
import ServerMarkup.Text.Uppercase
import ServerMarkup.Token
import ServerMarkup.Tree.Attribute
import ServerMarkup.Tree.Directive
import ServerMarkup.Tree.Document
import ServerMarkup.Tree.Node
import ServerMarkup.Tree.Walk
import ServerMarkup.Types.Builtin
import ServerMarkup.Types.Catalog
import ServerMarkup.Types.Member
import ServerMarkup.Types.Resolver
import ServerMarkup.Types.TypeRef
