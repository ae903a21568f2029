import ScssLint.Ascending
import ScssLint.CommandLine.Arguments
import ScssLint.CommandLine.Json
import ScssLint.CommandLine.Report
import ScssLint.CommandLine.Run
import ScssLint.Comment.Basic
import ScssLint.Comment.Blanking
import ScssLint.Comment.Scanner
import ScssLint.Config.Basic
import ScssLint.Config.Mismatch
import ScssLint.Config.Options
import ScssLint.Css.Forest
import ScssLint.Css.Lexer
import ScssLint.Css.Name
import ScssLint.Css.Token
import ScssLint.Decimal.Layout
import ScssLint.Decimal.Shortest
import ScssLint.Diagnostic
import ScssLint.Linter
import ScssLint.Main
import ScssLint.Project.Collection
import ScssLint.Project.FileTree
import ScssLint.Project.Lint
import ScssLint.Project.Path
import ScssLint.Proofs.CommandLine.Outcome
import ScssLint.Proofs.Comment.Ahead
import ScssLint.Proofs.Comment.Blanking
import ScssLint.Proofs.Comment.Context
import ScssLint.Proofs.Comment.Extent
import ScssLint.Proofs.Comment.Found
import ScssLint.Proofs.Comment.LineCode
import ScssLint.Proofs.Comment.Overwriting
import ScssLint.Proofs.Comment.Passes
import ScssLint.Proofs.Comment.Seen
import ScssLint.Proofs.Comment.Segment
import ScssLint.Proofs.Comment.Segmentation
import ScssLint.Proofs.Comment.Steps
import ScssLint.Proofs.Css.Balance
import ScssLint.Proofs.Css.Blocks
import ScssLint.Proofs.Css.Complete
import ScssLint.Proofs.Css.Cuts
import ScssLint.Proofs.Css.Endings
import ScssLint.Proofs.Css.Grouping
import ScssLint.Proofs.Css.Lexing
import ScssLint.Proofs.Css.Locality
import ScssLint.Proofs.Css.Mapping
import ScssLint.Proofs.Css.Meeting
import ScssLint.Proofs.Css.Opacity
import ScssLint.Proofs.Css.Outside
import ScssLint.Proofs.Css.Parts
import ScssLint.Proofs.Css.Passages
import ScssLint.Proofs.Css.Passes
import ScssLint.Proofs.Css.Pieces
import ScssLint.Proofs.Css.Reading
import ScssLint.Proofs.Css.Respelling
import ScssLint.Proofs.Css.Runs
import ScssLint.Proofs.Css.Spacing
import ScssLint.Proofs.Css.Tokens
import ScssLint.Proofs.Css.Url
import ScssLint.Proofs.Css.Words
import ScssLint.Proofs.Linter.Inertness
import ScssLint.Proofs.Linter.Markup
import ScssLint.Proofs.Linter.Order
import ScssLint.Proofs.Linter.Sorting
import ScssLint.Proofs.Linter.Transparency
import ScssLint.Proofs.Project.Joining
import ScssLint.Proofs.Project.LongPath
import ScssLint.Proofs.Project.Stages
import ScssLint.Proofs.Rule.Findings
import ScssLint.Proofs.Rule.Flags
import ScssLint.Proofs.Rule.Order
import ScssLint.Proofs.Rule.UnionClassName
import ScssLint.Proofs.Selector.Acceptance
import ScssLint.Proofs.Selector.Canonical
import ScssLint.Proofs.Selector.Comma
import ScssLint.Proofs.Selector.GluedName
import ScssLint.Proofs.Selector.Grammar
import ScssLint.Proofs.Selector.KeptComments
import ScssLint.Proofs.Selector.Order
import ScssLint.Proofs.Selector.Places
import ScssLint.Proofs.Selector.Shape
import ScssLint.Proofs.Selector.Tokens
import ScssLint.Proofs.Source.Roots
import ScssLint.Proofs.Stylesheet.Accounting
import ScssLint.Proofs.Stylesheet.Blanking
import ScssLint.Proofs.Stylesheet.Cutting
import ScssLint.Proofs.Stylesheet.Declarations
import ScssLint.Proofs.Stylesheet.Division
import ScssLint.Proofs.Stylesheet.Document
import ScssLint.Proofs.Stylesheet.Enclosing
import ScssLint.Proofs.Stylesheet.Layout
import ScssLint.Proofs.Stylesheet.Mapping
import ScssLint.Proofs.Stylesheet.Nesting
import ScssLint.Proofs.Stylesheet.Recovery
import ScssLint.Proofs.Stylesheet.Respelling
import ScssLint.Proofs.Stylesheet.Shape
import ScssLint.Proofs.Stylesheet.Spans
import ScssLint.Proofs.Stylesheet.Spelling
import ScssLint.Proofs.Stylesheet.Statements
import ScssLint.Proofs.Text.Infixes
import ScssLint.Proofs.Text.Utf8
import ScssLint.Rule.Basic
import ScssLint.Rule.DollarVariableDefault
import ScssLint.Rule.DoubleSlashCommentInline
import ScssLint.Rule.SelectorNoUnionClassName
import ScssLint.Selector.Basic
import ScssLint.Selector.Parser
import ScssLint.Selector.Union
import ScssLint.Selector.Walk
import ScssLint.Source.LineIndex
import ScssLint.Source.Root
import ScssLint.Source.Span
import ScssLint.Stylesheet.Basic
import ScssLint.Stylesheet.Outline
import ScssLint.Stylesheet.Store
import ScssLint.Text.Basic
import ScssLint.Text.ControlSequence
import ScssLint.Text.Quoted
import ScssLint.Text.Visible
import ScssLint.Toml.Definition
import ScssLint.Toml.Document
import ScssLint.Toml.Reader
import ScssLint.Toml.Value
import ScssLint.Proofs.Css.Fitting
import ScssLint.Proofs.Css.Seams
import ScssLint.Proofs.Css.Stretches
import ScssLint.Proofs.Selector.Preorder
import ScssLint.Proofs.Comment.Records
import ScssLint.Proofs.Comment.CodeBehind
import ScssLint.Proofs.Comment.Concatenation
import ScssLint.Proofs.Css.Sealing
import ScssLint.Proofs.Css.Verbatim
import ScssLint.Proofs.Selector.Rereading
import ScssLint.Proofs.Selector.Rewriting
import ScssLint.Proofs.Linter.LineComments
import ScssLint.Proofs.Source.Positions
import ScssLint.Proofs.Stylesheet.Colons
import ScssLint.Proofs.Stylesheet.Sections
import ScssLint.Proofs.Stylesheet.Strays
import ScssLint.Proofs.Text.Searching
import ScssLint.Proofs.Source.Markup
import ScssLint.Proofs.Source.TagEnds
import ScssLint.Proofs.Stylesheet.Building
import ScssLint.Proofs.Project.Merging
import ScssLint.Proofs.Project.Components
import ScssLint.Proofs.Project.Collecting
import ScssLint.Proofs.Project.Aliases
import ScssLint.Proofs.Rule.Configuring
import ScssLint.Proofs.Comment.Sessions
import ScssLint.Proofs.Stylesheet.Iterations
import ScssLint.Proofs.Stylesheet.Progress
