import ActionScript.Command
import ActionScript.Diagnostic.Basic
import ActionScript.Diagnostic.Excerpt
import ActionScript.Diagnostic.Renderer
import ActionScript.Diagnostic.Row
import ActionScript.Diagnostic.Snippet
import ActionScript.Diagnostic.Window
import ActionScript.Field
import ActionScript.Grammar.Declarations
import ActionScript.Grammar.Elements
import ActionScript.Grammar.Exec
import ActionScript.Grammar.Expressions
import ActionScript.Grammar.Parser
import ActionScript.Grammar.Precedence
import ActionScript.Grammar.Recorder
import ActionScript.Grammar.Recovery
import ActionScript.Grammar.Signatures
import ActionScript.Grammar.Statements
import ActionScript.Grammar.Types
import ActionScript.Kind.Basic
import ActionScript.Kind.Set
import ActionScript.Kind.Spelling
import ActionScript.Main
import ActionScript.Parse
import ActionScript.Recording
import ActionScript.Text.Basic
import ActionScript.Text.Boundary
import ActionScript.Text.Class
import ActionScript.Text.Hidden
import ActionScript.Text.Letter
import ActionScript.Text.Position
import ActionScript.Text.Quoted
import ActionScript.Text.Width
import ActionScript.Token.Basic
import ActionScript.Token.Code
import ActionScript.Token.Lexer
import ActionScript.Token.Markup
import ActionScript.Token.Number
import ActionScript.Token.Pattern
import ActionScript.Token.Quotation
import ActionScript.Token.Trivia
import ActionScript.Tree.Basic
import ActionScript.Tree.Cursor
import ActionScript.Tree.Dump
import ActionScript.Tree.Entry
import ActionScript.Tree.Event
import ActionScript.Tree.Node
import ActionScript.Tree.Search
import ActionScript.Tree.Shape
import ActionScript.Tree.Walk
import ActionScript.View.Family
import ActionScript.View.Literal
import ActionScript.View.Schema
import ActionScript.Workspace
import ActionScript.Proofs.Reading
import ActionScript.Proofs.Run
import ActionScript.Proofs.Setting
import ActionScript.Proofs.Pieces
import ActionScript.Proofs.Safety.Recovery
import ActionScript.Proofs.Safety.Types
import ActionScript.Proofs.Safety.Expressions
import ActionScript.Proofs.Safety.Elements
import ActionScript.Proofs.Safety.Declarations
import ActionScript.Proofs.Safety.Statements
import ActionScript.Proofs.Consumption
import ActionScript.Proofs.Depth
import ActionScript.Proofs.Building
import ActionScript.Proofs.Layout
import ActionScript.Proofs.Outcome
import ActionScript.Proofs.Lossless
import ActionScript.Proofs.Termination
import ActionScript.Proofs.Refinement
import ActionScript.Proofs.Grouping
import ActionScript.Proofs.Plain
import ActionScript.Proofs.Precedence
import ActionScript.Proofs.Events
import ActionScript.Proofs.Replay
import ActionScript.Proofs.Tiling
import ActionScript.Proofs.Credit
import ActionScript.Proofs.Explained
import ActionScript.Proofs.NodeLimit
import ActionScript.Proofs.Sessions
import ActionScript.Proofs.Slots
import ActionScript.Proofs.Answering.Expressions
import ActionScript.Proofs.Answering.Statements
import ActionScript.Proofs.Answering.Trees
import ActionScript.Proofs.Printing.Syntax
import ActionScript.Proofs.Printing.Reading
import ActionScript.Proofs.Printing.Spot
import ActionScript.Proofs.Printing.Phrases
import ActionScript.Proofs.Printing.Operands
import ActionScript.Proofs.Printing.Operators
import ActionScript.Proofs.Printing.RoundTrip
import ActionScript.Proofs.Printing.Program
import ActionScript.Proofs.Printing.Lookahead
import ActionScript.Proofs.Printing.Assigned
import ActionScript.Proofs.Printing.Lines
import ActionScript.Proofs.Printing.Heads
import ActionScript.Proofs.Printing.Rows
import ActionScript.Proofs.Printing.Clauses
import ActionScript.Proofs.Printing.Variables
import ActionScript.Proofs.Printing.Statements
import ActionScript.Proofs.Printing.Branches
import ActionScript.Proofs.Printing.Programs
import ActionScript.Proofs.Nesting
import ActionScript.Proofs.Requirements
import ActionScript.Proofs.Recording.Entries
import ActionScript.Proofs.Recording.Runs
import ActionScript.Proofs.Recording.Parses
import ActionScript.Proofs.Markup.Syntax
import ActionScript.Proofs.Markup.Reading
import ActionScript.Proofs.Markup.Elements
import ActionScript.Proofs.Markup.Lookahead
import ActionScript.Proofs.Markup.RoundTrip
import ActionScript.Proofs.Markup.Views
import ActionScript.Proofs.Regular
import ActionScript.Proofs.Rendering
import ActionScript.Proofs.Markup.Crafted
import ActionScript.Proofs.Trimming
import ActionScript.Proofs.Avoiding
import ActionScript.Proofs.Branching
import ActionScript.Proofs.Semicolons.Restricted
import ActionScript.Proofs.Semicolons.Marks
import ActionScript.Proofs.Semicolons.Statements
import ActionScript.Proofs.Semicolons.Loops
import ActionScript.Proofs.Semicolons.Trees
import ActionScript.Proofs.Markup.Tags
import ActionScript.Proofs.Spacing.Squeeze
import ActionScript.Proofs.Spacing.Scanners
import ActionScript.Proofs.Spacing.Tokens
import ActionScript.Proofs.Spacing.Blind
import ActionScript.Proofs.Spacing.Runs
import ActionScript.Proofs.Spacing.Respacing
import ActionScript.Proofs.Order.Declarations
import ActionScript.Proofs.Order.Statements
import ActionScript.Proofs.Order.Files
import ActionScript.Proofs.Order.Braces
import ActionScript.Proofs.Order.Qualifiers
import ActionScript.Proofs.LineBreaks
import ActionScript.Proofs.Ranges
import ActionScript.Proofs.Comments
import ActionScript.Proofs.ForHeads.Operators
import ActionScript.Proofs.Following
import ActionScript.Proofs.ForHeads.Loops
import ActionScript.Proofs.ForHeads.Trees
import ActionScript.Proofs.Offsets
import ActionScript.Proofs.Markup.Interpolations
import ActionScript.Proofs.Markup.Interpolated
import ActionScript.Proofs.Literals.Escapes
import ActionScript.Proofs.Navigation.Descent
import ActionScript.Proofs.Navigation.Skipping
import ActionScript.Proofs.Navigation.Cursors
import ActionScript.Proofs.Navigation.Covering
import ActionScript.Proofs.Navigation.Links
import ActionScript.Proofs.Navigation.Arena
import ActionScript.Proofs.Navigation.Lookups
import ActionScript.Proofs.Lexing.Operators
import ActionScript.Proofs.Lexing.Numbers
import ActionScript.Proofs.Lexing.Modes
import ActionScript.Proofs.Lexing.Trivia
import ActionScript.Proofs.Dumps.Names
import ActionScript.Proofs.Dumps.Skeletons
import ActionScript.Proofs.Dumps.Lines
