import SwiftTree.Kind
import SwiftTree.Kind.Spelling
import SwiftTree.Kind.Set
import SwiftTree.Text
import SwiftTree.Text.Blank
import SwiftTree.Trivia
import SwiftTree.Trivia.Scan
import SwiftTree.Token
import SwiftTree.Token.Plain
import SwiftTree.Token.Delimiter
import SwiftTree.Token.Tokenizer
import SwiftTree.Token.Intact
import SwiftTree.Token.Stream
import SwiftTree.Green
import SwiftTree.Green.Builder
import SwiftTree.Node
import SwiftTree.Node.Walk
import SwiftTree.Text.Alphanumeric
import SwiftTree.Text.Printable
import SwiftTree.Text.Quoted
import SwiftTree.Text.Lines
import SwiftTree.Node.Listing
import SwiftTree.Grammar.Ahead
import SwiftTree.Grammar.Parser
import SwiftTree.Grammar.Recovery
import SwiftTree.Grammar.Types
import SwiftTree.Grammar.Power
import SwiftTree.Grammar.Pattern
import SwiftTree.Grammar.Declaration
import SwiftTree.Grammar.Closure
import SwiftTree.Grammar.Operand
import SwiftTree.Grammar.Expression
import SwiftTree.Grammar.Statement
import SwiftTree.Grammar.Assembly
import SwiftTree.Grammar.Run
import SwiftTree.Grammar.Event
import SwiftTree.Diagnostic
import SwiftTree.Diagnostic.Construct
import SwiftTree.Diagnostic.Report
import SwiftTree.Parse
import SwiftTree.Marker
import SwiftTree.Kind.Category
import SwiftTree.View
import SwiftTree.View.Block
import SwiftTree.View.Declaration
import SwiftTree.View.Statement
import SwiftTree.View.Expression
import SwiftTree.CommandLine
import SwiftTree.Main
import SwiftTree.Proofs.Tiling
import SwiftTree.Proofs.Simulation
import SwiftTree.Proofs.Forest
import SwiftTree.Proofs.Events
import SwiftTree.Proofs.Writing
import SwiftTree.Proofs.Progress
import SwiftTree.Proofs.Progress.Moves
import SwiftTree.Proofs.Progress.Types
import SwiftTree.Proofs.Progress.Declarations
import SwiftTree.Proofs.Progress.Operands
import SwiftTree.Proofs.Progress.Statements
import SwiftTree.Proofs.Termination
import SwiftTree.Proofs.Construction
import SwiftTree.Proofs.Missing
import SwiftTree.Proofs.Findings
import SwiftTree.Proofs.Accounting
import SwiftTree.Proofs.Shape
import SwiftTree.Proofs.Grouping
import SwiftTree.Proofs.Pieces
import SwiftTree.Proofs.Conformance
import SwiftTree.Proofs.Conformance.Makes
import SwiftTree.Proofs.Conformance.Types
import SwiftTree.Proofs.Conformance.Declarations
import SwiftTree.Proofs.Conformance.Operands
import SwiftTree.Proofs.Conformance.Operators
import SwiftTree.Proofs.Conformance.Statements
import SwiftTree.Proofs.Conformance.Trees
import SwiftTree.Proofs.Literals
import SwiftTree.Proofs.Evaluation
import SwiftTree.Proofs.Precedence
import SwiftTree.Proofs.Carrying
import SwiftTree.Proofs.Nesting
import SwiftTree.Proofs.SourceOrder
import SwiftTree.Proofs.Unclosed
import SwiftTree.Proofs.Reading
import SwiftTree.Proofs.Signs
import SwiftTree.Proofs.Clean
import SwiftTree.Proofs.WrittenTypes
import SwiftTree.Proofs.Following
import SwiftTree.Proofs.TypeSyntax
import SwiftTree.Proofs.TypeAnnotation
import SwiftTree.Proofs.ConditionalCases
import SwiftTree.Proofs.Locations
import SwiftTree.Proofs.Entries
import SwiftTree.Proofs.TotalViews
import SwiftTree.Proofs.Bracing
import SwiftTree.Proofs.CaseStatements
import SwiftTree.Proofs.Appending
import SwiftTree.Proofs.Alongside
import SwiftTree.Proofs.CaseTexts
import SwiftTree.Proofs.Oblivious
import SwiftTree.Proofs.Oblivious.Rules
import SwiftTree.Proofs.Oblivious.Trees
import SwiftTree.Proofs.Oblivious.Reports
import SwiftTree.Proofs.Rebuilding
import SwiftTree.Proofs.Delimiters
import SwiftTree.Proofs.DirectiveLines
import SwiftTree.Proofs.TrailingClosures
import SwiftTree.Proofs.Enclosing
import SwiftTree.Proofs.AngleBrackets
import SwiftTree.Proofs.GenericArguments
import SwiftTree.Proofs.NameViews
import SwiftTree.Proofs.ListViews
import SwiftTree.Proofs.RawLiterals
import SwiftTree.Proofs.Prospect
import SwiftTree.Proofs.Without
import SwiftTree.Proofs.LoopFree
import SwiftTree.Proofs.LoopClauses
import SwiftTree.Proofs.TokenSites
import SwiftTree.Proofs.CStyleLoops
import SwiftTree.Proofs.Skipping
import SwiftTree.Proofs.Bodies
import SwiftTree.Proofs.Keywords
import SwiftTree.Proofs.Lookup
import SwiftTree.Proofs.Walking
import SwiftTree.Proofs.Marking
import SwiftTree.Proofs.Attachment
import SwiftTree.Proofs.TriviaPieces
import SwiftTree.Proofs.TokenEnds
import SwiftTree.Proofs.Conformance.Placeholders
import SwiftTree.Proofs.Placement.Lists
import SwiftTree.Proofs.CommaLists
import SwiftTree.Proofs.KindSets
import SwiftTree.Proofs.Siblings
import SwiftTree.Proofs.OperatorRows
