import TaskFlow.CommandLine.Invocation
import TaskFlow.CommandLine.Options
import TaskFlow.CommandLine.Session
import TaskFlow.Decimal.Nearest
import TaskFlow.Decimal.Shortest
import TaskFlow.Definition
import TaskFlow.Definition.Document
import TaskFlow.Definition.Fault
import TaskFlow.Definition.Layout
import TaskFlow.Definition.Reader
import TaskFlow.Definition.Text
import TaskFlow.Diagnostic
import TaskFlow.Diagnostic.Document
import TaskFlow.Document.Checked
import TaskFlow.Document.Integer
import TaskFlow.Exchange
import TaskFlow.Graph
import TaskFlow.Graph.Document
import TaskFlow.Graph.Equivalence
import TaskFlow.Graph.Fault
import TaskFlow.Graph.IdPool
import TaskFlow.Graph.PostDominator
import TaskFlow.Graph.Projection
import TaskFlow.Graph.Reach
import TaskFlow.Graph.Render
import TaskFlow.Graph.Walk
import TaskFlow.Graph.WellFormed
import TaskFlow.Json
import TaskFlow.Json.Display
import TaskFlow.Json.Lexer
import TaskFlow.Json.Printer
import TaskFlow.Json.Reader
import TaskFlow.Log
import TaskFlow.Main
import TaskFlow.Proofs.CommandLine.Pipe
import TaskFlow.Proofs.Definition.Canonical
import TaskFlow.Proofs.Definition.Clashes
import TaskFlow.Proofs.Definition.Depth
import TaskFlow.Proofs.Definition.Hollow
import TaskFlow.Proofs.Definition.Normal
import TaskFlow.Proofs.Definition.Openings
import TaskFlow.Proofs.Definition.Rearranged
import TaskFlow.Proofs.Definition.Size
import TaskFlow.Proofs.Definition.Spelling
import TaskFlow.Proofs.Definition.Structure
import TaskFlow.Proofs.Document.Checked
import TaskFlow.Proofs.Exchange.GraphForText
import TaskFlow.Proofs.Exchange.TextForGraph
import TaskFlow.Proofs.Flow.Layout
import TaskFlow.Proofs.Flow.Mirrors
import TaskFlow.Proofs.Flow.Passages
import TaskFlow.Proofs.Flow.Render
import TaskFlow.Proofs.Flow.Walk
import TaskFlow.Proofs.Grammar
import TaskFlow.Proofs.Grammar.Unambiguous
import TaskFlow.Proofs.Graph.Acyclic
import TaskFlow.Proofs.Graph.Demands
import TaskFlow.Proofs.Graph.Document
import TaskFlow.Proofs.Graph.Dominance
import TaskFlow.Proofs.Graph.Equivalence
import TaskFlow.Proofs.Graph.Isomorphism
import TaskFlow.Proofs.Graph.Pairing
import TaskFlow.Proofs.Graph.PostDominance
import TaskFlow.Proofs.Graph.Search
import TaskFlow.Proofs.Graph.Twins
import TaskFlow.Proofs.Json.Escapes
import TaskFlow.Proofs.Json.Roundtrip
import TaskFlow.Proofs.Json.Words
import TaskFlow.Proofs.Layout.Anchored
import TaskFlow.Proofs.Layout.Blocks
import TaskFlow.Proofs.Layout.Canonical
import TaskFlow.Proofs.Layout.Copies
import TaskFlow.Proofs.Layout.Ids
import TaskFlow.Proofs.Layout.Numbering
import TaskFlow.Proofs.Layout.Parts
import TaskFlow.Proofs.Layout.Places
import TaskFlow.Proofs.Layout.Printable
import TaskFlow.Proofs.Layout.Rearranged
import TaskFlow.Proofs.Layout.Shape
import TaskFlow.Proofs.Layout.Spine
import TaskFlow.Proofs.Layout.Tidy
import TaskFlow.Proofs.Layout.Walk
import TaskFlow.Proofs.Layout.Words
import TaskFlow.Proofs.Reader.Completeness
import TaskFlow.Proofs.Reader.Demands
import TaskFlow.Proofs.Reader.Faults
import TaskFlow.Proofs.Reader.Image
import TaskFlow.Proofs.Reader.Language
import TaskFlow.Proofs.Reader.Legible
import TaskFlow.Proofs.Reader.Limit
import TaskFlow.Proofs.Reader.Mentions
import TaskFlow.Proofs.Reader.Moves
import TaskFlow.Proofs.Reader.Offsets
import TaskFlow.Proofs.Reader.Patterns
import TaskFlow.Proofs.Reader.Positions
import TaskFlow.Proofs.Reader.Progress
import TaskFlow.Proofs.Reader.Soundness
import TaskFlow.Proofs.Reader.Text
import TaskFlow.Proofs.Reader.Viability
import TaskFlow.Proofs.Render.Canonical
import TaskFlow.Proofs.Render.Completeness
import TaskFlow.Proofs.Render.Coverage
import TaskFlow.Proofs.Render.Limits
import TaskFlow.Proofs.Render.MatchingJoin
import TaskFlow.Proofs.Render.Readable
import TaskFlow.Proofs.Render.Recovery
import TaskFlow.Proofs.Render.Restyled
import TaskFlow.Proofs.Render.Roundtrip
import TaskFlow.Proofs.Render.Safety
import TaskFlow.Proofs.Render.Twins
import TaskFlow.Proofs.Text.Caret
import TaskFlow.Proofs.Token.Boundaries
import TaskFlow.Proofs.Token.Lexemes
import TaskFlow.Proofs.Token.Nesting
import TaskFlow.Proofs.Token.Partition
import TaskFlow.Proofs.Token.Spacing
import TaskFlow.Proofs.Walk.Hollow
import TaskFlow.Proofs.Walk.Mentions
import TaskFlow.Proofs.Walk.Patterns
import TaskFlow.Proofs.Walk.Run
import TaskFlow.Proofs.Walk.Tour
import TaskFlow.Proofs.Walk.Twins
import TaskFlow.Settings
import TaskFlow.Text.Blank
import TaskFlow.Text.Caret
import TaskFlow.Text.CodeRange
import TaskFlow.Text.Digit
import TaskFlow.Text.Line
import TaskFlow.Text.Path
import TaskFlow.Text.Printable
import TaskFlow.Text.Quoted
import TaskFlow.Text.UpperCase
import TaskFlow.Text.Word
import TaskFlow.Token
import TaskFlow.Token.Lexer
