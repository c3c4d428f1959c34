import Maml.Text
import Maml.Span
import Maml.Token.Kind
import Maml.Token.Lexer
import Maml.Token.Scanner
import Maml.Token.Stream
import Maml.Token.Trail
import Maml.ParseError
import Maml.Lexeme
import Maml.Tree.Label
import Maml.Tree
import Maml.Container
import Maml.Grammar
import Maml.Draft
import Maml.Draft.Value
import Maml.Draft.Items
import Maml.Draft.Members
import Maml.Draft.Nesting
import Maml.Parse
import Maml.Reader
import Maml.Quoted
import Maml.Edit
import Maml.Diagnostic
import Maml.Site
import Maml.View
import Maml.Document
import Maml.Layout
import Maml.Defect
import Maml.Form
import Maml.Spot
import Maml.Leaves
import Maml.Depth
import Maml.Comma
import Maml.Gap
import Maml.Validation
import Maml.Check
import Maml.Repeat
import Maml.Lookup
import Maml.Dump
import Maml.Report
import Maml.Session
import Maml.Repair
import Maml.Proofs.Lossless
import Maml.Proofs.Shape
import Maml.Proofs.Pieces
import Maml.Proofs.Acceptance
import Maml.Proofs.Placement
import Maml.Proofs.Nesting
import Maml.Proofs.Appearance
import Maml.Proofs.Marks
import Maml.Proofs.Accounts
import Maml.Proofs.Defects
import Maml.Proofs.Words
import Maml.Proofs.Spacing
import Maml.Proofs.Drawing
import Maml.Proofs.ReadBack
import Maml.Proofs.Silence
import Maml.Proofs.RoundTrip
import Maml.Proofs.Quoting
import Maml.Proofs.Taking
import Maml.Proofs.Ahead
import Maml.Proofs.Containers
import Maml.Proofs.Descent
import Maml.Proofs.Ranges
import Maml.Proofs.Totality
import Maml.Proofs.Standing
import Maml.Proofs.Forms
import Maml.Proofs.Regrouping
import Maml.Proofs.Resolution
import Maml.Proofs.Spots
import Maml.Proofs.Edges
import Maml.Proofs.Closers
import Maml.Proofs.Depth
import Maml.Proofs.Notes
import Maml.Proofs.Parts
import Maml.Proofs.Commas
import Maml.Proofs.Closing
import Maml.Proofs.Cuts
import Maml.Proofs.Scanning
import Maml.Proofs.Sorting
import Maml.Proofs.Options
import Maml.Proofs.Fitting
import Maml.Proofs.Usable
import Maml.Proofs.Reports
import Maml.Proofs.Alone
import Maml.Proofs.Siblings
import Maml.Proofs.Gaps
import Maml.Proofs.Rereading
import Maml.Proofs.Recast
import Maml.Proofs.Changes
import Maml.Proofs.Splicing
import Maml.Proofs.QuoteFixes
import Maml.Proofs.LineFixes
import Maml.Proofs.OpenStrings
import Maml.Proofs.CloserFixes
import Maml.Proofs.CommaFixes
import Maml.Proofs.Endings
import Maml.Proofs.PlusPlaces
import Maml.Proofs.PlusFixes
import Maml.Proofs.Edits
import Maml.Proofs.Reading
import Maml.Proofs.Sequence
import Maml.Proofs.Unterminated
import Maml.Proofs.Lookahead
import Maml.Proofs.Offsets
import Maml.Proofs.Amending
import Maml.Proofs.Exchange
import Maml.Proofs.Written
import Maml.Proofs.NameFixes
import Maml.Proofs.BareKeys
import Maml.Proofs.ColonPlaces
import Maml.Proofs.ColonFixes
import Maml.Proofs.Streams
import Maml.Proofs.TripleQuotes
import Maml.Proofs.KeyNodes
import Maml.Proofs.BareNames
import Maml.Proofs.ObjectKeys
import Maml.Proofs.Repeats
import Maml.Proofs.Passing
import Maml.Proofs.Progress
