import TagTree.Document.Scan
import TagTree.Element.WellFormed
import TagTree.Grammar.Derivation
import TagTree.Main
import TagTree.Proofs.Parser.Bounds
import TagTree.Proofs.Parser.Piece
import TagTree.Proofs.Grammar.Tags
import TagTree.Proofs.Grammar.Names
import TagTree.Proofs.Grammar.AttributeRows
import TagTree.Proofs.Grammar.TagTexts
import TagTree.Proofs.Grammar.Elements
import TagTree.Proofs.Grammar.Acceptance
import TagTree.Proofs.Document.Reading
import TagTree.Proofs.Element.Attributes
import TagTree.Proofs.Element.RoundTrip
import TagTree.Proofs.Grammar.NestedErrors
import TagTree.Proofs.Document.OnePass
import TagTree.Proofs.Grammar.HigherLimit
import TagTree.Proofs.Document.Limit
import TagTree.Proofs.Grammar.Depth
import TagTree.Proofs.Parser.Finishing
import TagTree.Proofs.Document.Boundaries
import TagTree.Proofs.Document.LeadingText
import TagTree.Proofs.Parser.Fatal
import TagTree.Proofs.Document.Log
import TagTree.Proofs.Document.Completion
import TagTree.Proofs.Document.FirstTooDeep
import TagTree.Proofs.Parser.Repetition
import TagTree.Proofs.Grammar.ElementTexts
import TagTree.Proofs.Grammar.ChildrenLoop
import TagTree.Proofs.Document.WrongClosing
import TagTree.Proofs.Text.Positions
import TagTree.Proofs.Element.Outline
import TagTree.Proofs.Cli.TreeLines
import TagTree.Proofs.Element.IllFormed
import TagTree.Proofs.Cli.NormalForm
import TagTree.Proofs.Cli.FrontEnds
import TagTree.Proofs.Cli.ElementCount
import TagTree.Proofs.Document.AttributeOrder
