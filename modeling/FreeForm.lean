import FreeForm.Files.Tree
import FreeForm.Main
import FreeForm.Proofs.Draft.Source
import FreeForm.Proofs.Reader.Parts
import FreeForm.Proofs.Lexer.Conservation
import FreeForm.Proofs.Lexer.Assembly
import FreeForm.Proofs.Lexer.RoundTrip
import FreeForm.Proofs.Scan.DirectiveLine
import FreeForm.Proofs.Draft.Bare
import FreeForm.Proofs.Draft.Expansion
import FreeForm.Proofs.Reader.Survey
import FreeForm.Proofs.Lexer.Expansion
import FreeForm.Proofs.Lexer.Alike
import FreeForm.Proofs.Lexer.Composition
import FreeForm.Proofs.Lexer.LineEnds
import FreeForm.Proofs.Reader.KeywordLine
import FreeForm.Proofs.Reader.Conditional
import FreeForm.Proofs.Lexer.Conditional
import FreeForm.Proofs.Draft.Separators
import FreeForm.Proofs.Lexer.Separators
import FreeForm.Proofs.Lexer.DividedString
import FreeForm.Proofs.Lexer.DividedToken
import FreeForm.Proofs.Lexer.IdleLine
import FreeForm.Proofs.Lexer.SemanticText
import FreeForm.Proofs.Lexer.ContinuedLine
import FreeForm.Proofs.Lexer.InclusionDepth
import FreeForm.Proofs.Lexer.Interleaving
import FreeForm.Proofs.Lexer.Acceptance
import FreeForm.Proofs.Lexer.Expanded
import FreeForm.Proofs.Lexer.WholeLines
import FreeForm.Proofs.Text.Words
import FreeForm.Proofs.Reader.Definition
import FreeForm.Proofs.Lexer.Predefinition
import FreeForm.Proofs.Reader.Findings
import FreeForm.Proofs.Lexer.Attribution
import FreeForm.Proofs.Lexer.Terminators
import FreeForm.Proofs.Scan.Spelling
import FreeForm.Proofs.Scan.Rescan
import FreeForm.Proofs.Scan.QuoteAutomaton
import FreeForm.Proofs.Text.Encoding
import FreeForm.Proofs.Reader.Including
import FreeForm.Proofs.Lexer.Pasting
import FreeForm.Proofs.Scan.Renaming
import FreeForm.Proofs.Scan.Numbers
import FreeForm.Proofs.Scan.Shapes
import FreeForm.Proofs.Scan.FirstFault
import FreeForm.Proofs.Scan.PlainFront
import FreeForm.Proofs.Lexer.StatementEnd
import FreeForm.Proofs.Lexer.Ownership
import FreeForm.Proofs.Scan.Rejected
import FreeForm.Proofs.Reader.Inactive
import FreeForm.Proofs.Reader.DirectiveForms
import FreeForm.Proofs.Reader.MacroHistory
import FreeForm.Proofs.Text.Decoding
import FreeForm.Proofs.Reader.DirectiveSigns
import FreeForm.Proofs.Lexer.Merging
