import AsmCatalog.Main
import AsmCatalog.Proofs.Outline
import AsmCatalog.Proofs.LineContent
import AsmCatalog.Proofs.OnePass
import AsmCatalog.Proofs.ReliableImport
import AsmCatalog.Proofs.FixedSource
import AsmCatalog.Proofs.MacroNesting
import AsmCatalog.Proofs.Tiling
import AsmCatalog.Proofs.LineCoverage
import AsmCatalog.Proofs.Visibility
import AsmCatalog.Proofs.Concatenation
import AsmCatalog.Proofs.Rewriting
import AsmCatalog.Proofs.ReadFailure
import AsmCatalog.Proofs.Cancellation
import AsmCatalog.Proofs.Declaration
import AsmCatalog.Proofs.Reporting
import AsmCatalog.Proofs.Segmentation
import AsmCatalog.Proofs.Strictness
import AsmCatalog.Proofs.FurtherIncludes
import AsmCatalog.Proofs.HeaderOffset
import AsmCatalog.Proofs.Ensures
import AsmCatalog.Proofs.ValidMacros
import AsmCatalog.Proofs.BufferedCursor
import AsmCatalog.Proofs.Insertion
import AsmCatalog.Proofs.Composition
import AsmCatalog.Proofs.FirstFailure
import AsmCatalog.Proofs.SecondWord
import AsmCatalog.Proofs.TrailingComment
import AsmCatalog.Proofs.NegatedName
import AsmCatalog.Proofs.HeaderComment
import AsmCatalog.Proofs.LiteralGrammar
import AsmCatalog.Proofs.HeaderModes
import AsmCatalog.Proofs.HeaderLayout
import AsmCatalog.Proofs.KeywordTests
import AsmCatalog.Proofs.Utf8RoundTrip
import AsmCatalog.Proofs.BracketedArguments
import AsmCatalog.Proofs.TabSpacing
import AsmCatalog.Proofs.SuffixImport
import AsmCatalog.Proofs.LineEndings
import AsmCatalog.Proofs.DotLabel
import AsmCatalog.Proofs.BracketScan
import AsmCatalog.Proofs.NormalForm
import AsmCatalog.Proofs.UnbrokenText
import AsmCatalog.Proofs.ListingRows
import AsmCatalog.Proofs.ExpectedNames
