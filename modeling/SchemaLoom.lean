import SchemaLoom.Command.Report
import SchemaLoom.Main
import SchemaLoom.Proofs.MergeEvents
import SchemaLoom.Tree.Forest
import SchemaLoom.Proofs.RootTypes
import SchemaLoom.Proofs.AsRead
import SchemaLoom.Proofs.TokenStream
import SchemaLoom.Proofs.ReaderRuns
import SchemaLoom.Proofs.ReaderYields
import SchemaLoom.Proofs.ParsedSound
import SchemaLoom.Proofs.Printable
import SchemaLoom.Proofs.Blocks
import SchemaLoom.Proofs.Literals
import SchemaLoom.Proofs.Spelling
import SchemaLoom.Proofs.Legible
import SchemaLoom.Proofs.WrittenApart
import SchemaLoom.Proofs.WrittenTokens
import SchemaLoom.Proofs.WrittenScan
import SchemaLoom.Proofs.ReaderOutcomes
import SchemaLoom.Proofs.ReadsBack
import SchemaLoom.Proofs.DocumentReadsBack
import SchemaLoom.Proofs.RoundTrip
import SchemaLoom.Proofs.NormalForm
import SchemaLoom.Proofs.UniqueKeys
import SchemaLoom.Proofs.MergeFold
import SchemaLoom.Proofs.Remerge
import SchemaLoom.Proofs.Unplaced
import SchemaLoom.Proofs.PlainRoundTrip
import SchemaLoom.Proofs.Occurrences
import SchemaLoom.Proofs.Histories
import SchemaLoom.Proofs.FailedSteps
import SchemaLoom.Proofs.UnplacedText
import SchemaLoom.Proofs.UnplacedRuns
import SchemaLoom.Proofs.FileOrder
import SchemaLoom.Proofs.MergeCommand
import SchemaLoom.Proofs.AppendByKey
import SchemaLoom.Proofs.Moves
import SchemaLoom.Proofs.Draining
import SchemaLoom.Proofs.MergeOutcomes
import SchemaLoom.Proofs.Discoveries
import SchemaLoom.Proofs.Outlines
import SchemaLoom.Proofs.RefusedNames
import SchemaLoom.Proofs.ReadableNames
import SchemaLoom.Proofs.Matches
import SchemaLoom.Proofs.WholeNames
