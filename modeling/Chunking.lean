import Chunking.Batch
import Chunking.Chunk
import Chunking.Chunker
import Chunking.Code.Chunker
import Chunking.Code.Select
import Chunking.CommandLine.Arguments
import Chunking.CommandLine.Run
import Chunking.Digest.Sha256
import Chunking.Document
import Chunking.Environment
import Chunking.FileTree
import Chunking.Json.Codec
import Chunking.Json.Fault
import Chunking.Json.Scalar
import Chunking.Json.Skip
import Chunking.Json.Write
import Chunking.Language
import Chunking.Main
import Chunking.Metadata
import Chunking.Names.Bracket
import Chunking.Names.CSharp
import Chunking.Names.EcmaScript
import Chunking.Names.Extracted
import Chunking.Names.Java
import Chunking.Names.NameSet
import Chunking.Names.TypeName
import Chunking.Options
import Chunking.Pattern.Basic
import Chunking.Pattern.Cursor
import Chunking.Pattern.FindAll
import Chunking.Pattern.FirstWays
import Chunking.Payload
import Chunking.Prepared
import Chunking.Proofs.CodeSpans
import Chunking.Proofs.Cover
import Chunking.Proofs.Joined
import Chunking.Proofs.JoinedMarks
import Chunking.Proofs.MarkedLines
import Chunking.Proofs.OpenCuts
import Chunking.Proofs.Placement
import Chunking.Proofs.Recovery
import Chunking.Proofs.Reused
import Chunking.Proofs.Selected
import Chunking.Reindex
import Chunking.Scan.Depth
import Chunking.Scan.Run
import Chunking.Scan.SafeSplit
import Chunking.Scan.State
import Chunking.Scan.Trace
import Chunking.SettingsFile.Basic
import Chunking.SettingsFile.Line
import Chunking.Size
import Chunking.Span
import Chunking.Stored.Codecs
import Chunking.Text.Alphabetic
import Chunking.Text.CharClass
import Chunking.Text.Hex
import Chunking.Text.Number
import Chunking.Text.RangeTable
import Chunking.Text.Recent
import Chunking.Text.Utf8
import Chunking.Text.WordPart
import Chunking.Uuid
import Chunking.Window
import Chunking.Proofs.SharedStart
import Chunking.Proofs.SharedEnd
import Chunking.Batch.Pool
import Chunking.Proofs.BatchReport
import Chunking.Proofs.Schedule
import Chunking.Proofs.ArgumentList
import Chunking.Proofs.SpoiledSettings
import Chunking.Proofs.WholeRun
import Chunking.Proofs.Clamping
import Chunking.Proofs.JsonScalars
import Chunking.Proofs.JsonCodecs
import Chunking.Proofs.JsonRecords
import Chunking.Proofs.StoredRecords
import Chunking.Proofs.Places
import Chunking.Proofs.FencedSearch
import Chunking.Proofs.JoinedSources
import Chunking.Proofs.Spans
import Chunking.Proofs.WholeWords
import Chunking.Proofs.CountedCommas
import Chunking.Proofs.ConstructorParts
import Chunking.Proofs.ReportedNames
import Chunking.Proofs.ExactSplits
import Chunking.Proofs.JoinedSplits
import Chunking.Proofs.SideBySide
import Chunking.Proofs.HiddenText
import Chunking.Proofs.LineEndings
import Chunking.Proofs.PreferredSplit
import Chunking.Proofs.WindowPlaces
import Chunking.Proofs.Windows64
import Chunking.Proofs.ReindexPlan
import Chunking.Proofs.FoundMatches
import Chunking.Proofs.WholeParts
import Chunking.Proofs.DeclaredNames
import Chunking.Proofs.Identifiers
import Chunking.Proofs.Pieces
import Chunking.Proofs.SpannedText
import Chunking.Proofs.TypeExpressions
import Chunking.Proofs.TypeArguments
import Chunking.Proofs.JavaFields
import Chunking.Proofs.MatchedBrackets
import Chunking.Proofs.ConstructorTexts
import Chunking.Proofs.ConstructorBodies
import Chunking.Proofs.ParameterReading
import Chunking.Proofs.TypeNesting
import Chunking.Proofs.TypeReader
import Chunking.Proofs.ShownTypes
import Chunking.Proofs.ConstructorParameters
import Chunking.Proofs.MovedDocuments
import Chunking.Proofs.DeclarationHeads
import Chunking.Proofs.FieldLines
import Chunking.Proofs.AnnotatedFields
import Chunking.Proofs.PropertyDeclarations
import Chunking.Proofs.AutoProperties
import Chunking.Proofs.ReturnedPlaces
import Chunking.Proofs.SteadyPatterns
import Chunking.Proofs.ReturnedConstructors
import Chunking.Proofs.SpacedNames
import Chunking.Proofs.PropertyHeads
import Chunking.Proofs.ReturnedMetadata
import Chunking.Proofs.ClosingDelimiter
import Chunking.Proofs.NestedCommas
import Chunking.Proofs.Boundaries
import Chunking.Proofs.CheckedSlices
