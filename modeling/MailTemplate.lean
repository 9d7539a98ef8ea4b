import MailTemplate.Main
import MailTemplate.Watch.Filter
import MailTemplate.Watch.Notification
import MailTemplate.Proofs.MessageLines
import MailTemplate.Proofs.BoundaryChoice
import MailTemplate.Proofs.MessageReader
import MailTemplate.Proofs.MessageStructure
import MailTemplate.Proofs.TemplateMessage
import MailTemplate.Proofs.TokenSpans
import MailTemplate.Proofs.EditParts
import MailTemplate.Proofs.EmojiReferences
import MailTemplate.Proofs.Readaptation
import MailTemplate.Proofs.OutputClaims
import MailTemplate.Proofs.BuildGuard
import MailTemplate.Proofs.TextAhead
import MailTemplate.Proofs.WrittenMarkup
import MailTemplate.Proofs.StyleSpans
import MailTemplate.Proofs.MarkupEdits
import MailTemplate.Proofs.AttributeEdits
import MailTemplate.Proofs.InPlaceRules
import MailTemplate.Proofs.TreeWrites
import MailTemplate.Proofs.PathParents
import MailTemplate.Proofs.DiskWays
import MailTemplate.Proofs.BuildOrder
import MailTemplate.Proofs.EditPlaces
import MailTemplate.Proofs.PathComponents
import MailTemplate.Proofs.WatchedPaths
import MailTemplate.Proofs.HeadCompletion
import MailTemplate.Proofs.TitleKeeping
import MailTemplate.Proofs.TableWrapping
import MailTemplate.Proofs.ReferencedMarkup
import MailTemplate.Proofs.OutlookSubject
import MailTemplate.Proofs.PathDescents
import MailTemplate.Proofs.DiscoveredTemplates
import MailTemplate.Proofs.DiskPlaces
import MailTemplate.Proofs.DirectoryFiles
import MailTemplate.Proofs.DiskAdditions
import MailTemplate.Proofs.DiskRewrites
import MailTemplate.Proofs.BundleRuns
import MailTemplate.Proofs.ManifestRecords
import MailTemplate.Proofs.BundleSources
import MailTemplate.Proofs.Rearchiving
import MailTemplate.Proofs.DiskDescents
import MailTemplate.Proofs.BundleContents
import MailTemplate.Proofs.Computations
import MailTemplate.Proofs.MergedTables
import MailTemplate.Proofs.StockOverlay
import MailTemplate.Proofs.CoordinatorSteps
import MailTemplate.Proofs.BuildReports
import MailTemplate.Proofs.CallAccounts
import MailTemplate.Proofs.ExportFiles
import MailTemplate.Proofs.FilePlaces
import MailTemplate.Proofs.OutputNames
import MailTemplate.Proofs.BuiltDocuments
import MailTemplate.Proofs.GlobEndings
import MailTemplate.Proofs.Rebuilding
import MailTemplate.Proofs.Reexporting
import MailTemplate.Proofs.SheetRewrites
import MailTemplate.Proofs.StyleRewrites
import MailTemplate.Proofs.DecodedStyles
import MailTemplate.Proofs.FontNames
import MailTemplate.Proofs.FontLists
import MailTemplate.Proofs.FontReplacement
import MailTemplate.Proofs.MatchingTags
import MailTemplate.Proofs.NestedWrappers
import MailTemplate.Proofs.ReceivedClasses
import MailTemplate.Proofs.StylePairs
import MailTemplate.Proofs.SettledSpacers
import MailTemplate.Proofs.EncodedLines
import MailTemplate.Proofs.DecodedText
import MailTemplate.Proofs.EncodedWords
import MailTemplate.Proofs.ReferencedTokens
import MailTemplate.Proofs.EmojiMeaning
import MailTemplate.Proofs.KeptEdits
import MailTemplate.Proofs.ImportantMarks
import MailTemplate.Proofs.TokenShapes
import MailTemplate.Proofs.RawTextEnds
import MailTemplate.Proofs.StyleValues
import MailTemplate.Proofs.FlattenedOutputs
import MailTemplate.Proofs.EntryNames
import MailTemplate.Proofs.ReportedFiles
import MailTemplate.Proofs.AppendedDeclarations
import MailTemplate.Proofs.TokenInsertions
import MailTemplate.Proofs.OrderedTables
import MailTemplate.Proofs.MergedLeaves
