import CrossRef.Disk.Memory
import CrossRef.Main
import CrossRef.Proofs.FileMarks
import CrossRef.Proofs.ResolutionOrder
import CrossRef.Proofs.SolutionRuns
import CrossRef.Proofs.SearchScope
import CrossRef.Proofs.PlanFrame
import CrossRef.Proofs.NamedPlaces
import CrossRef.Proofs.PlanOutcome
import CrossRef.Proofs.LocatedUses
import CrossRef.Proofs.Preview
import CrossRef.Proofs.NamesAlike
import CrossRef.Proofs.NameSpellings
import CrossRef.Proofs.ApartTokens
import CrossRef.Proofs.DirectiveLines
import CrossRef.Proofs.Respelling
import CrossRef.Proofs.RespelledText
import CrossRef.Proofs.RespelledMarks
import CrossRef.Proofs.RenamedResolution
import CrossRef.Proofs.PlannedTokens
import CrossRef.Proofs.AlphaRenaming
import CrossRef.Proofs.AnchoredUses
import CrossRef.Proofs.CursorTokens
import CrossRef.Proofs.CursorTarget
import CrossRef.Proofs.HiddenSymbols
import CrossRef.Proofs.RespelledNames
import CrossRef.Proofs.ExchangedNames
import CrossRef.Proofs.PlannedName
import CrossRef.Proofs.RememberedChecks
import CrossRef.Proofs.StampedOptions
import CrossRef.Proofs.AgreeingService
import CrossRef.Proofs.SessionHistory
import CrossRef.Proofs.FileUsesFound
import CrossRef.Proofs.InsertedRoles
import CrossRef.Proofs.InsertedMarks
import CrossRef.Proofs.InsertedRename
import CrossRef.Proofs.RenameOrigin
import CrossRef.Proofs.KeptTokens
import CrossRef.Proofs.SearchPool
import CrossRef.Proofs.LinkedCopies
import CrossRef.Proofs.EditHistory
import CrossRef.Proofs.StampChanges
import CrossRef.Proofs.Accessibility
import CrossRef.Proofs.UnchangedOrigin
import CrossRef.Proofs.AcceptedSpans
import CrossRef.Proofs.DistinctLines
import CrossRef.Proofs.ModuleDeclarations
import CrossRef.Proofs.ClassifiedIdentifiers
import CrossRef.Proofs.QualifiedNames
import CrossRef.Proofs.LexicalScoping
import CrossRef.Proofs.DependentProjects
import CrossRef.Proofs.ChangedDocuments
import CrossRef.Proofs.OptionTrees
import CrossRef.Proofs.RangeCounts
import CrossRef.Proofs.RegionNesting
import CrossRef.Proofs.ScannedBytes
import CrossRef.Proofs.TiledLines
import CrossRef.Proofs.SelectedTokens
import CrossRef.Proofs.RecentAnswers
import CrossRef.Proofs.TimedTables
import CrossRef.Proofs.OffsetPositions
import CrossRef.Proofs.LayeredTables
import CrossRef.Proofs.WrittenConditions
import CrossRef.Proofs.WrittenLocations
import CrossRef.Proofs.PrintedReferences
import CrossRef.Proofs.NarrowedSpans
