import ArchiveTarBuilder.SpliceAgreement
import ArchiveTarBuilder.TraversalOrder
import ArchiveTarBuilder.DelayedErrors
import ArchiveTarBuilder.HardLinks
import ArchiveTarBuilder.RepeatedFlush
import ArchiveTarBuilder.PlainContents
import ArchiveTarBuilder.SilentFailures
import ArchiveTarBuilder.LostEntries
import ArchiveTarBuilder.EntryNames
import ArchiveTarBuilder.PatternSelection
import ArchiveTarBuilder.Tally
import ArchiveTarBuilder.FlushPoints
import ArchiveTarBuilder.PathSplit
import ArchiveTarBuilder.SymlinkTargets
import ArchiveTarBuilder.MatchHistory
import ArchiveTarBuilder.LineSequence
import ArchiveTarBuilder.StackList
import ArchiveTarBuilder.CleanPath
import ArchiveTarBuilder.PatternFiles
import ArchiveTarBuilder.ExcludedTrees
import ArchiveTarBuilder.Unpacking
import ArchiveTarBuilder.PatternMeaning
import ArchiveTarBuilder.Descriptors
import ArchiveTarBuilder.UserNames
import ArchiveTarBuilder.SplitObjects
import ArchiveTarBuilder.FindObjects
import ArchiveTarBuilder.Reuse
import ArchiveTarBuilder.MatchObjects
