import ProjectScope.Main
import ProjectScope.Proofs.BareEntry
import ProjectScope.Proofs.FormAgreement
import ProjectScope.Proofs.WalkResult
import ProjectScope.Proofs.WalkFailure
import ProjectScope.Proofs.RuleDecisions
import ProjectScope.Proofs.LiteralFiles
import ProjectScope.Proofs.DownwardEntries
import ProjectScope.Proofs.ExcludedDirectories
import ProjectScope.Proofs.PathAncestors
import ProjectScope.Proofs.LinkFreeTree
import ProjectScope.Proofs.Location
import ProjectScope.Proofs.NearestProject
import ProjectScope.Proofs.LocatedSpelling
import ProjectScope.Proofs.DoubledSeparator
import ProjectScope.Proofs.BatchResolution
import ProjectScope.Proofs.StableLocation
import ProjectScope.Proofs.ProjectKeys
import ProjectScope.Proofs.RejectedPatterns
import ProjectScope.Proofs.ScopeAlgebra
import ProjectScope.Proofs.DefaultScope
import ProjectScope.Proofs.RootSpelling
import ProjectScope.Proofs.ListedBelow
import ProjectScope.Proofs.OrdinaryBraces
import ProjectScope.Proofs.SegmentMatching
import ProjectScope.Proofs.MalformedEntries
import ProjectScope.Proofs.SlashCounts
import ProjectScope.Proofs.AllowedJavaScript
import ProjectScope.Proofs.ConfigReadings
import ProjectScope.Proofs.OnePassReading
import ProjectScope.Proofs.EntrySpelling
import ProjectScope.Proofs.PendingStack
import ProjectScope.Proofs.ListedAsJson
