import ResourceLint.Main
import ResourceLint.Proofs.Cancellation
import ResourceLint.Proofs.Composition
import ResourceLint.Proofs.Contract
import ResourceLint.Proofs.EarlyEnds
import ResourceLint.Proofs.LeadingText
import ResourceLint.Proofs.Markers
import ResourceLint.Proofs.NearestProject
import ResourceLint.Proofs.Noninterference
import ResourceLint.Proofs.ParseErrors
import ResourceLint.Proofs.PartialViews
import ResourceLint.Proofs.ReportedPlaces
import ResourceLint.Proofs.Representation
import ResourceLint.Proofs.RequestOrder
import ResourceLint.Proofs.RoundTrip
import ResourceLint.Proofs.Selecting
import ResourceLint.Proofs.SingleFiles
import ResourceLint.Proofs.StoredOverrides
import ResourceLint.Proofs.WiderScope
import ResourceLint.Proofs.XmlReport
import ResourceLint.Proofs.PageAccounts
import ResourceLint.Proofs.Bundling
import ResourceLint.Proofs.Filing
import ResourceLint.Proofs.IndexPage
import ResourceLint.Proofs.Lowercase
import ResourceLint.Proofs.PageCopies
import ResourceLint.Proofs.PageNames
import ResourceLint.Proofs.Printing
import ResourceLint.Proofs.Publishing
import ResourceLint.Proofs.PageImages
import ResourceLint.Proofs.Copying
import ResourceLint.Proofs.Drafting
import ResourceLint.Proofs.ReportOrder
import ResourceLint.Proofs.Seeing
import ResourceLint.Proofs.Ancestry
import ResourceLint.Proofs.Namespaces
import ResourceLint.Proofs.WrittenTags
import ResourceLint.Proofs.AttributeRanges
import ResourceLint.Proofs.Carets
import ResourceLint.Proofs.ManifestOrder
import ResourceLint.Proofs.RepeatedIds
import ResourceLint.Proofs.UnusedKeys
import ResourceLint.Proofs.LoneContainers
import ResourceLint.Proofs.Dimensions
import ResourceLint.Proofs.Disks
import ResourceLint.Proofs.Upkeep
import ResourceLint.Proofs.DensityFolders
import ResourceLint.Proofs.Rewording
import ResourceLint.Proofs.LineBreaks
import ResourceLint.Proofs.Links
import ResourceLint.Proofs.Wrapping
import ResourceLint.Proofs.ShownPaths
