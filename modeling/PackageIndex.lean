import PackageIndex.Main
import PackageIndex.Proofs.Version.Preorder
import PackageIndex.Proofs.Database.Preparation
import PackageIndex.Proofs.Database.Fields
import PackageIndex.Proofs.Database.Content
import PackageIndex.Proofs.Database.Records
import PackageIndex.Proofs.Database.Progress
import PackageIndex.Proofs.Database.RoundTrip
import PackageIndex.Proofs.Database.Cursor
import PackageIndex.Proofs.Advice.Best
import PackageIndex.Proofs.Advice.FixedPoint
import PackageIndex.Proofs.CommandLine.UpgradeStatus
import PackageIndex.Proofs.Files.Listing
import PackageIndex.Proofs.Database.Results
import PackageIndex.Proofs.Database.Normalization
import PackageIndex.Proofs.Database.Labels
import PackageIndex.Proofs.Database.Truncation
import PackageIndex.Proofs.Repository.Holdings
import PackageIndex.Proofs.Repository.Layers
import PackageIndex.Proofs.Repository.SingleReading
import PackageIndex.Proofs.Tree.Renumber
import PackageIndex.Proofs.Advice.Renumbering
import PackageIndex.Proofs.Tree.Growth
import PackageIndex.Proofs.Repository.Growth
import PackageIndex.Proofs.Database.Reading
import PackageIndex.Proofs.Repository.SinglePass
import PackageIndex.Proofs.Repository.Imports
import PackageIndex.Proofs.Repository.WellFormed
import PackageIndex.Proofs.Repository.LayerOrder
import PackageIndex.Proofs.Database.Headers
import PackageIndex.Proofs.Version.Arithmetic
import PackageIndex.Proofs.Database.Consumption
import PackageIndex.Proofs.Database.Safety
import PackageIndex.Proofs.Text.Slices
import PackageIndex.Proofs.Version.Grammar
import PackageIndex.Proofs.Version.Scanner
import PackageIndex.Proofs.Tree.Addresses
import PackageIndex.Proofs.Advice.Symmetry
import PackageIndex.Proofs.Package.Slots
import PackageIndex.Proofs.Advice.Optimum
import PackageIndex.Proofs.Advice.SlotBests
import PackageIndex.Proofs.Files.Replacement
import PackageIndex.Proofs.CommandLine.Update
import PackageIndex.Proofs.Advice.Standing
import PackageIndex.Proofs.Advice.Targets
import PackageIndex.Proofs.Advice.FirstInstalled
import PackageIndex.Proofs.Advice.SingleSlot
import PackageIndex.Proofs.Package.StableSort
import PackageIndex.Proofs.Advice.Memo
import PackageIndex.Proofs.Repository.CompleteImport
import PackageIndex.Proofs.Repository.UnselectedImport
import PackageIndex.Proofs.Advice.SlotClues
import PackageIndex.Proofs.Version.Names
import PackageIndex.Proofs.Files.Entries
import PackageIndex.Proofs.Installed.Entries
import PackageIndex.Proofs.Repository.CacheEntries
import PackageIndex.Proofs.Repository.LayerNames
import PackageIndex.Proofs.Tree.Edits
import PackageIndex.Proofs.Repository.Descriptions
import PackageIndex.Proofs.Database.References
import PackageIndex.Proofs.Database.IndexedDictionary
import PackageIndex.Proofs.Flags
import PackageIndex.Proofs.Keywords
import PackageIndex.Proofs.Database.NumberLength
import PackageIndex.Proofs.Slot
