import RegionTree.Address
import RegionTree.Event
import RegionTree.Failure
import RegionTree.Flags.Basic
import RegionTree.Flags.Fault
import RegionTree.Flags.Page
import RegionTree.Flags.Region
import RegionTree.Gap
import RegionTree.Handle
import RegionTree.Index
import RegionTree.MemoryObject
import RegionTree.Mmu
import RegionTree.Mmu.PageTable
import RegionTree.Mmu.Steered
import RegionTree.Node
import RegionTree.Node.Edit
import RegionTree.Node.Lookup
import RegionTree.Node.Walk
import RegionTree.Placement
import RegionTree.Placement.Basic
import RegionTree.Placement.Compact
import RegionTree.Placement.FirstFit
import RegionTree.Placement.Uniform
import RegionTree.Proofs.Add
import RegionTree.Proofs.Alignment
import RegionTree.Proofs.Atomicity
import RegionTree.Proofs.Breaches
import RegionTree.Proofs.Clipping
import RegionTree.Proofs.Clustering
import RegionTree.Proofs.Confinement
import RegionTree.Proofs.Context
import RegionTree.Proofs.Coverage
import RegionTree.Proofs.Cuts
import RegionTree.Proofs.Descent
import RegionTree.Proofs.Destroy
import RegionTree.Proofs.Displacement
import RegionTree.Proofs.DrawnPlacement
import RegionTree.Proofs.Enumeration
import RegionTree.Proofs.Evolution
import RegionTree.Proofs.Faults
import RegionTree.Proofs.FirstFit
import RegionTree.Proofs.Flags
import RegionTree.Proofs.GapEnumeration
import RegionTree.Proofs.Gaps
import RegionTree.Proofs.Grants
import RegionTree.Proofs.Growth
import RegionTree.Proofs.Guard
import RegionTree.Proofs.Handles
import RegionTree.Proofs.Index
import RegionTree.Proofs.Kinship
import RegionTree.Proofs.Ledger
import RegionTree.Proofs.Lineage
import RegionTree.Proofs.Listing
import RegionTree.Proofs.Lookups
import RegionTree.Proofs.Minus
import RegionTree.Proofs.Names
import RegionTree.Proofs.Nesting
import RegionTree.Proofs.Padding
import RegionTree.Proofs.PageFault
import RegionTree.Proofs.Permissions
import RegionTree.Proofs.Permitting
import RegionTree.Proofs.Pieces
import RegionTree.Proofs.Pinned
import RegionTree.Proofs.Placement
import RegionTree.Proofs.Protect
import RegionTree.Proofs.Reach
import RegionTree.Proofs.Refusals
import RegionTree.Proofs.Removal
import RegionTree.Proofs.Renaming
import RegionTree.Proofs.Reworking
import RegionTree.Proofs.Run
import RegionTree.Proofs.Shortage
import RegionTree.Proofs.Space
import RegionTree.Proofs.SpanSets
import RegionTree.Proofs.Subtraction
import RegionTree.Proofs.SystemImage
import RegionTree.Proofs.Text
import RegionTree.Proofs.Translations
import RegionTree.Proofs.Unbroken
import RegionTree.Proofs.UniformPlacement
import RegionTree.Proofs.Unmap
import RegionTree.Proofs.WellFormed
import RegionTree.Random.Entropy
import RegionTree.Random.Keystream
import RegionTree.Resources
import RegionTree.Resources.Destroy
import RegionTree.Resources.Rework
import RegionTree.Space
import RegionTree.Space.Add
import RegionTree.Space.Listing
import RegionTree.Space.PageFault
import RegionTree.Space.Protect
import RegionTree.Space.Query
import RegionTree.Space.Run
import RegionTree.Space.Sample
import RegionTree.Space.Unmap
import RegionTree.Span
import RegionTree.Text.Hex
import RegionTree.Text.Lines
import RegionTree.Text.Name
