import BuddyTree.Access
import BuddyTree.Allocator
import BuddyTree.Arena
import BuddyTree.Audit
import BuddyTree.Blocks
import BuddyTree.Call
import BuddyTree.Canonical
import BuddyTree.Claim
import BuddyTree.Command
import BuddyTree.Describe
import BuddyTree.Failure
import BuddyTree.Geometry
import BuddyTree.Hex
import BuddyTree.Interference
import BuddyTree.Layout
import BuddyTree.Metadata
import BuddyTree.Node
import BuddyTree.NodeId
import BuddyTree.Once
import BuddyTree.PowerOfTwo
import BuddyTree.Record
import BuddyTree.Region
import BuddyTree.Release
import BuddyTree.Search
import BuddyTree.Session
import BuddyTree.Shared
import BuddyTree.Source
import BuddyTree.Statistics
import BuddyTree.Status
import BuddyTree.Word
import BuddyTree.Proofs.Accounting
import BuddyTree.Proofs.Alignment
import BuddyTree.Proofs.Arenas
import BuddyTree.Proofs.Bounds
import BuddyTree.Proofs.Calls
import BuddyTree.Proofs.Checking
import BuddyTree.Proofs.Construction
import BuddyTree.Proofs.Exclusion
import BuddyTree.Proofs.Exhaustion
import BuddyTree.Proofs.Granules
import BuddyTree.Proofs.History
import BuddyTree.Proofs.Leftovers
import BuddyTree.Proofs.Lifetime
import BuddyTree.Proofs.Linearization
import BuddyTree.Proofs.Mirror
import BuddyTree.Proofs.Orderly
import BuddyTree.Proofs.Orders
import BuddyTree.Proofs.Passes
import BuddyTree.Proofs.Provision
import BuddyTree.Proofs.Quiescence
import BuddyTree.Proofs.Refinement
import BuddyTree.Proofs.Rest
import BuddyTree.Proofs.Retirement
import BuddyTree.Proofs.Skipping
import BuddyTree.Proofs.Termination
