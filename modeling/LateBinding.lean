import LateBinding.Session.Command
import LateBinding.Symbol.Table
import LateBinding.Proofs.Hierarchy.Graph
import LateBinding.Proofs.Hierarchy.Linearize
import LateBinding.Proofs.Hierarchy.Memo
import LateBinding.Proofs.Hierarchy.Publish
import LateBinding.Proofs.Hierarchy.Walk
import LateBinding.Proofs.Hierarchy.Evolution
import LateBinding.Proofs.Hierarchy.Growth
import LateBinding.Proofs.Hierarchy.Edits
import LateBinding.Proofs.Hierarchy.Stamps
import LateBinding.Proofs.Lookup.Cache
import LateBinding.Proofs.Lookup.Newest
import LateBinding.Proofs.CoreClasses
import LateBinding.Proofs.Hierarchy.Operations
import LateBinding.Proofs.Hierarchy.Depth
import LateBinding.Proofs.Hierarchy.Coherence
import LateBinding.Proofs.Hierarchy.Kin
import LateBinding.Proofs.CallSite
import LateBinding.Proofs.World.Sound
import LateBinding.Proofs.World.Verdict
import LateBinding.Proofs.Machine.Alike
import LateBinding.Proofs.Machine.Runs
import LateBinding.Proofs.Machine.CallSites
import LateBinding.Proofs.Machine.Options
import LateBinding.Proofs.Metaclasses
import LateBinding.Proofs.Hierarchy.Entries
import LateBinding.Proofs.Rooted
import LateBinding.Proofs.Kernel
import LateBinding.Proofs.World.Hooked
import LateBinding.Proofs.Machine.Faults
import LateBinding.Proofs.Machine.Histories
import LateBinding.Proofs.World.Passages
import LateBinding.Proofs.World.Tallies
import LateBinding.Proofs.CallSite.BoundedList
import LateBinding.Proofs.CallSite.Shape
import LateBinding.Proofs.Hierarchy.Tables
import LateBinding.Proofs.Machine.SiteHistories
import LateBinding.Proofs.World.Counts
import LateBinding.Proofs.Machine.Polling
import LateBinding.Proofs.Machine.Responding
import LateBinding.Proofs.Machine.Warmth
import LateBinding.Proofs.Machine.Ledger
import LateBinding.Proofs.Hierarchy.Requests
import LateBinding.Proofs.Hierarchy.Order
import LateBinding.Proofs.Hierarchy.Refusals
import LateBinding.Proofs.Hierarchy.Filing
import LateBinding.Proofs.Hierarchy.Writes
import LateBinding.Proofs.Hierarchy.Cycles
import LateBinding.Proofs.Hierarchy.NewEdges
import LateBinding.Proofs.Hierarchy.Stamping
import LateBinding.Proofs.Hierarchy.Visibilities
import LateBinding.Proofs.Machine.Tombstones
import LateBinding.Proofs.Hierarchy.Listing
import LateBinding.Proofs.Hierarchy.Lasting
import LateBinding.Proofs.Hierarchy.Moves
import LateBinding.Proofs.Hierarchy.Inclusions
import LateBinding.Proofs.NearestMetaclass
import LateBinding.Proofs.SingletonClasses
import LateBinding.Proofs.Attaching
import LateBinding.Proofs.DeclaredClasses
import LateBinding.Proofs.Hierarchy.Creation
import LateBinding.Proofs.Machine.AskingByName
import LateBinding.Proofs.Machine.SendingByName
import LateBinding.Proofs.Machine.ForeignCalls
import LateBinding.Proofs.Machine.UnknownClasses
import LateBinding.Proofs.Machine.Retrying
import LateBinding.Proofs.Machine.CallLedger
import LateBinding.Proofs.Text.Blank
import LateBinding.Proofs.OptionTexts
import LateBinding.Proofs.SymbolTable
