import Torpor.Actor.Attribution
import Torpor.Actor.Chain
import Torpor.Actor.Endings
import Torpor.Actor.HashChain
import Torpor.Actor.Refusals
import Torpor.Actor.RollbackAtomicity
import Torpor.Actor.Sessions
import Torpor.Actor.SnapshotTree
import Torpor.Actor.SuccessCodes
import Torpor.Actor.Termination
import Torpor.Capabilities.Exactness
import Torpor.Durability.Exactness
import Torpor.Durability.Concurrent
import Torpor.Durability.Failures
import Torpor.Durability.Harness
import Torpor.Durability.Spelling
import Torpor.Fleet.Confinement
import Torpor.Fleet.Dispatch
import Torpor.Fleet.ExactlyOnce
import Torpor.Fleet.Following
import Torpor.Fleet.Policies
import Torpor.Inference.Cancellation
import Torpor.Inference.Starvation
import Torpor.Inference.Wakeups
import Torpor.Integrity
import Torpor.IoQueue.Selection
import Torpor.IoQueue.Slots
import Torpor.Lab.Ancestors
import Torpor.Lab.Listing
import Torpor.Lab.Namespaces
import Torpor.Lab.Order
import Torpor.Lab.Restores
import Torpor.Lab.Sessions
import Torpor.Lab.Snapshots
import Torpor.Scheduler.Dormancy
import Torpor.Scheduler.Spawn
import Torpor.Scheduler.Tenants
import Torpor.Scheduler.Wiring
import Torpor.Sel4.BlockStorage
import Torpor.Sel4.Regions
import Torpor.Sel4.ChildVspace
import Torpor.Sel4.DeviceFrames
import Torpor.Sel4.LengthContract
import Torpor.Sel4.RingRecords
import Torpor.Sel4.KillPoints
import Torpor.Sel4.StoreContent
import Torpor.SnapshotLine
import Torpor.System.Authenticity
import Torpor.System.Authority
import Torpor.System.CausalGraph
import Torpor.System.Citations
import Torpor.System.Crash
import Torpor.System.Independence
import Torpor.System.Supervision
import Torpor.Reconstruct.Bounds
import Torpor.Lib.Buddy
import Torpor.Lib.Summary
import Torpor.Redb.Bitmap
import Torpor.Redb.BuddyAllocator
import Torpor.Redb.BuddySizes
import Torpor.Redb.BuddyClient
import Torpor.Redb.Layout
import Torpor.Redb.Region
import Torpor.Redb.PageNumber
import Torpor.Redb.PageManager
import Torpor.Redb.PageManagerSteps
import Torpor.Redb.PageManagerRuns
import Torpor.Redb.Recovery
