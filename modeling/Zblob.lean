import Zblob.Durable
import Zblob.Acceptance
import Zblob.ServerSteps
import Zblob.Lib.Runs
import Zblob.Agreement
import Zblob.Backing
import Zblob.Completion
import Zblob.Slot
import Zblob.Spooling
import Zblob.Confinement
import Zblob.Leftover
import Zblob.Stripes
import Zblob.Coalesce
import Zblob.Limits
import Zblob.Coexistence
import Zblob.FetchSafety
import Zblob.Readback
import Zblob.Reuse
import Zblob.Roundtrip
import Zblob.Race
import Zblob.Retention
import Zblob.Reassembly
import Zblob.DirStoreMap
import Zblob.Capacity
import Zblob.Staleness
import Zblob.Isolation
import Zblob.Messages
import Zblob.Identity
import Zblob.Convergence
import Zblob.Geometry
import Zblob.Views
import Zblob.Grammar
import Zblob.Dealing
import Zblob.Retry
import Zblob.Routing
import Zblob.Carriage
import Zblob.Presence
import Zblob.Upload
import Zblob.Registering
import Zblob.Scrub
import Zblob.WantLists
import Zblob.Seeded
import Zblob.Modes
import Zblob.Publish
import Zblob.Lib.Progress
import Zblob.Sync
import Zblob.Willing
import Zblob.Delivered
import Zblob.Budget
import Zblob.Storage
import Zblob.Ordered
import Zblob.Served
import Zblob.Broadcast
import Zblob.Site
import Zblob.Pushing
import Zblob.Uploaded
