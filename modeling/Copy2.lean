import Copy2.Scheduler.Bookkeeping
import Copy2.Scheduler.ErrorCount
import Copy2.Scheduler.Exact
import Copy2.Scheduler.StaleBytes
import Copy2.Scheduler.Buffers
import Copy2.Pipeline.Shutdown
import Copy2.Crawl.Sync
import Copy2.Crawl.Visits
import Copy2.Crawl.Partials
import Copy2.Finish.Metadata
import Copy2.Finish.Replace
import Copy2.HLink.Pending
import Copy2.HLink.Shared
import Copy2.HLink.Lifetime
import Copy2.HLink.Stranded
import Copy2.HLink.Cache
import Copy2.HLink.LockBalance
import Copy2.HLink.OwnEntries
import Copy2.Crawl.Descriptors
import Copy2.Crawl.Removed
import Copy2.Finish.Leftovers
import Copy2.References.Seen
import Copy2.Os.PathOk
import Copy2.Scheduler.Offsets
import Copy2.Paths.Memcpy
import Copy2.Paths.Release
import Copy2.Memory.Layout
import Copy2.RemoveExtra.Pruned
import Copy2.References.Last
import Copy2.Memory.BuddyBounds
import Copy2.Memory.AllocatorRuns
import Copy2.Queue.Runs
import Copy2.Crawl.Confined
