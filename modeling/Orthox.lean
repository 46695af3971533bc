import Orthox.Journal.Sync
import Orthox.Blocks.Reserve
import Orthox.Files.Clock
import Orthox.Cache.Failures
import Orthox.Files.Exposed
import Orthox.Memory.Isolation
import Orthox.Pipes.Atomic
import Orthox.Memory.BuildRoot
import Orthox.Memory.Release
import Orthox.Memory.Sv39Safety
import Orthox.Descriptions.Append
import Orthox.Pipes.Nonblock
import Orthox.Open.Access
import Orthox.Tasks.Remains
import Orthox.Poll.Sleepers
import Orthox.Sockets.Connect
import Orthox.Sockets.Lookup
import Orthox.Sockets.Window
import Orthox.Listing.Complete
import Orthox.Overlay.OneNamespace
import Orthox.Mmap.Remap
import Orthox.Memory.PmmCore
import Orthox.Poll.Timeouts
import Orthox.Inodes.Table
import Orthox.Offline.Build
import Orthox.Offline.Sparsify
import Orthox.Blocks.Statfs
import Orthox.Paths.Normal
import Orthox.Pipes.Lifetime
import Orthox.Open.Rename
import Orthox.Open.Seek
import Orthox.Waits.Completion
import Orthox.Devices.Kout
import Orthox.Mmap.Gap
