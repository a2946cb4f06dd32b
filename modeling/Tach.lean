import Tach.FatThreads
import Tach.OpenEntries
import Tach.FaultyDisk
import Tach.Multiboot
import Tach.Handlers
import Tach.ExecFailures
import Tach.MemoryCalls
import Tach.FrameRuns
import Tach.TimerRuns
import Tach.WatchdogRuns
import Tach.RunQueues
import Tach.Waitpid
import Tach.WaitWakeups
import Tach.Semaphores
import Tach.Zombies
import Tach.PipeRuns
import Tach.OpenCounts
import Tach.HeapRuns
import Tach.RwLocks
import Tach.SlabRuns
import Tach.UserHeapRuns
import Tach.Appends
import Tach.Positions
import Tach.ShellChains
import Tach.Tails
import Tach.Divisions
import Tach.ShellQuotes
import Tach.ExecArguments
import Tach.VfsListings
import Tach.InodeReuse
import Tach.Mounts
import Tach.Procfs
import Tach.Initrd
import Tach.FreeCounts
import Tach.AllocFailures
import Tach.MountGeometry
import Tach.DirCursors
import Tach.Checksums
