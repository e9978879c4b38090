import Mos.Kern.Sched
import Mos.Kern.Rendezvous
import Mos.Kern.Reclaim
import Mos.Kern.EnvId
import Mos.Kern.Mappings
import Mos.Kern.Landing
import Mos.Kern.Translate
import Mos.Kern.VarMachine
import Mos.Kern.RoundRobin
import Mos.Kern.Resume
import Mos.Kern.UserMode
import Mos.Kern.Writable
import Mos.Kern.Authority
import Mos.User.Wait
import Mos.User.PipeFifo
import Mos.User.PipeEof
import Mos.User.Fsipc
import Mos.User.Dup
import Mos.User.Window
import Mos.User.StackArgs
import Mos.Elf.Segment
import Mos.Fs.SyncRun
import Mos.Fs.Pristine
import Mos.Fs.Leak
import Mos.Fs.Zeroed
import Mos.Fs.Descriptor
import Mos.Fs.Capability
import Mos.Sh.Input
import Mos.Sh.Stores
import Mos.Sh.LineEdit
import Mos.Sh.Backticks
import Mos.Sh.Redirect
import Mos.User.ChildClean
import Mos.Kern.UserText
import Mos.Kern.Print
import Mos.Fs.Ide
import Mos.Format.Boot
import Mos.User.BlockCopy
import Mos.Kern.Received
import Mos.User.CowEntry
import Mos.User.CowKernel
import Mos.Format.Survive
