import PaghOS.Terminal.Safety
import PaghOS.Pkg.Confinement
import PaghOS.Mm.Separation
import PaghOS.Mm.FrameLaw
import PaghOS.Tls.Chain
import PaghOS.Sched.Conservation
import PaghOS.Sched.Spaces
import PaghOS.Signal.Mask
import PaghOS.Signal.Placement
import PaghOS.Signal.ExecReset
import PaghOS.Mm.Protect
import PaghOS.Mm.MmapFailure
import PaghOS.Ext2.FormatImage
import PaghOS.Pkg.InstallModel
import PaghOS.Apt.SignatureSet
import PaghOS.Apt.IndexRoutes
import PaghOS.Apt.TrustChain
import PaghOS.Tcp.Resets
import PaghOS.Tcp.SendWindow
import PaghOS.Net.NeighbourQueue
import PaghOS.Net.Reassembly6
import PaghOS.Ext2.DirBlocks
import PaghOS.Net.Literals
import PaghOS.Net.DnsReply
import PaghOS.Vfs.LinkReference
import PaghOS.Ext2.FormatPolicy
import PaghOS.Tcp.OooFront
import PaghOS.Tcp.Scoreboard
import PaghOS.Mm.CowCounts
import PaghOS.Mm.FramePairs
import PaghOS.Mm.HeapPages
import PaghOS.Net.Codec
import PaghOS.Pkg.TarExtensions
import PaghOS.Net.Dhcp
import PaghOS.Pkg.EntryPath
import PaghOS.Apt.ReleaseDate
import PaghOS.Sched.Credentials
import PaghOS.Fd.Pipe
