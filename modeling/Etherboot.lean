import Etherboot.Lib.Footprint
import Etherboot.Lib.OnesComplement
import Etherboot.Lib.Memory
import Etherboot.Lib.Transition
import Etherboot.Net.Checksum
import Etherboot.Net.AwaitReply
import Etherboot.Net.Confinement
import Etherboot.Net.IpOptions
import Etherboot.Net.BuildHeaders
import Etherboot.Osloader.Segment
import Etherboot.Osloader.ElfProbe
import Etherboot.Osloader.ElfSafety
import Etherboot.Osloader.LoadBlock
import Etherboot.Osloader.ElfDownload
import Etherboot.Osloader.ElfLoad
import Etherboot.Osloader.Tagged
import Etherboot.Osloader.TaggedSafety
import Etherboot.Osloader.TaggedLoad
import Etherboot.Tftp.Client
import Etherboot.Tftp.LocalPort
import Etherboot.Tftp.Oack
import Etherboot.Tftp.System
import Etherboot.Tftp.Integrity
import Etherboot.Tftp.Lossless
import Etherboot.Slam.Codec
import Etherboot.Alloc.Heap
import Etherboot.Alloc.BaseMemory
import Etherboot.Lib.Bitmap
import Etherboot.Lib.RunLength
import Etherboot.Slam.Client
import Etherboot.Slam.Nack
import Etherboot.Slam.Accounting
import Etherboot.Slam.Transfer
import Etherboot.Lib.Serial
import Etherboot.Lib.Strings
import Etherboot.Tcp.Client
import Etherboot.Tcp.Request
import Etherboot.Tcp.Segments
import Etherboot.Tcp.Delivery
import Etherboot.Http.Client
import Etherboot.Http.Completion
import Etherboot.Tftm.Options
import Etherboot.Tftm.OptionWalk
import Etherboot.Tftm.Client
import Etherboot.Tftm.Safety
import Etherboot.Tftm.Completion
import Etherboot.Tftm.Transfer
import Etherboot.Fsp.Client
import Etherboot.Fsp.Integrity
import Etherboot.Nfs.Client
import Etherboot.Nfs.Integrity
import Etherboot.Bootp.Decode
import Etherboot.Bootp.Safety
import Etherboot.Lib.Emit
import Etherboot.Nfs.Buffers
import Etherboot.Nfs.Links
import Etherboot.Dns.Answer
import Etherboot.Dns.Safety
import Etherboot.Dns.Query
import Etherboot.Dns.Rounds
import Etherboot.Boot.Loadkernel
import Etherboot.Boot.MainLoop
import Etherboot.Firmware.E820Mangler
import Etherboot.Pxe.Stack
import Etherboot.Pxe.Calls
import Etherboot.Pxe.TftpCalls
import Etherboot.Pxe.TftpReports
import Etherboot.Pxe.FileCalls
import Etherboot.Pxe.FileReports
import Etherboot.Lacp.Machine
import Etherboot.Lacp.Periodic
import Etherboot.Lib.Resume
import Etherboot.Pci.Scan
import Etherboot.Pci.Enumeration
import Etherboot.Pci.Probe
import Etherboot.Lib.Blocks
import Etherboot.Http.Body
import Etherboot.Http.Cuts
import Etherboot.Bootp.Options
import Etherboot.Bootp.Extension
import Etherboot.Alloc.InitHeap
import Etherboot.Boot.Relocate
import Etherboot.Osloader.FindSegment
import Etherboot.Osloader.ElfNotes
import Etherboot.Osloader.ElfChecksum
import Etherboot.Osloader.MultibootPeek
import Etherboot.Dns.Names
import Etherboot.Http.Addressing
import Etherboot.Tftp.Negotiation
import Etherboot.Bootp.Await
import Etherboot.Net.ArpTable
import Etherboot.Slam.Clients
import Etherboot.Slam.Daemon
import Etherboot.Slam.Reinit
import Etherboot.Tftm.Acknowledge
import Etherboot.Tftm.Announcements
import Etherboot.Disk.Search
import Etherboot.Disk.Cache
import Etherboot.Net.AddressText
import Etherboot.Firmware.Cmos
import Etherboot.Net.Random
import Etherboot.Firmware.MemorySizes
import Etherboot.Net.Igmp
