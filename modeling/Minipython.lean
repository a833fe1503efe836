import Minipython.Lib.Accounts
import Minipython.Lib.BoundedMap
import Minipython.Lib.Bytes
import Minipython.Lib.Cursor
import Minipython.Lib.DList
import Minipython.Lib.Text
import Minipython.Lib.Extent
import Minipython.Lib.Fifo
import Minipython.Lib.Loops
import Minipython.Lib.Ledger
import Minipython.Lib.Machine
import Minipython.Lib.Mailbox
import Minipython.Lib.Pick
import Minipython.Lib.RoundUp
import Minipython.Lib.Word
import Minipython.Minios.Blkdev
import Minipython.Minios.BlkdevOpen
import Minipython.Minios.BlkdevRequests
import Minipython.Minios.ExecAlloc
import Minipython.Minios.Hexdump
import Minipython.Minios.HexdumpText
import Minipython.Minios.Lexer
import Minipython.Minios.Mempool
import Minipython.Minios.MempoolLayout
import Minipython.Minios.MempoolResize
import Minipython.Minios.PythonPath
import Minipython.Minios.Ring
import Minipython.Minios.RingTry
import Minipython.Mods.Datagram
import Minipython.Mods.DatagramLog
import Minipython.Mods.Ether
import Minipython.Mods.Getaddrinfo
import Minipython.Mods.Listener
import Minipython.Mods.SendAll
import Minipython.Mods.Socket
import Minipython.Mods.SocketState
import Minipython.Mods.SocketStream
import Minipython.Shfs.Aio
import Minipython.Shfs.AioAvail
import Minipython.Shfs.Cache
import Minipython.Shfs.CacheAdd
import Minipython.Shfs.CacheComplete
import Minipython.Shfs.CacheData
import Minipython.Shfs.CacheFlush
import Minipython.Shfs.CacheInv
import Minipython.Shfs.CacheLists
import Minipython.Shfs.CacheLog
import Minipython.Shfs.CacheMux
import Minipython.Shfs.CacheOwner
import Minipython.Shfs.CacheRead
import Minipython.Shfs.CacheRefs
import Minipython.Shfs.CacheStep
import Minipython.Shfs.CacheTokens
import Minipython.Shfs.CacheValid
import Minipython.Shfs.Defs
import Minipython.Shfs.Fio
import Minipython.Shfs.FioRead
import Minipython.Shfs.Hash
import Minipython.Shfs.HashString
import Minipython.Shfs.HashVersions
import Minipython.Shfs.HashWords
import Minipython.Shfs.Htable
import Minipython.Shfs.HtableBucket
import Minipython.Shfs.HtableCalls
import Minipython.Shfs.HtableList
import Minipython.Shfs.HtableLoad
import Minipython.Shfs.HtableMap
import Minipython.Shfs.HtablePick
import Minipython.Shfs.IoChunk
import Minipython.Shfs.MemberSize
import Minipython.Shfs.Mount
import Minipython.Shfs.MountAtomic
import Minipython.Shfs.MountLabel
import Minipython.Shfs.OpenCount
import Minipython.Shfs.OpenStable
import Minipython.Shfs.Remount
import Minipython.Shfs.RemountRange
import Minipython.Shfs.RemountRefine
import Minipython.Shfs.ShellRead
import Minipython.Shfs.Stats
import Minipython.Shfs.StatsBooks
import Minipython.Shfs.StatsDev
import Minipython.Shfs.StatsDump
import Minipython.Shfs.StatsExport
import Minipython.Shfs.StatsKept
import Minipython.Shfs.StatsStep
import Minipython.Shfs.Stripe
import Minipython.Shfs.System
import Minipython.Shfs.SystemInv
import Minipython.Shfs.TableInv
import Minipython.Shfs.Volume
import Minipython.Tools.Admin
import Minipython.Tools.AlistLinks
import Minipython.Tools.AlistRuns
import Minipython.Tools.Alloc
import Minipython.Tools.Cat
import Minipython.Tools.Cconf
import Minipython.Tools.Coherence
import Minipython.Tools.Containers
import Minipython.Tools.Default
import Minipython.Tools.Disk
import Minipython.Tools.Effect
import Minipython.Tools.EndToEnd
import Minipython.Tools.Entry
import Minipython.Tools.Erase
import Minipython.Tools.FileHash
import Minipython.Tools.Filling
import Minipython.Tools.FirstFit
import Minipython.Tools.Format
import Minipython.Tools.Guard
import Minipython.Tools.Hconf
import Minipython.Tools.HostName
import Minipython.Tools.Interrupt
import Minipython.Tools.LinkTarget
import Minipython.Tools.Mkfs
import Minipython.Tools.MkfsArgs
import Minipython.Tools.Mkwebfs
import Minipython.Tools.Mounting
import Minipython.Tools.Names
import Minipython.Tools.Objects
import Minipython.Tools.Sessions
import Minipython.Tools.Storage
import Minipython.Tools.Table
import Minipython.Tools.Umount
import Minipython.Tools.Undo
