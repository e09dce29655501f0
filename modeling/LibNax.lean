import LibNax.Avl.Runs
import LibNax.Avl.Queries
import LibNax.Lib.Run
import LibNax.Evfs.Calls
import LibNax.Evfs.Transparent
import LibNax.Tcp.Framing
import LibNax.Tcp.Order
import LibNax.Tcp.Stall
import LibNax.Tcp.Safety
import LibNax.Object.Lifetime
import LibNax.Object.Unique
import LibNax.Cfifo
import LibNax.Udp.Transmit
import LibNax.Hash.Des
import LibNax.Hash.Md5Bounds
import LibNax.Hash.Crc32
import LibNax.Hash.Sha256
import LibNax.Proto.RoundTrip
import LibNax.Evfs.Resize
import LibNax.Evfs.WriteBack
import LibNax.Evfs.Conserve
import LibNax.Evfs.Index
import LibNax.Evfs.Keys
import LibNax.Evfs.Deletion
import LibNax.Evfs.Tasks
import LibNax.Evfs.Descriptors
import LibNax.Toolkit.Decrypt
import LibNax.Toolkit.Roundup
import LibNax.Toolkit.PriorityTask
import LibNax.Pipe
import LibNax.Links
import LibNax.Logger
import LibNax.Logger.Format
import LibNax.Refs
import LibNax.Evfs.Restart
import LibNax.Evfs.Orphans
import LibNax.Evfs.Recycle
import LibNax.Evfs.Durable
import LibNax.Evfs.Flush
import LibNax.Evfs.ShortWrite
import LibNax.Evfs.Growable
import LibNax.Evfs.Truncate
import LibNax.Naos.Endpoint
import LibNax.Naos.Cmdline
import LibNax.Rtlstr.Copies
import LibNax.Mesgq
import LibNax.Proto.Hostile
import LibNax.Proto.Reuse
import LibNax.Proto.Blob
import LibNax.Matrix2d.Product
import LibNax.Etcr.Says
import LibNax.Clist
import LibNax.Tcp.Delivery
import LibNax.Redis.Dict.Map
import LibNax.Redis.Dict.Scan
import LibNax.Redis.Dict.Iterator
import LibNax.Redis.Dict.Load
import LibNax.Redis.Rax.Seek
import LibNax.Pools
