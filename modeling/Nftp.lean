import Nftp.Basic
import Nftp.Codec
import Nftp.Hash
import Nftp.CodecTrip
import Nftp.File
import Nftp.Vec
import Nftp.Proto
import Nftp.Bounds
import Nftp.Lib.Missing
import Nftp.Lib.Run
import Nftp.Registry
import Nftp.Handler
import Nftp.Paths
import Nftp.Invariant
import Nftp.Table
import Nftp.Publish
import Nftp.Names
import Nftp.Hello
import Nftp.Delivery
import Nftp.Ending
import Nftp.Lib.Chunks
import Nftp.Sender
import Nftp.Repair
import Nftp.Inside
import Nftp.Admission
import Nftp.Fileid
import Nftp.Lib.Crc
import Nftp.Partition
import Nftp.Checksum
import Nftp.Failure
import Nftp.Corrupt
import Nftp.Records
import Nftp.Faults
import Nftp.Residue
import Nftp.Stop
import Nftp.Deque
import Nftp.Flatten
import Nftp.Retry
import Nftp.Naming
import Nftp.Maker
import Nftp.Giveme
import Nftp.Fits
import Nftp.Tally
import Nftp.Resume
import Nftp.Cache
import Nftp.Slots
import Nftp.Insert
import Nftp.Iter
import Nftp.Readback
import Nftp.Lookup
import Nftp.Frame
import Nftp.Hashtable
import Nftp.Lifecycle
import Nftp.Tables
import Nftp.Teardown
import Nftp.Lib.Channel
import Nftp.Network
import Nftp.Isolation
import Nftp.Ledger
import Nftp.Returns
import Nftp.Digests
import Nftp.Growth
import Nftp.Halves
