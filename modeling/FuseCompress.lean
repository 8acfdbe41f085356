import FuseCompress.File
import FuseCompress.Structs
import FuseCompress.Lib.Transition
import FuseCompress.Dedup
import FuseCompress.Compress
import FuseCompress.DirectCompress
import FuseCompress.Requests
import FuseCompress.Attributes
import FuseCompress.Interleaving
import FuseCompress.Lemmas.Frames
import FuseCompress.Lemmas.Sections
import FuseCompress.Bookkeeping
import FuseCompress.Lemmas.Accounting
import FuseCompress.Theorems.Accounting
import FuseCompress.Lemmas.Database
import FuseCompress.Lemmas.EntryLocks
import FuseCompress.Theorems.Database
import FuseCompress.Lemmas.Windows
import FuseCompress.Theorems.Status
import FuseCompress.Effects
import FuseCompress.Lemmas.Effects
import FuseCompress.Minilzo
import FuseCompress.Theorems.Minilzo
import FuseCompress.DedupFile
import FuseCompress.Lemmas.Tables
import FuseCompress.Theorems.DedupFile
import FuseCompress.TableRuns
import FuseCompress.Theorems.Tables
import FuseCompress.Theorems.Overlay
import FuseCompress.Reading
import FuseCompress.Lemmas.Reading
import FuseCompress.Theorems.Caching
import FuseCompress.Theorems.HashFile
import FuseCompress.Unmount
import FuseCompress.Lemmas.Unmount
import FuseCompress.Theorems.Unmount
import FuseCompress.Metadata
import FuseCompress.Lemmas.Metadata
import FuseCompress.Theorems.Metadata
import FuseCompress.Lemmas.Isolation
import FuseCompress.Lemmas.Background
import FuseCompress.Theorems.Compression
import FuseCompress.Theorems.Decompression
import FuseCompress.Fsck
import FuseCompress.Theorems.Fsck
import FuseCompress.Modules
import FuseCompress.Theorems.Modules
import FuseCompress.Theorems.CompleteCopy
import FuseCompress.Offline
import FuseCompress.Theorems.Offline
import FuseCompress.FailingReads
import FuseCompress.Theorems.FailingReads
import FuseCompress.FailingWrites
import FuseCompress.Theorems.FailingWrites
import FuseCompress.ReadOnly
import FuseCompress.Theorems.ReadOnly
import FuseCompress.HardLinks
import FuseCompress.Theorems.HardLinks
import FuseCompress.Theorems.Header
import FuseCompress.Locks
import FuseCompress.Theorems.Locks
import FuseCompress.Theorems.Undedup
import FuseCompress.Theorems.DedupRename
import FuseCompress.Theorems.Representation
import FuseCompress.HardlinkFile
import FuseCompress.Theorems.HardlinkFile
import FuseCompress.Rebuild
import FuseCompress.Theorems.Rebuild
import FuseCompress.Theorems.OfflineDedup
import FuseCompress.Theorems.CopyOnWrite
import FuseCompress.Theorems.Truncation
import FuseCompress.MinilzoBuffers
import FuseCompress.Theorems.FreeSpace
import FuseCompress.Theorems.MinilzoBuffers
import FuseCompress.ReadBuffers
import FuseCompress.Theorems.ReadBuffers
import FuseCompress.CacheBudget
import FuseCompress.Theorems.CacheBudget
import FuseCompress.Theorems.Maxcompress
import FuseCompress.Handles
import FuseCompress.Theorems.Handles
import FuseCompress.Lib.PlainFs
import FuseCompress.Serial
import FuseCompress.Lemmas.Apart
import FuseCompress.Lemmas.Standing
import FuseCompress.Lemmas.Tidy
import FuseCompress.Lemmas.Mirrors
import FuseCompress.Lemmas.Operations
import FuseCompress.Lemmas.Remounts
import FuseCompress.Theorems.Serial
import FuseCompress.Lemmas.Assertions
import FuseCompress.Theorems.Assertions
import FuseCompress.Lemmas.Progress
import FuseCompress.Theorems.Progress
import FuseCompress.Lib.LockOrder
import FuseCompress.Theorems.LockOrder
import FuseCompress.LinkedList
import FuseCompress.Theorems.LinkedList
import FuseCompress.ListCalls
import FuseCompress.Theorems.ListCalls
import FuseCompress.LzmaStream
import FuseCompress.Theorems.LzmaStream
