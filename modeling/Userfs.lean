import Userfs.Library.Word
import Userfs.Library.Memory
import Userfs.Library.Program
import Userfs.Library.IntervalTree
import Userfs.Library.SampledMaximum
import Userfs.Library.Tiling
import Userfs.Global.Defs
import Userfs.Global.Path
import Userfs.Ds.BlockTree
import Userfs.Io.Storage
import Userfs.Filesystem.Log
import Userfs.Filesystem.LogSync
import Userfs.Filesystem.Store
import Userfs.Filesystem.InodeTable
import Userfs.Filesystem.Namespace
import Userfs.Filesystem.Links
import Userfs.Filesystem.Directory
import Userfs.Filesystem.Space
import Userfs.Filesystem.Parcels
import Userfs.Filesystem.Handout
import Userfs.Filesystem.Bmap
import Userfs.Filesystem.Radix
import Userfs.Filesystem.BmapFill
import Userfs.Filesystem.Write
import Userfs.Filesystem.FileWrite
import Userfs.Filesystem.LogTruth
import Userfs.Filesystem.Striping
import Userfs.Filesystem.AppendRun
import Userfs.Filesystem.FileSize
import Userfs.Filesystem.WriteSplit
import Userfs.Filesystem.WideWrite
import Userfs.Filesystem.WriteSteps
import Userfs.Filesystem.TwoWriters
import Userfs.Filesystem.References
import Userfs.Filesystem.Names
import Userfs.Filesystem.PathCache
import Userfs.Filesystem.Creation
import Userfs.Filesystem.Unlink
import Userfs.Filesystem.PathCalls
import Userfs.Filesystem.ReadCache
import Userfs.Library.Bitmap
import Userfs.Filesystem.ReadPath
import Userfs.Filesystem.ReadSplit
import Userfs.Filesystem.Pread
import Userfs.Filesystem.ReadBounds
import Userfs.Filesystem.Extents
import Userfs.Filesystem.Contents
import Userfs.Filesystem.PathSplit
import Userfs.Filesystem.PathWalk
import Userfs.Filesystem.DirectorySize
import Userfs.Filesystem.OverwriteCursor
import Userfs.Filesystem.Built
import Userfs.Filesystem.SmallOverwrite
import Userfs.Filesystem.Straddle
import Userfs.Filesystem.PartialBlock
import Userfs.Filesystem.Truncation
import Userfs.Filesystem.ShutdownRecord
import Userfs.Global.PathTokens
import Userfs.Library.Encoding
import Userfs.Filesystem.ExtentRecord
import Userfs.Io.PartialWrite
import Userfs.Library.LinkedRing
import Userfs.Library.RecentKeys
import Userfs.Filesystem.InodeLru
import Userfs.Library.RingBuffer
import Userfs.Threadpool.Pool
import Userfs.Filesystem.DirectoryBlock
import Userfs.Filesystem.Upsert
import Userfs.Ds.Rbtree
import Userfs.Ds.BlockMemory
import Userfs.Ds.RbErase
import Userfs.Ds.RbIterate
import Userfs.Ds.RbRun
import Userfs.Threadpool.Thpool
import Userfs.Filesystem.Fallocate
import Userfs.Filesystem.BmapTable
