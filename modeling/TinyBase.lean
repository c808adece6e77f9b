import TinyBase.Arena
import TinyBase.AsciiText
import TinyBase.BufferRuns
import TinyBase.BufferSearchSimd
import TinyBase.ByteSearchSimd
import TinyBase.CStrings
import TinyBase.CharByChar
import TinyBase.Classify
import TinyBase.Compare
import TinyBase.Encoding
import TinyBase.EncodingSpec
import TinyBase.FileRuns
import TinyBase.FileStore
import TinyBase.Files
import TinyBase.FilesAsync
import TinyBase.FilesEqual
import TinyBase.FloatRoundTrip
import TinyBase.FloatScale
import TinyBase.FloatText
import TinyBase.FloatWhole
import TinyBase.Floats
import TinyBase.FreeListEmpty
import TinyBase.FreeListFifo
import TinyBase.HexText
import TinyBase.HiddenFile
import TinyBase.IterDir
import TinyBase.Lib.Bits
import TinyBase.Lib.Calls
import TinyBase.Lib.Decimal
import TinyBase.Lib.DirTree
import TinyBase.Lib.Hits
import TinyBase.Lib.Least
import TinyBase.Lib.LexicalPath
import TinyBase.Lib.LinkedQueue
import TinyBase.Lib.Overwrite
import TinyBase.Lib.Points
import TinyBase.Lib.PrefixCode
import TinyBase.Lib.RingWindow
import TinyBase.Lib.Run
import TinyBase.Lib.Shared
import TinyBase.Lib.Simulation
import TinyBase.Lib.Unicode
import TinyBase.Lib.Wp
import TinyBase.Lib.Yields
import TinyBase.MakeDir
import TinyBase.MalformedUtf8
import TinyBase.Mem
import TinyBase.Memory
import TinyBase.MoveFile
import TinyBase.MpmcRingBuffer
import TinyBase.MpscFreeList
import TinyBase.NumberRoundTrip
import TinyBase.Numbers
import TinyBase.OverRead
import TinyBase.Parse
import TinyBase.PathAncestor
import TinyBase.PathAppend
import TinyBase.PathBounds
import TinyBase.PathJoin
import TinyBase.PathResolve
import TinyBase.Paths
import TinyBase.PrintLen
import TinyBase.Query
import TinyBase.Queues
import TinyBase.ReadOnlyRuns
import TinyBase.RemoveDir
import TinyBase.RepeatedAppend
import TinyBase.Replace
import TinyBase.RingFifo
import TinyBase.RingSides
import TinyBase.RingSize
import TinyBase.Search
import TinyBase.Simd
import TinyBase.StringCursor
import TinyBase.StringLen
import TinyBase.StringRuns
import TinyBase.StringSpec
import TinyBase.Strings
import TinyBase.TextPool
import TinyBase.ToAscii
import TinyBase.Transcode
import TinyBase.Types
import TinyBase.Utf8Search
import TinyBase.Walk
import TinyBase.WideSearch
import TinyBase.Win32Append
import TinyBase.Win32Files
import TinyBase.Win32MoveUp
import TinyBase.Win32Paths
import TinyBase.Win32RemoveDir
