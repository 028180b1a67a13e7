import Utlib.BackedBuffer.Bookkeeping
import Utlib.BackedBuffer.Refinement
import Utlib.BackedBuffer.Resizing
import Utlib.RingBuffer.Queue
import Utlib.BitView
import Utlib.Buffer.Codecs
import Utlib.BackedBuffer.Loading
import Utlib.RingBuffer.Sorted
import Utlib.Mailbox
import Utlib.Files.Header
import Utlib.Formatter
import Utlib.FileTree
import Utlib.Files.Directory
import Utlib.Files.Mirror
import Utlib.Files.MirrorOrder
import Utlib.Path
import Utlib.ZipArchive.Extract
import Utlib.ZipArchive.Replace
import Utlib.ZipArchive.Contained
import Utlib.Hashable
import Utlib.Sticky
import Utlib.Buffer.Managed
import Utlib.Buffer.Export
import Utlib.Compressible.Lz4
import Utlib.Rounding
import Utlib.SoftFloat.RoundPack
import Utlib.SoftFloat.ToI32
import Utlib.Float80.Basic
import Utlib.Float80.Scale
import Utlib.BigEndian
import Utlib.BitView.Stream
import Utlib.BitView.Forward
import Utlib.RingBuffer.Assign
import Utlib.SortedArray
import Utlib.Integral
import Utlib.Intervals
import Utlib.Range
import Utlib.Range.Coalesce
import Utlib.Range.Translate
import Utlib.Compressible.Gzip
import Utlib.Buffer.Editing
import Utlib.Buffer.Starved
import Utlib.Dumpable.Basic
import Utlib.Buffer.Checksums
import Utlib.Dumpable.Passes
import Utlib.Numeral
import Utlib.Dumpable.Lines
import Utlib.Dumpable.Columns
import Utlib.Dumpable.Decoding
import Utlib.Dumpable.Words
import Utlib.UUID
import Utlib.Buffer.Patch
import Utlib.Float80.Shift
import Utlib.Parser
import Utlib.Loop
import Utlib.Parser.ByteSequence
import Utlib.Reflectable
import Utlib.Files.UniquePath
import Utlib.Colors
import Utlib.Images
import Utlib.Streams
import Utlib.Transitions
import Utlib.Wakeable
import Utlib.Chrono.Clock
import Utlib.Strings.ByteCount
import Utlib.Strings.Split
import Utlib.Compressible.Expansion
import Utlib.CommonPrefix
import Utlib.Strings.CommonPrefix
import Utlib.Strings.Hex
import Utlib.Formatter.Columns
import Utlib.ByteView
import Utlib.Rounding.Ieee
import Utlib.SoftFloat.Wide
import Utlib.Float80.Datum
import Utlib.Float80.Multiply
import Utlib.Float80.Add
import Utlib.SoftFloat.Quotient
import Utlib.Float80.Divide
import Utlib.Float80.Remainder
import Utlib.Float80.Compare
import Utlib.Float80.Integers
import Utlib.Float80.RoundToInt
import Utlib.Synchronizable.Atomic
import Utlib.Backed
import Utlib.Ownership
import Utlib.ZipArchive.Handles
import Utlib.TempFile
import Utlib.Float80.Double
import Utlib.Float80.ToDouble
import Utlib.Dumpable.Endings
