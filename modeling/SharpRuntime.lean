import SharpRuntime.Analysis.BigIntegerRing
import SharpRuntime.Analysis.DateTimeCustomFormat
import SharpRuntime.Analysis.NumberStyles
import SharpRuntime.Analysis.Base64Validation
import SharpRuntime.Analysis.SequenceViews
import SharpRuntime.Analysis.Utf8IntegerText
import SharpRuntime.Analysis.UTF7Encoding
import SharpRuntime.Analysis.ChannelRendezvous
import SharpRuntime.Analysis.XxHashChunks
import SharpRuntime.Analysis.CrcUpdate
import SharpRuntime.Analysis.UmAlQuraDates
import SharpRuntime.Analysis.ConvertBase64
import SharpRuntime.Analysis.XsdDurationText
import SharpRuntime.Analysis.XmlNames
import SharpRuntime.Analysis.GuidText
import SharpRuntime.Analysis.CalendarMonths
import SharpRuntime.Analysis.WebSocketReassembly
import SharpRuntime.Analysis.AddressText
import SharpRuntime.Analysis.StreamBuffering
import SharpRuntime.Analysis.BinaryRoundTrip
import SharpRuntime.Analysis.LockExclusion
import SharpRuntime.Analysis.DomChildLists
import SharpRuntime.Analysis.CookieOrigin
import SharpRuntime.Analysis.ListHistories
import SharpRuntime.Analysis.ChunkFraming
import SharpRuntime.Analysis.DateTimeMonths
import SharpRuntime.Analysis.DateTimeParsing
import SharpRuntime.Analysis.ExactTimeSpans
import SharpRuntime.Analysis.DecimalText
import SharpRuntime.Analysis.BigIntegerText
import SharpRuntime.Analysis.BarrierPhases
import SharpRuntime.Analysis.JsonForest
import SharpRuntime.Analysis.DateTimeOffsetText
import SharpRuntime.Analysis.TimeSpanArithmetic
import SharpRuntime.Analysis.Base64InPlace
import SharpRuntime.Analysis.BitArrayShifts
import SharpRuntime.Analysis.BitSections
import SharpRuntime.Analysis.HalfConversions
import SharpRuntime.Analysis.Utf8Replacement
import SharpRuntime.Analysis.AdlerSums
import SharpRuntime.Analysis.PunycodeBounds
import SharpRuntime.Analysis.HebrewMonths
import SharpRuntime.Analysis.GregorianMonths
import SharpRuntime.Analysis.WeekRules
import SharpRuntime.Analysis.ConvertBase
import SharpRuntime.Analysis.MemoryStreams
import SharpRuntime.Analysis.WebSocketClosing
import SharpRuntime.Analysis.Networks
import SharpRuntime.Analysis.Paths
