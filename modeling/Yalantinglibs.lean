import Yalantinglibs.Data.PathSearch
import Yalantinglibs.StructPack.Type
import Yalantinglibs.StructPack.Layout
import Yalantinglibs.StructPack.Value
import Yalantinglibs.StructPack.Md5
import Yalantinglibs.StructPack.Varint
import Yalantinglibs.StructPack.CalculateSize
import Yalantinglibs.StructPack.CompatibleMembers
import Yalantinglibs.StructPack.SizeExact
import Yalantinglibs.StructPack.MessageSize
import Yalantinglibs.Data.Decoding
import Yalantinglibs.StructPack.Unpacker
import Yalantinglibs.StructPack.HeaderAgreement
import Yalantinglibs.StructPack.Parts
import Yalantinglibs.StructPack.Destination
import Yalantinglibs.StructPack.ReadClass
import Yalantinglibs.StructPack.ReadContainers
import Yalantinglibs.StructPack.RoundTrip
import Yalantinglibs.Data.ByteSearch
import Yalantinglibs.Data.EscapedText
import Yalantinglibs.Data.Ascii
import Yalantinglibs.Iguana.Utf
import Yalantinglibs.Iguana.Scan
import Yalantinglibs.Iguana.JsonUtil
import Yalantinglibs.Iguana.JsonString
import Yalantinglibs.Iguana.XmlUtil
import Yalantinglibs.Iguana.XmlText
import Yalantinglibs.Iguana.XmlRoundTrip
import Yalantinglibs.CoroRpc.Protocol
import Yalantinglibs.CoroRpc.Framing
import Yalantinglibs.Data.TransitionSystem
import Yalantinglibs.CoroRpc.Server
import Yalantinglibs.CoroRpc.ServerInvariant
import Yalantinglibs.CoroRpc.ServerAnswers
import Yalantinglibs.CoroRpc.KeepAlive
import Yalantinglibs.CoroRpc.Client
import Yalantinglibs.CoroRpc.ClientLoops
import Yalantinglibs.CoroRpc.ClientMatching
import Yalantinglibs.CoroRpc.ClientResults
import Yalantinglibs.CoroRpc.Reconnect
import Yalantinglibs.Iguana.PbType
import Yalantinglibs.Iguana.PbReader
import Yalantinglibs.Iguana.PbSafety
import Yalantinglibs.Iguana.PbWriter
import Yalantinglibs.Iguana.PbPayload
import Yalantinglibs.Iguana.PbAgreement
import Yalantinglibs.Iguana.PbRoundTrip
import Yalantinglibs.Iguana.PbSizes
import Yalantinglibs.Data.SegmentedStream
import Yalantinglibs.Cinatra.Websocket
import Yalantinglibs.Cinatra.FrameCodec
import Yalantinglibs.Cinatra.WebsocketRead
import Yalantinglibs.Cinatra.Chunked
import Yalantinglibs.Data.BinarySearch
import Yalantinglibs.Cinatra.RadixTree
import Yalantinglibs.Cinatra.RadixRoutes
import Yalantinglibs.Cinatra.RadixInsert
import Yalantinglibs.Cinatra.RadixRouter
import Yalantinglibs.CoroRpc.ServerStop
import Yalantinglibs.CoroRpc.ServerStopInvariant
import Yalantinglibs.Data.PrefixReader
import Yalantinglibs.Data.BlockScan
import Yalantinglibs.Cinatra.PicoHttpParser
import Yalantinglibs.Cinatra.HttpParser
import Yalantinglibs.Cinatra.CoroHttpRequest
import Yalantinglibs.Cinatra.CoroHttpResponse
import Yalantinglibs.Cinatra.CoroHttpConnection
import Yalantinglibs.Cinatra.HttpExchange
import Yalantinglibs.Cinatra.HttpHistory
import Yalantinglibs.Util.MapSharded
import Yalantinglibs.EasyLog.Appender
import Yalantinglibs.Metric.DynamicHistogram
import Yalantinglibs.CoroIo.UrmaWriter
import Yalantinglibs.CoroIo.UrmaReader
import Yalantinglibs.CoroIo.UrmaStream
import Yalantinglibs.CoroIo.UrmaClose
import Yalantinglibs.Data.BinaryFloat
import Yalantinglibs.Metric.SummaryCode
import Yalantinglibs.Metric.Summary
import Yalantinglibs.Metric.SummaryQuantiles
import Yalantinglibs.Cinatra.Uri
import Yalantinglibs.Cinatra.RequestHeader
import Yalantinglibs.Cinatra.HttpProxy
import Yalantinglibs.Data.VarintGroups
import Yalantinglibs.StructPack.VarintCodec
import Yalantinglibs.Iguana.PbVarint
import Yalantinglibs.StructPack.FastVarintBlock
import Yalantinglibs.StructPack.Padding
import Yalantinglibs.Data.StepLoop
import Yalantinglibs.StructPack.StreamReader
import Yalantinglibs.Iguana.PbFields
import Yalantinglibs.Data.Numbering
import Yalantinglibs.CoroIo.IbvBufferPool
import Yalantinglibs.Cinatra.Sha1
import Yalantinglibs.CoroIo.IbvClose
import Yalantinglibs.CoroIo.NdIo
import Yalantinglibs.CoroIo.NdStream
import Yalantinglibs.CoroIo.UrmaPool
import Yalantinglibs.CoroIo.UrmaOwnership
import Yalantinglibs.Data.ParallelDecoding
import Yalantinglibs.StructPack.WaryReader
import Yalantinglibs.StructPack.SkipMode
import Yalantinglibs.Data.TextCursor
import Yalantinglibs.Iguana.YamlUtil
import Yalantinglibs.Iguana.XmlRange
import Yalantinglibs.Iguana.JsonView
import Yalantinglibs.Iguana.XmlEscape
import Yalantinglibs.Iguana.YamlString
import Yalantinglibs.Data.SpacedTokens
import Yalantinglibs.Iguana.JsonText
import Yalantinglibs.Iguana.Prettify
import Yalantinglibs.Iguana.JsonNumeric
import Yalantinglibs.Iguana.JsonDom
import Yalantinglibs.Cinatra.ValidUtf8
import Yalantinglibs.Data.AtomicRegister
import Yalantinglibs.Data.Sha1
import Yalantinglibs.Data.Base64
import Yalantinglibs.Cinatra.Base64
import Yalantinglibs.Cinatra.UrlEncode
import Yalantinglibs.Cinatra.ParseRanges
import Yalantinglibs.Cinatra.RangeResponse
import Yalantinglibs.Cinatra.ResponseText
import Yalantinglibs.Cinatra.FindcharFast
import Yalantinglibs.Cinatra.UriScan
import Yalantinglibs.Cinatra.UriParts
import Yalantinglibs.Data.DrawLoop
import Yalantinglibs.Data.LevelRounds
import Yalantinglibs.CoroIo.LoadBalancer
import Yalantinglibs.CoroIo.LoadBalancerFailover
import Yalantinglibs.Data.NearestSearch
import Yalantinglibs.Metric.SummaryIncrease
import Yalantinglibs.Data.TwoSlotWindow
import Yalantinglibs.Metric.SummaryWindow
import Yalantinglibs.Metric.MetricFilter
import Yalantinglibs.Metric.LabelRemoval
import Yalantinglibs.Data.SlotLog
import Yalantinglibs.EasyLog.LogRotation
import Yalantinglibs.Data.ExpositionText
import Yalantinglibs.Metric.NumberText
import Yalantinglibs.Metric.MetricText
import Yalantinglibs.Metric.Exposition
import Yalantinglibs.Metric.ExpositionFaithful
import Yalantinglibs.Metric.HistogramText
import Yalantinglibs.Metric.HistogramSeries
import Yalantinglibs.Data.BoundedQueue
import Yalantinglibs.CoroIo.CircleBuffer
import Yalantinglibs.Iguana.ScanInPlace
import Yalantinglibs.Data.ExchangeSort
import Yalantinglibs.StructPack.DerivedHelper
import Yalantinglibs.CoroIo.ClientQueue
import Yalantinglibs.Metric.ThreadLocalValue
import Yalantinglibs.CoroIo.AliveDetect
import Yalantinglibs.Data.TokenBucket
import Yalantinglibs.CoroIo.RateLimiter
import Yalantinglibs.Data.Calendar
import Yalantinglibs.Util.TimeText
import Yalantinglibs.Util.Timestamp
import Yalantinglibs.Util.TimestampText
import Yalantinglibs.Util.AtomicSharedPtr
import Yalantinglibs.Util.AtomicSharedPtrCalls
import Yalantinglibs.Util.HttpDate
import Yalantinglibs.Data.LastValue
import Yalantinglibs.Util.TimeCache
