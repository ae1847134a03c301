import CodePort.StepSystem
import CodePort.StreamFlat
import CodePort.StreamBuf
import CodePort.Octets
import CodePort.Buffer
import CodePort.Variant
import CodePort.Datum
import CodePort.NativeEncode
import CodePort.NativeRoundTrip
import CodePort.IpcSegment
import CodePort.StableInsert
import CodePort.IpcStreamSeg
import CodePort.IpcFragment
import CodePort.IpcAccum
import CodePort.IpcReassembly
import CodePort.IpcAccumMap
import CodePort.IpcTransmitQueue
import CodePort.IpcStrmTransport
import CodePort.IpcNode
import CodePort.MapContents
import CodePort.RecvOwnership
import CodePort.ItcQueue
import CodePort.DatumOps
import CodePort.IpcReply
import CodePort.Crc32
import CodePort.InertValue
import CodePort.NativeChecksum
import CodePort.LinkedQueue
import CodePort.MemMgr
import CodePort.MemMgrRun
import CodePort.Dispatch
import CodePort.DispatchDelete
import CodePort.DispatchDrain
import CodePort.TextUtil
import CodePort.SerDesIdl
import CodePort.IdlEncode
import CodePort.IdlDecode
import CodePort.IdlRoundTrip
import CodePort.SerDesFactory
import CodePort.AutoDetect
import CodePort.NativeElements
import CodePort.NativeHistory
import CodePort.NativeResult
import CodePort.NativeFailed
import CodePort.NativeOutcome
import CodePort.MemMgrReturn
import CodePort.IpcRouter
import CodePort.IpcResolver
import CodePort.IpcResponse
import CodePort.IpcDecoder
import CodePort.IpcStrmRecv
import CodePort.DatumCursor
import CodePort.DatumTraverse
import CodePort.Crc32Burst
import CodePort.VariantConvert
import CodePort.MemMgrFail
import CodePort.StreamFail
import CodePort.IdlTotal
import CodePort.KeyedList
import CodePort.DatumMap
import CodePort.Timer
import CodePort.BufferLines
import CodePort.Replacement
import CodePort.ReplaceSubString
import CodePort.Tokenize
import CodePort.NormalizePath
import CodePort.StreamPlaced
import CodePort.StreamPeek
import CodePort.StreamSeek
import CodePort.SerDesXml
import CodePort.EncodeAppends
import CodePort.BufferStream
import CodePort.HexIo
import CodePort.HexLines
import CodePort.IoDevLoop
import CodePort.Queue
import CodePort.Thread
import CodePort.IpcAccumFaults
import CodePort.EncodeMaintains
import CodePort.IpcSend
import CodePort.SegmentFull
import CodePort.TransportDevices
import CodePort.XmlHistory
import CodePort.PoolExact
import CodePort.IpcAccumList
import CodePort.SegmentFields
import CodePort.HouseKeeping
import CodePort.SplitAfter
import CodePort.ReadLines
import CodePort.HeldBlocks
import CodePort.BufferBlocks
import CodePort.KeyedQueues
import CodePort.SerDesPools
import CodePort.MessageView
import CodePort.IpcSendCall
import CodePort.IpcDelivery
import CodePort.IpcStrmDevice
import CodePort.IpcAccumQueue
import CodePort.IpcSending
import CodePort.IpcLink
import CodePort.StreamAlike
import CodePort.NamedDecode
import CodePort.IpcMessage
import CodePort.IpcArrival
import CodePort.IpcPacket
import CodePort.IpcTransaction
import CodePort.MsgQueues
import CodePort.IpcRouting
import CodePort.IpcNetwork
import CodePort.NetworkHops
import CodePort.NetworkDelivery
import CodePort.Monitor
import CodePort.SemCalls
import CodePort.SemRefines
import CodePort.SemWakes
import CodePort.SemDestroy
import CodePort.Crc16
