import WebV8.Text.UTF8Convert
import WebV8.WTF.HashTableRun
import WebV8.Platform.PODIntervalTree
import WebV8.WTF.MetaAllocatorRun
import WebV8.Websockets.WebSocketMessages
import WebV8.Websockets.WebSocketSendRun
import WebV8.IPC.ArgumentCrash
import WebV8.Platform.DecimalInteger
import WebV8.Storage.StorageHolders
import WebV8.WTF.CheckedSound
import WebV8.JSC.MapDataOrder
import WebV8.JSC.MapDataIterators
import WebV8.UIProcess.WebBackForwardListRuns
import WebV8.Platform.PlatformTimeRanges
import WebV8.IPC.ConnectionRuns
import WebV8.Platform.SharedBufferRuns
import WebV8.Platform.BlobResourceHandleSeek
import WebV8.CSS.SelectorFilter
import WebV8.WTF.StringBuilderRuns
import WebV8.XML.XPathSort
import WebV8.WTF.Base64Decode
import WebV8.Graphics.RegionRects
import WebV8.IPC.ConnectionWaiting
import WebV8.WTF.CheckedConversions
import WebV8.WTF.MediaTimeScale
import WebV8.Websockets.WebSocketFrameCodec
import WebV8.UIProcess.WebBackForwardListState
import WebV8.HTML.BufferedLineReader
import WebV8.IndexedDB.IDBKeyPath
import WebV8.JSC.UnlinkedInstructionStream
