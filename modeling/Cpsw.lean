import Cpsw.Rssi.Delivery
import Cpsw.Depack.FrameIDs
import Cpsw.Depack.Valid
import Cpsw.Depack.InOrder
import Cpsw.Depack.RoundTrip
import Cpsw.TDest.RoundTrip
import Cpsw.Async.ExactlyOnce
import Cpsw.Async.CallbackOnce
import Cpsw.Tcp.Framing
import Cpsw.ProtoMod.Builder
import Cpsw.Yaml.Find
import Cpsw.Path.RoundTrip
import Cpsw.Path.UniqueHandle
import Cpsw.BufHeap.InsertExact
import Cpsw.Sval.RoundTrip
import Cpsw.Rssi.SynData
import Cpsw.Rssi.Fifo
import Cpsw.Rssi.Deadline
import Cpsw.Rssi.Negotiate
import Cpsw.Config.Kept
import Cpsw.ByteMux.Robust
import Cpsw.ProtoMod.Sharing
import Cpsw.Path.Grammar
import Cpsw.Path.Intersect
import Cpsw.Path.Parse
import Cpsw.Path.Visits
import Cpsw.Path.VisitsOnce
import Cpsw.Sval.Broadcast
import Cpsw.Depack.Mtu
import Cpsw.TDest.Exact
import Cpsw.TDest.Codec
import Cpsw.Addr.Counts
import Cpsw.MemDev.Agree
import Cpsw.Hub.Atomic
import Cpsw.Buf.Bounds
import Cpsw.Rssi.TimerRuns
import Cpsw.Rssi.Verify
import Cpsw.Preproc.Version
import Cpsw.Preproc.Includes
import Cpsw.Config.SequenceLaw
import Cpsw.Rssi.Pending
import Cpsw.Rssi.Panic
import Cpsw.Srp.DynTimeout
import Cpsw.Tcp.Bounds
import Cpsw.Hub.PrioList
import Cpsw.Srp.Matching
import Cpsw.BufQ.Shutdown
import Cpsw.BufQ.Wakeup
import Cpsw.Srp.Wire
