import Cpsw.ByteMux.Demux
import Cpsw.ProtoMod.Match
import Cpsw.Rssi.Context

namespace Cpsw.ProtoMod

open ByteMux (SRPProtoVersion)
open Rssi (CRssiConfigParams)

inductive TransportProto
  | NONE
  | UDP
  | TCP
  deriving DecidableEq, Repr

inductive SRPWriteMode
  | UNSP
  | POST
  | SYNC
  deriving DecidableEq, Repr

inductive WriteMode
  | POSTED
  | SYNCHRONOUS
  deriving DecidableEq, Repr

inductive DepackProtoVersion
  | V0
  | V2
  deriving DecidableEq, Repr

def DepackProtoVersion.toUnsigned : DepackProtoVersion → UInt32
  | V0 => DEPACKETIZER_V0
  | V2 => DEPACKETIZER_V2

/-- The value of the enumerator, converted to `unsigned`. -/
def srpUnsigned : SRPProtoVersion → UInt32
  | .SRP_UDP_NONE => 0xffffffff
  | .SRP_UDP_V1 => 1
  | .SRP_UDP_V2 => 2
  | .SRP_UDP_V3 => 3

def INADDR_NONE : UInt32 := 0xffffffff

def DFLT_THREAD_PRIORITY : ℤ := 0

def NO_THREAD_PRIORITY : ℤ := -1

/-- What the setters let through. -/
abbrev AtMost (n : UInt32) := {v : UInt32 // v ≤ n}

abbrev XprtPort := {v : UInt32 // v ≠ 0 ∧ v ≤ 65535}

/-- `CProtoStackBuilder`. A number that is negative until it is set is an option, or `Bool` with one;
the members that only the socket uses are left out. -/
structure CProtoStackBuilder where
  protocolVersion : SRPProtoVersion := .SRP_UDP_V2
  srpTimeoutUS : UInt64 := 0
  srpDynTimeout : Option Bool := none
  srpRetryCount : UInt32 := 0xffffffff
  srpDefaultWriteMode : SRPWriteMode := .UNSP
  xprt : TransportProto := .UDP
  xprtPort : XprtPort := ⟨8192, by decide⟩
  xprtOutQueueDepth : UInt32 := 0
  udpThreadPriority : ℤ := DFLT_THREAD_PRIORITY
  udpNumRxThreads : AtMost 100 := ⟨0, by decide⟩
  udpPollSecs : ℤ := -1
  tcpThreadPriority : ℤ := DFLT_THREAD_PRIORITY
  rssi : Bool := false
  rssiThreadPriority : ℤ := DFLT_THREAD_PRIORITY
  rssiConfig : CRssiConfigParams := {}
  depack : Option Bool := none
  depackProto : DepackProtoVersion := .V0
  depackOutQueueDepth : UInt32 := 0
  depackLdFrameWinSize : AtMost 10 := ⟨0, by decide⟩
  depackLdFragWinSize : AtMost 10 := ⟨0, by decide⟩
  depackThreadPriority : ℤ := DFLT_THREAD_PRIORITY
  srpMux : Option Bool := none
  srpMuxVirtualChannel : AtMost 127 := ⟨0, by decide⟩
  srpMuxOutQueueDepth : UInt32 := 0
  srpMuxThreadPriority : ℤ := DFLT_THREAD_PRIORITY
  tDestMux : Bool := false
  tDestMuxTDEST : AtMost 255 := ⟨0, by decide⟩
  tDestMuxStripHeader : Option Bool := none
  tDestMuxOutQueueDepth : UInt32 := 0
  tDestMuxInpQueueDepth : UInt32 := 0
  tDestMuxThreadPriority : ℤ := DFLT_THREAD_PRIORITY
  ipAddr : UInt32 := INADDR_NONE
  rssiBridgeIPAddr : UInt32 := INADDR_NONE

namespace CProtoStackBuilder

variable (b : CProtoStackBuilder)

def hasSRP : Bool := b.protocolVersion ≠ .SRP_UDP_NONE

def getSRPVersion : SRPProtoVersion := b.protocolVersion

def hasRssiBridge : Bool := b.rssiBridgeIPAddr ≠ INADDR_NONE

def getXprt : TransportProto := if b.hasRssiBridge then .TCP else b.xprt

def getUdpPort : UInt32 := if b.getXprt = .UDP then b.xprtPort.1 else 0

def getTcpPort : UInt32 := if b.getXprt = .TCP then b.xprtPort.1 else 0

def hasUdp : Bool := b.getUdpPort ≠ 0

def hasTcp : Bool := b.getTcpPort ≠ 0

def hasRssi : Bool := b.rssi

def hasRssiAndUdp : Bool := b.rssi && b.hasUdp

def hasTDestMux : Bool := b.tDestMux

def hasDepack : Bool := b.depack.getD b.hasTDestMux

def getDepackVersion : DepackProtoVersion := b.depackProto

def hasSRPMux : Bool := b.srpMux.getD b.hasSRP

def getSRPMuxVirtualChannel : UInt32 := b.srpMuxVirtualChannel.1

def getTDestMuxTDEST : UInt32 := b.tDestMuxTDEST.1

def getSRPTimeoutUS : UInt64 :=
  if b.srpTimeoutUS = 0 then
    if b.hasRssiAndUdp then 500000 else if b.getTcpPort > 0 then 4000000 else 10000
  else b.srpTimeoutUS

def getSRPDefaultWriteMode : WriteMode :=
  match b.srpDefaultWriteMode with
  | .UNSP => if b.hasRssi then .POSTED else .SYNCHRONOUS
  | .POST => .POSTED
  | .SYNC => .SYNCHRONOUS

def getSRPRetryCount : UInt32 :=
  if b.srpRetryCount = 0xffffffff then if b.hasRssiAndUdp || b.hasTcp then 0 else 10
  else b.srpRetryCount

def hasSRPDynTimeout : Bool :=
  if b.hasRssi || b.getTcpPort > 0 then false
  else b.srpDynTimeout.getD (!b.hasTDestMux && !b.hasRssiAndUdp)

def getUdpOutQueueDepth : UInt32 := if b.xprtOutQueueDepth = 0 then 10 else b.xprtOutQueueDepth

def getTcpOutQueueDepth : UInt32 := b.getUdpOutQueueDepth

def getUdpNumRxThreads : UInt32 := if b.udpNumRxThreads.1 = 0 then 1 else b.udpNumRxThreads.1

def getUdpPollSecs : ℤ :=
  if b.udpPollSecs < 0 && (!b.hasRssiAndUdp && (!b.hasSRP || b.hasTDestMux)) then 60
  else b.udpPollSecs

def getRssiThreadPriority : ℤ :=
  if b.hasRssiAndUdp then b.rssiThreadPriority else NO_THREAD_PRIORITY

def getDepackOutQueueDepth : UInt32 :=
  if b.depackOutQueueDepth = 0 then 50 else b.depackOutQueueDepth

def getDepackThreadPriority : ℤ :=
  if b.hasDepack then b.depackThreadPriority else NO_THREAD_PRIORITY

def getDepackLdFrameWinSize : UInt32 :=
  if b.depackLdFrameWinSize.1 = 0 then if b.hasRssiAndUdp then 1 else 5 else b.depackLdFrameWinSize.1

def getDepackLdFragWinSize : UInt32 :=
  if b.depackLdFragWinSize.1 = 0 then if b.hasRssiAndUdp then 1 else 5 else b.depackLdFragWinSize.1

def getSRPMuxOutQueueDepth : UInt32 :=
  if b.srpMuxOutQueueDepth = 0 then 50 else b.srpMuxOutQueueDepth

def getSRPMuxThreadPriority : ℤ :=
  if b.hasSRPMux then b.srpMuxThreadPriority else NO_THREAD_PRIORITY

def getTDestMuxStripHeader : Bool := b.tDestMuxStripHeader.getD b.hasSRP

def getTDestMuxOutQueueDepth : UInt32 :=
  if b.tDestMuxOutQueueDepth = 0 then 50 else b.tDestMuxOutQueueDepth

def getTDestMuxInpQueueDepth : UInt32 :=
  if b.tDestMuxInpQueueDepth = 0 then 50 else b.tDestMuxInpQueueDepth

def getTDestMuxThreadPriority : ℤ :=
  if b.hasTDestMux then b.tDestMuxThreadPriority else NO_THREAD_PRIORITY

end CProtoStackBuilder

end Cpsw.ProtoMod
