import Cpsw.ProtoMod.StackBuilder

namespace Cpsw.ProtoMod

open ByteMux (SRPProtoVersion)
open Rssi (CRssiConfigParams)
open ParamName

deriving instance DecidableEq, Repr for CRssiConfigParams

/-- A port, with what it and its module are created with. A TCP module that goes via a bridge has the
bridge look up the port, with or without RSSI. -/
inductive PortImpl
  | udp (destPort depth : UInt32) (threadPriority : ℤ) (numRxThreads : UInt32) (pollSecs : ℤ)
  | tcp (destPort depth : UInt32) (threadPriority : ℤ) (bridge : Option Bool)
  | rssi (threadPriority : ℤ) (config : CRssiConfigParams)
  | depack (depth frameWinSize fragWinSize : UInt32) (threadPriority : ℤ)
  | tdest (threadPriority : ℤ) (dest : UInt32) (stripHeader : Bool) (depth : UInt32)
  | tdest2 (threadPriority : ℤ) (dest : UInt32) (stripHeader : Bool) (depth inpDepth : UInt32)
  | srp (version : SRPProtoVersion) (threadPriority : ℤ) (dest depth : UInt32)
  deriving DecidableEq, Repr

def PortImpl.port : PortImpl → Port
  | udp destPort .. => .udp destPort
  | tcp destPort .. => .tcp destPort
  | rssi .. => .rssi
  | depack .. => .depack
  | tdest _ dest .. => .tdest dest
  | tdest2 _ dest .. => .tdest2 dest
  | srp version _ dest _ => .srp (srpUnsigned version) dest

/-- A multiplexer, which many ports may belong to. -/
inductive MuxKind
  | tdest (threadPriority : ℤ)
  | tdest2 (threadPriority : ℤ)
  | srp (version : SRPProtoVersion) (threadPriority : ℤ)
  deriving DecidableEq, Repr

def PortImpl.muxKind : PortImpl → Option MuxKind
  | tdest threadPriority .. => some (.tdest threadPriority)
  | tdest2 threadPriority .. => some (.tdest2 threadPriority)
  | srp version threadPriority .. => some (.srp version threadPriority)
  | _ => none

def PortImpl.getDest : PortImpl → Option UInt32
  | tdest _ dest .. => some dest
  | tdest2 _ dest .. => some dest
  | srp _ _ dest _ => some dest
  | _ => none

structure Link where
  mod : ℕ
  impl : PortImpl
  deriving DecidableEq, Repr

/-- A port and those upstream of it, each with the module that it belongs to. -/
abbrev ProtoPort := List Link

def ProtoPort.ports (p : ProtoPort) : List Port := p.map fun l ↦ l.impl.port

structure Mux where
  mod : ℕ
  kind : MuxKind
  up : ProtoPort
  deriving DecidableEq, Repr

inductive CPSWError
  | ConfigurationError (text : String)
  | InternalError (text : String)
  | InvalidArgError (text : String)
  | NotFoundError (text : String)
  | IOError (text : String)
  /-- No exception: a null pointer is followed. -/
  | nullPointer
  deriving DecidableEq, Repr

namespace MatchParam

def setExclude (m : MatchParam) : MatchParam := { m with doMatch := true, exclude := true }

def setInclude (m : MatchParam) : MatchParam := { m with doMatch := true, exclude := false }

def wildcard (m : MatchParam) : MatchParam := { m with any := true }.setInclude

/-- `operator=` -/
def assign (val : UInt32) (m : MatchParam) : MatchParam :=
  { { m with val := val }.setInclude with any := false }

end MatchParam

def ProtoPortMatchParams.modify (n : ParamName) (f : MatchParam → MatchParam)
    (cmp : ProtoPortMatchParams) : ProtoPortMatchParams :=
  Function.update cmp n (f (cmp n))

/-- The first of the ports that `findProtoPort` finds. -/
def findIn (cmp : ProtoPortMatchParams) (existingPorts : List ProtoPort) :
    Option ProtoPort × ProtoPortMatchParams :=
  let (found, cmp) := findProtoPort cmp (existingPorts.map ProtoPort.ports)
  (found.bind fun s ↦ existingPorts.find? fun p ↦ p.ports = s, cmp)

/-- The multiplexer that handled a parameter, when the port that was found is `p`. -/
def handler (m : MatchParam) (p : ProtoPort) : Option Mux :=
  match p.dropWhile fun l ↦ some l.impl.port ≠ m.handledBy with
  | [] => none
  | l :: up => l.impl.muxKind.map fun kind ↦ ⟨l.mod, kind, up⟩

/-- `addPort`: the multiplexer has weak pointers to its ports, which live as long as one of the
existing ports is downstream of them. -/
def Mux.addPort (m : Mux) (existingPorts : List ProtoPort) (dest : UInt32) (impl : PortImpl) :
    Except CPSWError ProtoPort :=
  if dest > 255 then throw (.InvalidArgError "Virtual channel number out of range")
  else if existingPorts.any fun p ↦ p.any fun l ↦ l.mod = m.mod ∧ l.impl.getDest = some dest then
    throw (.ConfigurationError "Virtual channel already in use")
  else return ⟨m.mod, impl⟩ :: m.up

namespace CProtoStackBuilder

variable (b : CProtoStackBuilder)

/-- The transport, which the first search is for. -/
def xprtParams : ProtoPortMatchParams :=
  let cmp : ProtoPortMatchParams := fun _ ↦ {}
  if b.hasUdp then cmp.modify udpDestPort (·.assign b.getUdpPort)
  else cmp.modify tcpDestPort (·.assign b.getTcpPort)

/-- The second search is for the whole configuration up to the TDEST. -/
def stackParams (cmp : ProtoPortMatchParams) : ProtoPortMatchParams :=
  let cmp :=
    if b.hasRssiAndUdp then cmp.modify haveRssi (·.setInclude) else cmp.modify haveRssi (·.setExclude)
  let cmp :=
    if b.hasDepack then
      (cmp.modify haveDepack (·.setInclude)).modify depackVersion (·.assign b.getDepackVersion.toUnsigned)
    else cmp.modify haveDepack (·.setExclude)
  if b.hasTDestMux then
    (cmp.modify tDest (·.assign b.getTDestMuxTDEST)).modify depackVersion
      (·.assign b.getDepackVersion.toUnsigned)
  else cmp.modify tDest (·.setExclude)

/-- What is there to build on. -/
inductive Shared
  | nothing
  | srpMux (mux : Mux)
  | tDestMux (mux : Mux)

def shareSRP (cmp : ProtoPortMatchParams) (existingPorts : List ProtoPort) :
    Except CPSWError Shared :=
  if !b.hasSRP then throw (.ConfigurationError "Cannot share TDEST w/o SRP demuxer")
  else
    let cmp := (cmp.modify srpVersion (·.assign (srpUnsigned b.getSRPVersion))).modify srpVC
      (·.assign b.getSRPMuxVirtualChannel)
    let (found, cmp) := findIn cmp existingPorts
    if found.isSome then throw (.ConfigurationError "SRP VC already in use")
    else
      let (found, cmp) := findIn (cmp.modify srpVC (·.wildcard)) existingPorts
      match found with
      | none => throw (.ConfigurationError
          "No SRP Demultiplexer found -- cannot create SRP port on top of existing protocol modules")
      | some p =>
        match handler (cmp srpVC) p with
        | some ⟨mod, .srp version threadPriority, up⟩ =>
          return .srpMux ⟨mod, .srp version threadPriority, up⟩
        | _ => throw (.InternalError "No SRP Demultiplexer - but there should be one")

def shareTDest (cmp : ProtoPortMatchParams) (existingPorts : List ProtoPort) :
    Except CPSWError Shared :=
  if b.hasTDestMux then
    let (found, cmp) := findIn (cmp.modify tDest (·.wildcard)) existingPorts
    match found with
    | none => throw (.ConfigurationError "No TDEST Demultiplexer found")
    | some p =>
      match handler (cmp tDest) p with
      | none => throw (.InternalError
          "No TDEST Demultiplexer (base-class pointer) - but there should be one")
      | some mux => return .tDestMux mux
  else throw (.ConfigurationError "Unable to create new port on existing protocol modules")

/-- The searches of `build`. -/
def share (existingPorts : List ProtoPort) : Except CPSWError Shared :=
  let (found, cmp) := findIn b.xprtParams existingPorts
  if found.isSome then
    if !b.hasTDestMux && (!b.hasSRP || !b.hasSRPMux) then
      throw (.ConfigurationError "Some kind of demuxer must be used when sharing a UDP port")
    else
      let (foundTDestPort, cmp) := findIn (b.stackParams cmp) existingPorts
      if foundTDestPort.isSome then b.shareSRP cmp existingPorts else b.shareTDest cmp existingPorts
  else return .nothing

/-- The transport with RSSI and the depacketizer, as new modules. -/
def newStack (next : ℕ) : ProtoPort :=
  let rval := [⟨next, if b.hasUdp then
      .udp b.getUdpPort b.getUdpOutQueueDepth b.udpThreadPriority b.getUdpNumRxThreads b.getUdpPollSecs
    else
      .tcp b.getTcpPort b.getTcpOutQueueDepth b.tcpThreadPriority
        (if b.hasRssiBridge then some b.hasRssi else none)⟩]
  let rval :=
    if b.hasRssiAndUdp then ⟨next + 1, .rssi b.getRssiThreadPriority b.rssiConfig⟩ :: rval else rval
  if b.hasDepack && b.getDepackVersion = .V0 then
    ⟨next + 2, .depack b.getDepackOutQueueDepth (1 <<< b.getDepackLdFrameWinSize)
      (1 <<< b.getDepackLdFragWinSize) b.getDepackThreadPriority⟩ :: rval
  else rval

def newTDestMux (next : ℕ) (up : ProtoPort) : Mux :=
  match b.getDepackVersion with
  | .V2 => ⟨next + 3, .tdest2 b.getTDestMuxThreadPriority, up⟩
  | .V0 => ⟨next + 3, .tdest b.getTDestMuxThreadPriority, up⟩

/-- `createPort` of a TDEST multiplexer, once it has been cast to the version that is asked for. -/
def createTDestPort (mux : Mux) (existingPorts : List ProtoPort) : Except CPSWError ProtoPort :=
  match b.getDepackVersion, mux.kind with
  | .V2, .tdest2 prio => mux.addPort existingPorts b.getTDestMuxTDEST
      (.tdest2 prio b.getTDestMuxTDEST b.getTDestMuxStripHeader b.getTDestMuxOutQueueDepth
        b.getTDestMuxInpQueueDepth)
  | .V2, _ => throw (.InternalError "No TDEST V2 Demultiplexer - but there should be one")
  | .V0, .tdest prio => mux.addPort existingPorts b.getTDestMuxTDEST
      (.tdest prio b.getTDestMuxTDEST b.getTDestMuxStripHeader b.getTDestMuxOutQueueDepth)
  | .V0, _ => throw (.InternalError "No TDEST V0 Demultiplexer - but there should be one")

def newSRPMux (next : ℕ) (up : ProtoPort) : Mux :=
  ⟨next + 4, .srp b.getSRPVersion b.getSRPMuxThreadPriority, up⟩

def createSRPPort (mux : Mux) (existingPorts : List ProtoPort) : Except CPSWError ProtoPort :=
  match mux.kind with
  | .srp version prio => mux.addPort existingPorts b.getSRPMuxVirtualChannel
      (.srp version prio b.getSRPMuxVirtualChannel (2 * ((b.getSRPRetryCount &&& 0xffff) + 1)))
  | _ => throw .nullPointer

/-- The new modules, when the transport is not found. -/
def addStack (shared : Shared) (xprtError : Option CPSWError) (next : ℕ) :
    Except CPSWError (Option ProtoPort) :=
  match shared, xprtError with
  | .nothing, some e => throw e
  | .nothing, none => return some (b.newStack next)
  | _, _ => return none

/-- The TDEST port, unless it has been found. -/
def addTDest (shared : Shared) (rval : Option ProtoPort) (existingPorts : List ProtoPort)
    (next : ℕ) : Except CPSWError (Option ProtoPort) :=
  if b.hasTDestMux then
    match shared, rval with
    | .srpMux _, rval => return rval
    | .tDestMux mux, _ => some <$> b.createTDestPort mux existingPorts
    | .nothing, some up => some <$> b.createTDestPort (b.newTDestMux next up) existingPorts
    | .nothing, none => throw .nullPointer
  else return rval

def addSRP (shared : Shared) (rval : Option ProtoPort) (existingPorts : List ProtoPort)
    (next : ℕ) : Except CPSWError (Option ProtoPort) :=
  if b.hasSRPMux then
    match shared, rval with
    | .srpMux mux, _ => some <$> b.createSRPPort mux existingPorts
    | _, some up => some <$> b.createSRPPort (b.newSRPMux next up) existingPorts
    | _, none => throw .nullPointer
  else return rval

/-- `build`; `xprtError` is what creating the transport module throws. The modules that are created
have the numbers from `next` on, and no port is the null pointer. -/
def build (xprtError : Option CPSWError) (existingPorts : List ProtoPort) (next : ℕ) :
    Except CPSWError (Option ProtoPort) :=
  if (!b.hasUdp && !b.hasTcp) || b.ipAddr = INADDR_NONE then
    throw (.ConfigurationError "Currently only UDP or TCP transport supported\n")
  else if !b.hasSRP && b.hasSRPMux then
    throw (.ConfigurationError "Cannot configure SRP Demuxer w/o SRP protocol version")
  else do
    let shared ← b.share existingPorts
    let rval ← b.addStack shared xprtError next
    let rval ← b.addTDest shared rval existingPorts next
    b.addSRP shared rval existingPorts next

end CProtoStackBuilder

end Cpsw.ProtoMod
