import Gem5.DescCache
import Gem5.Inet
import Gem5.Interrupt
import Gem5.PacketFifo

/-!
# The NIC's transmit path

`IGbE::TxDescCache` and `IGbE::txStateMachine` of `i8254xGBe.cc`: the device gathers a packet with one
DMA for each descriptor, and a finished packet goes through the transmit FIFO to the wire. After a
context descriptor with segmentation the device cuts the data into packets itself.
-/

namespace Gem5

open Bytes

structure TxDesc where
  d1 : BitVec 64
  d2 : BitVec 64
  deriving DecidableEq, Repr

/-! The functions of `txd_op`. Those that assert what kind of descriptor they are given are only
called behind a check of the same. -/
namespace TxDesc

/-- `bits(v, first + n - 1, first)`. -/
def bits (v : BitVec 64) (first n : ℕ) : ℕ := (v.extractLsb' first n).toNat

def isLegacy (d : TxDesc) : Bool := !d.d2.getLsbD 29

def getType (d : TxDesc) : ℕ := bits d.d2 20 4

def cnxt : ℕ := 0

def data : ℕ := 1

def advcnxt : ℕ := 2

def advdata : ℕ := 3

def isTypes (d : TxDesc) (t₁ t₂ : ℕ) : Bool := d.getType = t₁ ∨ d.getType = t₂

def isAdvDesc (d : TxDesc) : Bool := !d.isLegacy && d.isTypes advdata advcnxt

def isContext (d : TxDesc) : Bool := !d.isLegacy && d.isTypes cnxt advcnxt

def isData (d : TxDesc) : Bool := !d.isLegacy && d.isTypes data advdata

def getBuf (d : TxDesc) : ℕ := d.d1.toNat

def getLen (d : TxDesc) : ℕ := if d.isLegacy then bits d.d2 0 16 else bits d.d2 0 20

/-- `replaceBits(d->d2, 35, 32, 1)`. -/
def setDd (d : TxDesc) : TxDesc :=
  { d with d2 := d.d2 &&& ~~~0xf00000000 ||| 0x100000000 }

def ide (d : TxDesc) : Bool := d.d2.getLsbD 31 && (d.getType = data || d.isLegacy)

def vle (d : TxDesc) : Bool := d.d2.getLsbD 30

def rs (d : TxDesc) : Bool := d.d2.getLsbD 27

def report (d : TxDesc) : TxDesc := if d.rs then d.setDd else d

def tse (d : TxDesc) : Bool :=
  if d.isTypes cnxt data then d.d2.getLsbD 26
  else if d.getType = advdata then d.d2.getLsbD 31
  else false

def eop (d : TxDesc) : Bool := d.d2.getLsbD 24

def ixsm (d : TxDesc) : Bool := d.isData && d.d2.getLsbD 40

def txsm (d : TxDesc) : Bool := d.isData && d.d2.getLsbD 41

def mss (d : TxDesc) : ℕ := bits d.d2 48 16

def hdrlen (d : TxDesc) : ℕ :=
  if d.isAdvDesc then bits d.d2 40 8 + bits d.d1 0 9 + bits d.d1 9 7 else bits d.d2 40 8

def getTsoLen (d : TxDesc) : ℕ := bits d.d2 46 18

end TxDesc

/-- The parameters of the simulated system: ticks in a nanosecond, the size of a cache line, and the
size of the buffer a packet is gathered in, 16384 in the source. -/
structure NicParams where
  ns : ℕ
  cacheBlockSize : ℕ
  txPacketSize : ℕ
  deriving DecidableEq, Repr

namespace NicParams

/-- `(cacheBlockSize()-1)>>4`. -/
def wbMask (P : NicParams) : BitVec 64 := BitVec.ofNat 64 ((P.cacheBlockSize - 1) / 16)

def intClock (P : NicParams) : ℕ := P.ns * 1024

end NicParams

/-- A DMA of the transmit path on the bus: of the header to be copied, or of data of a packet. -/
inductive TxDma
  | header (addr len : ℕ)
  | packet (addr len : ℕ)
  deriving DecidableEq, Repr

/-- The packet being gathered, the FIFO it is reserved in, and the variables of `TxDescCache`. -/
structure TxEngine where
  txFifo : PacketFifo
  txPacket : Option EthPacket
  /-- The DMA on the bus. While it is one of packet data, `pktPtr` is `txPacket`. -/
  dma : Option TxDma
  pktDone : Bool
  pktWaiting : Bool
  pktMultiDesc : Bool
  useTso : Bool
  tsoHeaderLen : ℕ
  tsoMss : ℕ
  tsoTotalLen : ℕ
  tsoUsedLen : ℕ
  tsoPrevSeq : ℕ
  tsoLoadedHeader : Bool
  tsoPktHasHeader : Bool
  tsoHeader : List Byte
  tsoDescBytesUsed : ℕ
  tsoCopyBytes : ℕ
  tsoPkts : ℕ
  deriving DecidableEq, Repr

structure TxPath extends TxEngine where
  cache : DescCache TxDesc
  intr : Intr
  tctl : BitVec 32
  txdctl : BitVec 32
  tidv : BitVec 32
  tadv : BitVec 32
  drainState : DrainState
  rxTick : Bool
  txTick : Bool
  txFifoTick : Bool
  tickEvent : Bool
  sent : List EthPacket
  onWire : ℕ
  deriving DecidableEq, Repr

namespace TxPath

def init (base len size : ℕ) (max : BitVec 32) : TxPath where
  txFifo := .init max
  txPacket := none
  dma := none
  pktDone := false
  pktWaiting := false
  pktMultiDesc := false
  useTso := false
  tsoHeaderLen := 0
  tsoMss := 0
  tsoTotalLen := 0
  tsoUsedLen := 0
  tsoPrevSeq := 0
  tsoLoadedHeader := false
  tsoPktHasHeader := false
  tsoHeader := List.replicate 256 0
  tsoDescBytesUsed := 0
  tsoCopyBytes := 0
  tsoPkts := 0
  cache := .init base len size
  intr := .init
  tctl := 0
  txdctl := 0
  tidv := 0
  tadv := 0
  drainState := .running
  rxTick := false
  txTick := false
  txFifoTick := false
  tickEvent := false
  sent := []
  onWire := 0

def en (s : TxPath) : Bool := s.tctl.getLsbD 1

/-- `txdctl.wthresh()`. -/
def wthresh (s : TxPath) : ℕ := (s.txdctl.extractLsb' 16 6).toNat

/-- `txdctl.gran()`. -/
def gran (s : TxPath) : Bool := s.txdctl.getLsbD 24

/-- `txdctl.lwthresh()`. -/
def lwthresh (s : TxPath) : ℕ := (s.txdctl.extractLsb' 25 7).toNat

def idv (r : BitVec 32) : ℕ := r.toNat % 2 ^ 16

def restartClock (s : TxPath) : TxPath :=
  if (s.rxTick ∨ s.txTick ∨ s.txFifoTick) ∧ s.drainState = .running then
    { s with tickEvent := true }
  else s

def enableSm (s : TxPath) : TxPath :=
  if s.drainState = .draining then s else restartClock { s with txTick := true }

def checkDrain (s : TxPath) : TxPath :=
  if s.drainState = .draining then
    { s with txFifoTick := false, txTick := false, rxTick := false }
  else s

def postInterrupt (P : NicParams) (s : TxPath) (t : BitVec 32) : Except Halt TxPath := do
  let intr ← s.intr.postInterrupt P.ns t false
  return { s with intr := intr }

def writeback (s : TxPath) (aMask : BitVec 64) : Except Halt TxPath := do
  let cache ← s.cache.writeback aMask
  return { s with cache := cache }

def fetchDescriptors (s : TxPath) : Except Halt TxPath := do
  let cache ← s.cache.fetchDescriptors
  return { s with cache := cache }

/-- The first unused descriptor is done with, and `f` is done to it. -/
def useDesc (s : TxPath) (f : TxDesc → TxDesc) : Except Halt TxPath := do
  let cache ← s.cache.useDesc f
  return { s with cache := cache }

/-- `a - b` on addresses, which are unsigned. -/
def addrSub (a b : ℕ) : ℕ := if b ≤ a then a - b else a + 2 ^ 64 - b

def loadContext (s : TxPath) (d : TxDesc) : TxPath :=
  let s := { s with tsoHeaderLen := d.hdrlen, tsoMss := d.mss }
  if d.getType = TxDesc.cnxt ∧ d.tse = true then
    { s with
      useTso := true
      tsoTotalLen := d.getLen
      tsoLoadedHeader := false
      tsoDescBytesUsed := 0
      tsoUsedLen := 0
      tsoPrevSeq := 0
      tsoPktHasHeader := false
      tsoPkts := 0
      tsoCopyBytes := 0 }
  else s

/-- The loop of `processContextDesc`, over the unused descriptors. -/
def takeContexts (s : TxPath) : List (Cached TxDesc) → TxPath
  | [] => s
  | c :: rest =>
    if s.useTso = false ∧ c.desc.isContext = true then
      let s := s.loadContext c.desc
      takeContexts { s with cache := { s.cache with
        unusedCache := rest
        usedCache := s.cache.usedCache ++ [{ c with desc := c.desc.setDd }] } } rest
    else s

def advTso (s : TxPath) (d : TxDesc) : TxPath :=
  if s.useTso = false ∧ d.getType = TxDesc.advdata ∧ d.tse = true then
    { s with
      useTso := true
      tsoTotalLen := d.getTsoLen
      tsoLoadedHeader := false
      tsoDescBytesUsed := 0
      tsoUsedLen := 0
      tsoPrevSeq := 0
      tsoPktHasHeader := false
      tsoPkts := 0 }
  else s

def fetchHeader (s : TxPath) (d : TxDesc) : Except Halt TxPath :=
  if s.useTso = true ∧ s.tsoLoadedHeader = false then do
    require (d.isData = true ∧ s.tsoHeaderLen ≤ d.getLen)
      "txd_op::isData(desc) && txd_op::getLen(desc) >= tsoHeaderLen"
    require (s.tsoHeaderLen ≤ 256) "tsoHeaderLen <= 256"
    return { s with pktWaiting := true, dma := some (.header d.getBuf s.tsoHeaderLen) }
  else .ok s

def processContextDesc (s : TxPath) : Except Halt TxPath := do
  require (s.cache.unusedCache ≠ []) "unusedCache.size()"
  let s := s.takeContexts s.cache.unusedCache
  match s.cache.unusedCache with
  | [] => return s
  | c :: _ => (s.advTso c.desc).fetchHeader c.desc

def headerLoaded (s : TxPath) (data : List Byte) : TxPath :=
  { s with
    dma := none
    pktWaiting := false
    tsoHeader := splice s.tsoHeader 0 data
    tsoLoadedHeader := true }

def headerComplete (s : TxPath) (data : List Byte) : Except Halt TxPath :=
  match s.dma with
  | some (.header _ len) =>
    if data.length = len then
      let s := s.headerLoaded data
      match s.cache.unusedCache with
      | [] => .error (.assertion "unusedCache.size()")
      | c :: _ =>
        if c.desc.getLen = s.tsoHeaderLen then do
          let s ← useDesc { s with tsoDescBytesUsed := 0 } id
          return s.enableSm.checkDrain
        else
          .ok (enableSm { s with tsoDescBytesUsed := s.tsoHeaderLen }).checkDrain
    else .error .notScheduled
  | _ => .error .notScheduled

/-- `tsoCopyBytes` as `getPacketSize` sets it for a packet of `length` bytes so far. -/
def copyBytes (s : TxPath) (length : ℕ) (d : TxDesc) : ℕ :=
  let left := addrSub d.getLen s.tsoDescBytesUsed
  if s.tsoPktHasHeader then min (addrSub (s.tsoMss + s.tsoHeaderLen) length) left
  else min s.tsoMss left

def getPacketSize (s : TxPath) (p : EthPacket) : Except Halt (BitVec 32 × TxPath) :=
  match s.cache.unusedCache with
  | [] => .ok (0, s)
  | c :: _ => do
    require (s.useTso = true → s.tsoLoadedHeader = true) "!useTso || tsoLoadedHeader"
    if s.useTso then
      let copy := s.copyBytes p.length c.desc
      return (BitVec.ofNat 32 (copy + if s.tsoPktHasHeader then 0 else s.tsoHeaderLen),
        { s with tsoCopyBytes := copy })
    else return (BitVec.ofNat 32 c.desc.getLen, s)

/-- The header is copied to the start of the packet's buffer, whose length grows by it. -/
def withHeader (p : EthPacket) (header : List Byte) : EthPacket :=
  { p with data := splice (p.data ++ List.replicate header.length 0) 0 header }

def getPacketData (s : TxPath) (p : EthPacket) : Except Halt TxPath :=
  match s.cache.unusedCache with
  | [] => .error (.assertion "unusedCache.size()")
  | c :: _ => do
    require ((c.desc.isLegacy = true ∨ c.desc.isData = true) ∧ c.desc.getLen ≠ 0)
      "(txd_op::isLegacy(desc) || txd_op::isData(desc)) && txd_op::getLen(desc)"
    if s.useTso then
      require (s.tsoLoadedHeader = true) "tsoLoadedHeader"
      let p := if s.tsoPktHasHeader then p else withHeader p (s.tsoHeader.take s.tsoHeaderLen)
      inBounds (p.length + s.tsoCopyBytes ≤ p.bufLength) "p->data + p->length"
      let addr := c.desc.getBuf + s.tsoDescBytesUsed
      let used := s.tsoDescBytesUsed + s.tsoCopyBytes
      require (used ≤ c.desc.getLen) "tsoDescBytesUsed <= txd_op::getLen(desc)"
      return { s with
        txPacket := some p
        tsoPktHasHeader := true
        tsoDescBytesUsed := used
        pktWaiting := true
        dma := some (.packet addr s.tsoCopyBytes) }
    else
      inBounds (p.length + c.desc.getLen ≤ p.bufLength) "p->data + p->length"
      return { s with
        txPacket := some p
        pktWaiting := true
        dma := some (.packet c.desc.getBuf c.desc.getLen) }

def segmentHeaders (s : TxPath) (d : List Byte) : Except Halt (List Byte) := do
  let len := d.length - Inet.ethSize d
  let d := if Inet.IsIp d then Inet.Ip.setLen (Inet.Ip.setId d (Inet.Ip.id d + s.tsoPkts)) len else d
  let d := if Inet.IsIp6 d then Inet.Ip6.setPlen d len else d
  let tcp ← Inet.tcpPtr d
  let d := match tcp with
    | none => d
    | some tcp =>
      let d := Inet.Tcp.setSeq d tcp (Inet.Tcp.seq d tcp + s.tsoPrevSeq)
      if s.tsoUsedLen ≠ s.tsoTotalLen then
        Inet.Tcp.setFlags d tcp (Inet.Tcp.flags d tcp &&& 0x36)
      else d
  let udp ← Inet.udpPtr d
  return match udp with
    | none => d
    | some udp => Inet.Udp.setLen d udp len

def segmentData (s : TxPath) (d : List Byte) : Except Halt (List Byte) :=
  if s.useTso then s.segmentHeaders d else .ok d

def ipChecksum (desc : TxDesc) (d : List Byte) : List Byte :=
  if Inet.IsIp d ∧ desc.ixsm = true then
    let d := Inet.Ip.setSum d 0
    Inet.Ip.setSum d (Inet.ipCksum d)
  else d

def tuChecksum (d : List Byte) : Except Halt (List Byte) := do
  let tcp ← Inet.tcpPtr d
  let udp ← Inet.udpPtr d
  match tcp, udp with
  | some tcp, _ =>
    let d := Inet.Tcp.setSum d tcp 0
    let sum ← Inet.cksum d
    return Inet.Tcp.setSum d tcp sum
  | none, some udp =>
    let d := Inet.Udp.setSum d udp 0
    let sum ← Inet.cksum d
    return Inet.Udp.setSum d udp sum
  | none, none => .error (.panic "Told to checksum, but don't know how\n")

def offloadChecksums (desc : TxDesc) (d : List Byte) : Except Halt (List Byte) :=
  if desc.isData = true ∧ (desc.ixsm = true ∨ desc.txsm = true) then do
    require (Inet.IsIp d ∨ Inet.IsIp6 d) "ip || ip6"
    let d := ipChecksum desc d
    if desc.txsm then tuChecksum d else return d
  else .ok d

/-- The interrupt timers a descriptor with `IDE` starts. -/
def startTimers (P : NicParams) (s : TxPath) (desc : TxDesc) : Except Halt TxPath :=
  if desc.ide then do
    let intr ← s.intr.startTimerIf (idv s.tidv ≠ 0) (idv s.tidv * P.intClock) .tidv
    let intr ← intr.startTimerIf (idv s.tadv ≠ 0 ∧ idv s.tidv ≠ 0) (idv s.tadv * P.intClock) .tadv
    return { s with intr := intr }
  else .ok s

/-- `descInBlock`. -/
def descInBlock (P : NicParams) (n : ℕ) : ℕ := n / P.cacheBlockSize / DescCache.descBytes

def wbFinished (P : NicParams) (s : TxPath) : Except Halt TxPath :=
  if s.wthresh = 0 then s.writeback 0
  else if s.gran = false ∧ s.wthresh ≤ descInBlock P s.cache.usedCache.length then
    s.writeback P.wbMask
  else if s.wthresh ≤ s.cache.usedCache.length then s.writeback P.wbMask
  else .ok s

def received (p : EthPacket) (data : List Byte) : EthPacket :=
  { p with data := p.data ++ data, simLength := p.simLength + data.length }

def partialPacket (s : TxPath) (p : EthPacket) (desc : TxDesc) : Except Halt TxPath := do
  require (s.useTso = true → s.tsoDescBytesUsed = desc.getLen)
    "!useTso || (tsoDescBytesUsed == txd_op::getLen(desc))"
  let s ← s.useDesc id
  return (enableSm { s with
    txPacket := some p
    tsoDescBytesUsed := 0
    pktDone := true
    pktMultiDesc := true }).checkDrain

/-- The descriptor of a finished packet, unless there is data of the next segment in it. -/
def releaseDesc (s : TxPath) (desc : TxDesc) : Except Halt TxPath :=
  if s.useTso = false ∨ desc.getLen = s.tsoDescBytesUsed then
    useDesc { s with tsoDescBytesUsed := 0 } TxDesc.report
  else do
    let cache ← s.cache.modifyDesc TxDesc.report
    return { s with cache := cache }

/-- The packet is ready with the bytes `data`. -/
def completed (s : TxPath) (p : EthPacket) (data : List Byte) : TxPath :=
  { s with
    tsoPkts := if s.useTso = true ∧ Inet.IsIp p.data then s.tsoPkts + 1 else s.tsoPkts
    tsoPrevSeq := if s.useTso then s.tsoUsedLen else s.tsoPrevSeq
    txPacket := some { p with data := data }
    useTso := s.useTso && s.tsoUsedLen ≠ s.tsoTotalLen
    pktMultiDesc := false
    pktDone := true
    tsoPktHasHeader := false }

def finishPacket (P : NicParams) (s : TxPath) (p : EthPacket) (desc : TxDesc) :
    Except Halt TxPath := do
  require (desc.vle = false) "!txd_op::vle(desc)"
  let data ← s.segmentData p.data
  let data ← offloadChecksums desc data
  let s ← s.startTimers P desc
  let s ← s.releaseDesc desc
  let s ← (s.completed p data).wbFinished P
  return s.enableSm.checkDrain

def NeedsMore (s : TxPath) (p : EthPacket) (desc : TxDesc) : Prop :=
  (desc.eop = false ∧ s.useTso = false) ∨
    (p.length < s.tsoMss + s.tsoHeaderLen ∧ s.tsoTotalLen ≠ s.tsoUsedLen ∧ s.useTso = true)

instance (s : TxPath) (p : EthPacket) (desc : TxDesc) : Decidable (s.NeedsMore p desc) :=
  inferInstanceAs (Decidable (_ ∨ _))

def arrived (s : TxPath) : TxPath :=
  { s with
    dma := none
    pktWaiting := false
    tsoUsedLen := if s.useTso then s.tsoUsedLen + s.tsoCopyBytes else s.tsoUsedLen }

/-- The DMA of packet data is done and left `data` in the packet. -/
def pktComplete (P : NicParams) (s : TxPath) (data : List Byte) : Except Halt TxPath :=
  match s.dma, s.txPacket with
  | some (.packet _ len), some p =>
    if data.length = len then
      match s.cache.unusedCache with
      | [] => .error (.assertion "unusedCache.size()")
      | c :: _ => do
        require ((c.desc.isLegacy = true ∨ c.desc.isData = true) ∧ c.desc.getLen ≠ 0)
          "(txd_op::isLegacy(desc) || txd_op::isData(desc)) && txd_op::getLen(desc)"
        let p := received p data
        let s := s.arrived
        if s.NeedsMore p c.desc then s.partialPacket p c.desc else s.finishPacket P p c.desc
    else .error .notScheduled
  | _, _ => .error .notScheduled

def ready (s : TxPath) : Option EthPacket :=
  match s.txPacket with
  | some p => if s.pktDone = true ∧ s.pktMultiDesc = false ∧ p.length ≠ 0 then some p else none
  | none => none

/-- `packetAvailable()` is asked, if there is a packet, and told only once. -/
def askAvailable (s : TxPath) : TxPath :=
  if s.txPacket.isSome then { s with pktDone := false } else s

def pushPacket (P : NicParams) (s : TxPath) (p : EthPacket) : Except Halt TxPath := do
  match ← s.txFifo.push p with
  | none => .error (.assertion "success")
  | some q =>
    writeback { s with
      txFifo := q
      txFifoTick := s.drainState ≠ .draining
      txPacket := none } P.wbMask

def reserveNext (s : TxPath) (p : EthPacket) : Except Halt TxPath := do
  let (size, s) ← s.getPacketSize p
  if 0 < size ∧ size < s.txFifo.avail then
    let q ← s.txFifo.reserve size
    getPacketData { s with txFifo := q } p
  else if size = 0 then s.writeback 0
  else return { s with txTick := false }

def checkLow (P : NicParams) (s : TxPath) : Except Halt TxPath :=
  if s.lwthresh ≠ 0 ∧ s.cache.descLeft < s.lwthresh * 8 then s.postInterrupt P Intr.txdlow
  else .ok s

def nextPacket (P : NicParams) (s : TxPath) : Except Halt TxPath := do
  let s ← s.checkLow P
  let p := s.txPacket.getD (.alloc P.txPacketSize)
  let s := { s with txPacket := some p }
  if s.pktWaiting then return { s with txTick := false }
  else if s.cache.descLeft = 0 then
    let s ← s.postInterrupt P Intr.txqe
    let s ← s.writeback 0
    let s ← s.fetchDescriptors
    return { s with txTick := false }
  else if s.cache.unusedCache = [] then
    let s ← s.fetchDescriptors
    return { s with txTick := false }
  else
    let s ← s.processContextDesc
    if s.pktWaiting then return { s with txTick := false }
    else s.reserveNext p

def txStateMachine (P : NicParams) (s : TxPath) : Except Halt TxPath :=
  if s.en = false then .ok { s with txTick := false }
  else match s.ready with
    | some p => s.askAvailable.pushPacket P p
    | none => s.askAvailable.nextPacket P

def ethTxDone (s : TxPath) : TxPath :=
  { s with
    txFifoTick := s.drainState ≠ .draining
    txTick := s.txTick || (s.cache.descLeft ≠ 0 && s.drainState ≠ .draining) }

inductive Wire
  | refuses
  | takes
  /-- It takes the packet and calls `ethTxDone` before it returns. -/
  | takesAtOnce
  deriving DecidableEq, Repr

def txWire (s : TxPath) (w : Wire) : Except Halt TxPath :=
  let s := { s with txFifoTick := false }
  if s.txFifo.empty then .ok s
  else do
    let p ← s.txFifo.front
    match w with
    | .refuses => if s.onWire = 0 then .error .notScheduled else return s
    | .takes =>
      let q ← s.txFifo.pop
      return { s with txFifo := q, sent := s.sent ++ [p], onWire := s.onWire + 1 }
    | .takesAtOnce =>
      let s := s.ethTxDone
      let q ← s.txFifo.pop
      return { s with txFifo := q, sent := s.sent ++ [p] }

/-- `while (txFifoTick) txWire();`, with what the link does each time. -/
def wireLoop (s : TxPath) : List Wire → Except Halt TxPath
  | [] => if s.txFifoTick then .error .notScheduled else .ok s
  | w :: ws =>
    if s.txFifoTick then do
      let s ← s.txWire w
      s.wireLoop ws
    else .error .notScheduled

/-- `if (txTick) txStateMachine();`. -/
def smTick (P : NicParams) (s : TxPath) : Except Halt TxPath :=
  if s.txTick then s.txStateMachine P else .ok s

/-- A tick of the device, with what its receive side leaves in `rxTick`. -/
def tick (P : NicParams) (s : TxPath) (rxTick : Bool) (wire : List Wire) : Except Halt TxPath :=
  if s.tickEvent then do
    let s ← smTick P { s with tickEvent := false, rxTick := rxTick }
    let s ← s.wireLoop wire
    return { s with tickEvent := s.rxTick || s.txTick || s.txFifoTick }
  else .error .notScheduled

inductive Op
  | tick (rxTick : Bool) (wire : List Wire)
  | headerEvent (data : List Byte)
  | pktEvent (data : List Byte)
  | ethTxDone
  | fetchDelayEvent
  | fetchEvent (fetchBuf : List TxDesc)
  | wbDelayEvent
  | wbEvent
  | writeTdt (val : ℕ)
  | writeTctl (val : BitVec 32)
  | writeTxdctl (val : BitVec 32)
  | writeTidv (val : BitVec 32)
  | writeTadv (val : BitVec 32)
  | timer (t : Intr.Timer)
  | intr (o : Intr.Op)
  | rxTick (b : Bool)
  | drain
  | drained
  | drainResume

/-- A write of the transmit control register. `oldtctl` is read after the register is written. -/
def writeTctl (s : TxPath) (val : BitVec 32) : TxPath :=
  let s := { s with tctl := val }
  let oldtctl := s.tctl
  let s := restartClock { s with txTick := s.txTick || s.en }
  if s.en = true ∧ oldtctl.getLsbD 1 = false then { s with cache := s.cache.reset } else s

def timer (P : NicParams) (s : TxPath) (t : Intr.Timer) : Except Halt TxPath :=
  match t with
  | .tadv | .tidv => do
    let s ← s.writeback 0
    let intr ← s.intr.fireTimer P.ns t
    return { s with intr := intr }
  | .rdtr | .radv => .error .notScheduled

def step (P : NicParams) (s : TxPath) : Op → Except Halt TxPath
  | .tick rx wire => s.tick P rx wire
  | .headerEvent data => s.headerComplete data
  | .pktEvent data => s.pktComplete P data
  | .ethTxDone =>
    if s.onWire = 0 then .error .notScheduled
    else .ok (ethTxDone { s with onWire := s.onWire - 1 }).restartClock
  | .fetchDelayEvent => do
    let cache ← s.cache.fetchDescriptors1 (s.drainState = .running)
    return { s with cache := cache }
  | .fetchEvent fetchBuf => do
    let cache ← s.cache.fetchComplete fetchBuf
    return (enableSm { s with cache := cache }).checkDrain
  | .wbDelayEvent => do
    let cache ← s.cache.writeback1 (s.drainState = .running)
    return { s with cache := cache }
  | .wbEvent => do
    let s ← s.postInterrupt P Intr.txdw
    let cache ← s.cache.wbComplete (s.txTick = false ∧ s.drainState = .running)
    let s := { s with cache := cache }
    return if cache.wbOut = 0 then s.checkDrain else s
  | .writeTdt val => do
    let cache ← s.cache.step (.writeTail val (s.drainState = .running))
    return { s with cache := cache }
  | .writeTctl val => .ok (s.writeTctl val)
  | .writeTxdctl val => .ok { s with txdctl := val }
  | .writeTidv val => .ok { s with tidv := val }
  | .writeTadv val => .ok { s with tadv := val }
  | .timer t => s.timer P t
  | .intr o => do
    let intr ← s.intr.step P.ns o
    return { s with intr := intr }
  | .rxTick b => .ok (restartClock { s with rxTick := b })
  | .drain => .ok { s with
      drainState := .draining
      txFifoTick := false
      txTick := false
      rxTick := false
      tickEvent := false }
  | .drained => .ok { s with drainState := .drained }
  | .drainResume =>
    .ok (restartClock { s with
      drainState := .running
      txFifoTick := true
      txTick := true
      rxTick := true })

end TxPath

end Gem5
