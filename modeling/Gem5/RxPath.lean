import Gem5.DescCache
import Gem5.Inet
import Gem5.Interrupt
import Gem5.PacketFifo
import Gem5.TxPath

/-!
# The NIC's receive path

`IGbE::ethRxPkt`, `IGbE::rxStateMachine` and `IGbE::RxDescCache` of `i8254xGBe.cc`: packets wait in
the receive FIFO, and the first of them is written to memory with DMAs into the buffers of one
descriptor after the other. `accepted`, `issued`, `parts`, `delivered` and `done` are history.
-/

namespace Gem5

open Bytes

/-- A receive descriptor, as the two words that its views (`legacy`, `adv_read`, `adv_wb`) share. -/
structure RxDesc where
  d1 : BitVec 64
  d2 : BitVec 64
  deriving DecidableEq, Repr

namespace RxDesc

def setBits (v : BitVec 64) (first n x : ℕ) : BitVec 64 :=
  let mask := BitVec.ofNat 64 (2 ^ n - 1)
  v &&& ~~~(mask <<< first) ||| (BitVec.ofNat 64 x &&& mask) <<< first

/-- `legacy.buf` and `adv_read.pkt`. -/
def pkt (d : RxDesc) : ℕ := d.d1.toNat

/-- `adv_read.hdr`. -/
def hdr (d : RxDesc) : ℕ := d.d2.toNat

/-- `adv_wb.header_len`, `adv_wb.sph` and `adv_wb.pkt_len`. -/
def setLens (d : RxDesc) (headerLen sph pktLen : ℕ) : RxDesc where
  d1 := setBits (setBits d.d1 21 10 headerLen) 31 1 sph
  d2 := setBits d.d2 32 16 pktLen

end RxDesc

/-- `RXDT_LEGACY` and its like. -/
inductive RxType
  | legacy
  | advOnebuf
  | advSplitA
  deriving DecidableEq, Repr

/-- The event at the end of a DMA: `pktEvent`, `pktHdrEvent` or `pktDataEvent`. -/
inductive RxEvent
  | pkt
  | hdr
  | data
  deriving DecidableEq, Repr

/-- A DMA into a buffer of the descriptor with number `seq`, and how large the registers say that
the buffer is. -/
structure RxWrite where
  seq : ℕ
  event : RxEvent
  addr : ℕ
  data : List Byte
  room : ℕ
  deriving DecidableEq, Repr

/-- A descriptor that is done with, in the format of that time, and the packet it has data of. -/
structure RxDone where
  type : RxType
  cached : Cached RxDesc
  packet : EthPacket
  deriving DecidableEq, Repr

/-- `RXDS_EOP`, where the format has it. -/
def RxDone.eop (x : RxDone) : Bool :=
  match x.type with
  | .legacy => x.cached.desc.d2.getLsbD 33
  | .advOnebuf | .advSplitA => x.cached.desc.d2.getLsbD 1

/-- The FIFO, the packet being written, and the variables of `RxDescCache`. -/
structure RxEngine where
  rxFifo : PacketFifo
  rxDmaPacket : Bool
  pktOffset : ℕ
  pktPtr : Option EthPacket
  pktDone : Bool
  splitCount : ℕ
  bytesCopied : ℕ
  dma : List RxWrite
  accepted : List EthPacket
  issued : List RxWrite
  parts : List RxWrite
  /-- The packets that left the FIFO for memory, each with its DMAs. -/
  delivered : List (EthPacket × List RxWrite)
  done : List RxDone
  deriving DecidableEq, Repr

structure RxRegs where
  rctl : BitVec 32
  srrctl : BitVec 32
  rxdctl : BitVec 32
  rxcsum : BitVec 32
  rdtr : BitVec 32
  radv : BitVec 32
  rsrpd : BitVec 32
  deriving DecidableEq, Repr

namespace RxRegs

def en (r : RxRegs) : Bool := r.rctl.getLsbD 1

def lpe (r : RxRegs) : Bool := r.rctl.getLsbD 5

def rdmts (r : RxRegs) : ℕ := (r.rctl.extractLsb' 8 2).toNat

def secrc (r : RxRegs) : Bool := r.rctl.getLsbD 26

/-- `rctl.descSize()`. -/
def descSize (r : RxRegs) : ℕ :=
  let bsex := r.rctl.getLsbD 25
  match (r.rctl.extractLsb' 16 2).toNat with
  | 0 => if bsex then 0 else 2048
  | 1 => if bsex then 16384 else 1024
  | 2 => if bsex then 8192 else 512
  | 3 => if bsex then 4096 else 256
  | _ => 0

/-- `srrctl.desctype()`. -/
def desctype (r : RxRegs) : ℕ := (r.srrctl.extractLsb' 25 3).toNat

def rxType (r : RxRegs) : Option RxType :=
  match r.desctype with
  | 0 => some .legacy
  | 1 => some .advOnebuf
  | 5 => some .advSplitA
  | _ => none

def bufLen (r : RxRegs) : ℕ :=
  if r.lpe then (r.srrctl.extractLsb' 0 8).toNat * 1024 else r.descSize

def hdrLen (r : RxRegs) : ℕ := if r.lpe then (r.srrctl.extractLsb' 8 8).toNat * 64 else 0

def pthresh (r : RxRegs) : ℕ := (r.rxdctl.extractLsb' 0 6).toNat

def hthresh (r : RxRegs) : ℕ := (r.rxdctl.extractLsb' 8 6).toNat

def wthresh (r : RxRegs) : ℕ := (r.rxdctl.extractLsb' 16 6).toNat

def gran (r : RxRegs) : Bool := r.rxdctl.getLsbD 24

def pcss (r : RxRegs) : ℕ := (r.rxcsum.extractLsb' 0 8).toNat

def ipofld (r : RxRegs) : Bool := r.rxcsum.getLsbD 8

def tuofld (r : RxRegs) : Bool := r.rxcsum.getLsbD 9

def pcsd (r : RxRegs) : Bool := r.rxcsum.getLsbD 13

end RxRegs

structure RxPath extends RxEngine, RxRegs where
  cache : DescCache RxDesc
  intr : Intr
  drainState : DrainState
  rxTick : Bool
  txTick : Bool
  tickEvent : Bool
  deriving DecidableEq, Repr

namespace RxPath

/-- The device as it is constructed, with the ring of its descriptors and a FIFO of `max` bytes. -/
def init (base len size : ℕ) (max : BitVec 32) : RxPath where
  rxFifo := .init max
  rxDmaPacket := false
  pktOffset := 0
  pktPtr := none
  pktDone := false
  splitCount := 0
  bytesCopied := 0
  dma := []
  accepted := []
  issued := []
  parts := []
  delivered := []
  done := []
  cache := .init base len size
  intr := .init
  rctl := 0
  srrctl := 0
  rxdctl := 0x01010000
  rxcsum := 0
  rdtr := 0
  radv := 0
  rsrpd := 0
  drainState := .running
  rxTick := false
  txTick := false
  tickEvent := false

/-! ### The clock and the descriptor cache -/

def restartClock (s : RxPath) : RxPath :=
  if (s.rxTick ∨ s.txTick) ∧ s.drainState = .running then { s with tickEvent := true } else s

def enableSm (s : RxPath) : RxPath :=
  if s.drainState = .draining then s else restartClock { s with rxTick := true }

def checkDrain (s : RxPath) : RxPath :=
  if s.drainState = .draining then { s with txTick := false, rxTick := false } else s

def postInterrupt (P : NicParams) (s : RxPath) (t : BitVec 32) (now : Bool) :
    Except Halt RxPath := do
  let intr ← s.intr.postInterrupt P.ns t now
  return { s with intr := intr }

def postIf (P : NicParams) (s : RxPath) (c : Prop) [Decidable c] (t : BitVec 32) :
    Except Halt RxPath :=
  if c then s.postInterrupt P t false else .ok s

def writeback (s : RxPath) (aMask : BitVec 64) : Except Halt RxPath := do
  let cache ← s.cache.writeback aMask
  return { s with cache := cache }

def writebackIf (s : RxPath) (c : Prop) [Decidable c] (aMask : BitVec 64) : Except Halt RxPath :=
  if c then s.writeback aMask else .ok s

def fetchDescriptors (s : RxPath) : Except Halt RxPath := do
  let cache ← s.cache.fetchDescriptors
  return { s with cache := cache }

/-! ### Writing a packet -/

/-- `a - b` in 32 bits. -/
def sub32 (a b : ℕ) : ℕ := if b ≤ a then a - b else a + 2 ^ 32 - b

/-- The `n` bytes from `off` on in the packet's buffer. Those behind the packet are not part of the
model and read as 0. -/
def bytesAt (p : EthPacket) (off n : ℕ) : List Byte :=
  (List.range n).map fun i => p.data.getD (off + i) 0

/-- DMAs are started for the first unused descriptor, which `f` is done to. -/
def start (s : RxPath) (writes : List RxWrite) (bytesCopied : ℕ) (f : RxDesc → RxDesc) :
    Except Halt RxPath := do
  let cache ← s.cache.modifyDesc f
  return { s with
    cache := cache
    bytesCopied := bytesCopied
    dma := s.dma ++ writes
    issued := s.issued ++ writes
    parts := s.parts ++ writes }

def writeSplit (s : RxPath) (p : EthPacket) (c : Cached RxDesc) : Except Halt RxPath := do
  let split_point ← Inet.hsplit p.data
  if p.length ≤ s.hdrLen then
    require (s.pktOffset = 0) "pkt_offset == 0"
    s.start [⟨c.seq, .pkt, c.desc.hdr, bytesAt p 0 p.length, s.hdrLen⟩] p.length
      (RxDesc.setLens · p.length 0 0)
  else if split_point ≠ 0 then
    if s.pktOffset ≠ 0 then
      let max_to_copy := min (sub32 p.length s.pktOffset) s.bufLen
      s.start [⟨c.seq, .pkt, c.desc.pkt, bytesAt p s.pktOffset max_to_copy, s.bufLen⟩]
        (s.bytesCopied + max_to_copy) (RxDesc.setLens · 0 0 max_to_copy)
    else
      let max_to_copy := min (sub32 p.length split_point) s.bufLen
      s.start [⟨c.seq, .hdr, c.desc.hdr, bytesAt p 0 split_point, s.hdrLen⟩,
          ⟨c.seq, .data, c.desc.pkt, bytesAt p split_point max_to_copy, s.bufLen⟩]
        (s.bytesCopied + (max_to_copy + split_point))
        (RxDesc.setLens · split_point 1 max_to_copy)
  else .error (.panic ("Header split not fitting within header buffer or "
    ++ "undecodable packet not fitting in header unsupported\n"))

def writePacket (s : RxPath) (p : EthPacket) : Except Halt RxPath :=
  match s.cache.unusedCache with
  | [] => .error (.assertion "unusedCache.size()")
  | c :: _ =>
    let s := { s with pktPtr := some p, pktDone := false }
    match s.rxType with
    | some .legacy => do
      require (s.pktOffset = 0) "pkt_offset == 0"
      require (p.length < s.descSize) "packet->length < igbe->regs.rctl.descSize()"
      s.start [⟨c.seq, .pkt, c.desc.pkt, bytesAt p 0 p.length, s.descSize⟩] p.length id
    | some .advOnebuf => do
      require (s.pktOffset = 0) "pkt_offset == 0"
      require (p.length < s.bufLen) "packet->length < buf_len"
      s.start [⟨c.seq, .pkt, c.desc.pkt, bytesAt p 0 p.length, s.bufLen⟩] p.length
        (RxDesc.setLens · 0 0 p.length)
    | some .advSplitA => s.writeSplit p c
    | none => .error (.panic "Unimplemnted RX receive buffer type: %d\n")

/-! ### A descriptor is done with -/

structure Report where
  status : ℕ
  err : ℕ
  ext_err : ℕ
  csum : ℕ
  ptype : ℕ
  ip_id : ℕ
  deriving DecidableEq, Repr

/-- The check of a sum: `valid` is the bit that says it was made, `err` and `ext_err` those that say
it failed. -/
def Report.check (r : Report) (sum valid ptype err ext_err : ℕ) : Report :=
  { r with
    status := r.status ||| valid
    ptype := r.ptype ||| ptype
    csum := sum
    err := if sum ≠ 0 then r.err ||| err else r.err
    ext_err := if sum ≠ 0 then r.ext_err ||| ext_err else r.ext_err }

/-- The checksum of a TCP or a UDP header that is there is checked if `RXCSUM` asks for it. -/
def checkTu (s : RxPath) (p : EthPacket) (r : Report) (ptr : Option ℕ) (valid ptype : ℕ) :
    Except Halt Report :=
  if ptr.isSome = true ∧ s.tuofld = true then do
    let sum ← Inet.cksum p.data
    return r.check sum valid ptype 0x20 0x400
  else .ok r

def reportIp (s : RxPath) (p : EthPacket) (r : Report) : Report :=
  let r := if Inet.IsIp p.data then { r with ptype := 0x1, ip_id := Inet.Ip.id p.data } else r
  let r := if Inet.IsIp6 p.data then { r with ptype := r.ptype ||| 0x4 } else r
  if Inet.IsIp p.data ∧ s.ipofld = true then r.check (Inet.ipCksum p.data) 0x40 0 0x40 0x800 else r

def report (s : RxPath) (p : EthPacket) : Except Halt Report :=
  let r : Report := ⟨if s.bytesCopied = p.length then 0x3 else 0x1, 0, 0, 0, 0, 0⟩
  if Inet.IsIp p.data ∨ Inet.IsIp6 p.data then do
    let tcp ← Inet.tcpPtr p.data
    let r ← s.checkTu p (s.reportIp p r) tcp 0x20 0x10
    let udp ← Inet.udpPtr p.data
    s.checkTu p r udp 0x10 0x20
  else .ok r

def fill (s : RxPath) (type : RxType) (p : EthPacket) (r : Report) (d : RxDesc) : RxDesc :=
  match type with
  | .legacy =>
    let crcfixup := if s.secrc then 0 else 4
    let d2 := RxDesc.setBits d.d2 0 16 (p.length + crcfixup)
    let d2 := RxDesc.setBits d2 32 8 r.status
    let d2 := RxDesc.setBits d2 40 8 r.err
    { d with d2 := RxDesc.setBits d2 48 16 0 }
  | .advOnebuf | .advSplitA =>
    let d1 := RxDesc.setBits (RxDesc.setBits d.d1 0 4 0) 4 12 r.ptype
    let d1 := if s.pcsd then RxDesc.setBits d1 32 32 0
      else RxDesc.setBits (RxDesc.setBits d1 32 16 r.ip_id) 48 16 r.csum
    let d2 := RxDesc.setBits d.d2 0 20 r.status
    let d2 := RxDesc.setBits d2 20 12 r.ext_err
    { d1 := d1, d2 := RxDesc.setBits d2 48 16 0 }

def packetInterrupts (P : NicParams) (s : RxPath) (p : EthPacket) : Except Halt RxPath := do
  let intr ← s.intr.startTimerIf (TxPath.idv s.rdtr ≠ 0) (TxPath.idv s.rdtr * P.intClock) .rdtr
  let intr ← intr.startTimerIf (TxPath.idv s.radv ≠ 0) (TxPath.idv s.radv * P.intClock) .radv
  let s := { s with intr := intr }
  let s ← s.postIf P (TxPath.idv s.rdtr = 0 ∧ TxPath.idv s.radv = 0) Intr.rxt0
  s.postIf P (p.length ≤ (s.rsrpd.extractLsb' 0 12).toNat) Intr.srpd

def finishPacket (P : NicParams) (s : RxPath) (p : EthPacket) : Except Halt RxPath :=
  if s.bytesCopied = p.length then do
    let s ← s.packetInterrupts P p
    return { s with bytesCopied := 0 }
  else .ok s

def pktComplete (P : NicParams) (s : RxPath) : Except Halt RxPath :=
  match s.cache.unusedCache, s.pktPtr with
  | [], _ => .error (.assertion "unusedCache.size()")
  | _, none => .error (.undefined "pktPtr->length")
  | c :: _, some p => do
    require (s.pcss = 0) "igbe->regs.rxcsum.pcss() == 0"
    require (s.bytesCopied ≤ p.length) "bytesCopied <= pktPtr->length"
    let r ← s.report p
    match s.rxType with
    | none => .error (.panic "Unimplemnted RX receive buffer type %d\n")
    | some type => do
      let f := s.fill type p r
      let s ← s.finishPacket P p
      let s := (checkDrain { s with pktPtr := none }).enableSm
      let cache ← s.cache.useDesc f
      return { s with
        pktDone := true
        cache := cache
        done := s.done ++ [⟨type, { c with desc := f c.desc }, p⟩] }

def pktSplitDone (P : NicParams) (s : RxPath) : Except Halt RxPath := do
  let s := { s with splitCount := s.splitCount + 1 }
  require (s.splitCount ≤ 2) "splitCount <= 2"
  if s.splitCount ≠ 2 then return s
  else pktComplete P { s with splitCount := 0 }

def dmaDone (P : NicParams) (s : RxPath) (e : RxEvent) : Except Halt RxPath :=
  if s.dma.any (·.event = e) then
    let s := { s with dma := s.dma.eraseP (·.event = e) }
    match e with
    | .pkt => s.pktComplete P
    | .hdr | .data => s.pktSplitDone P
  else .error .notScheduled

/-! ### The state machine -/

def ethRxPkt (P : NicParams) (s : RxPath) (p : EthPacket) : Except Halt RxPath :=
  if s.en = false then .ok s
  else do
    let s := restartClock { s with rxTick := s.drainState ≠ .draining }
    match ← s.rxFifo.push p with
    | none => s.postInterrupt P Intr.rxo true
    | some q => return { s with rxFifo := q, accepted := s.accepted ++ [p] }

def writebackThresh (P : NicParams) (s : RxPath) : Except Halt RxPath := do
  require (s.gran = true) "regs.rxdctl.gran()"
  if s.cache.usedCache.length ≤ s.wthresh then
    if s.wthresh < P.cacheBlockSize / 16 then
      s.writeback ((BitVec.ofNat 32 s.wthresh - 1).setWidth 64)
    else s.writeback P.wbMask
  else .ok s

def stopIfNone (s : RxPath) (descLeft : ℕ) : Except Halt RxPath :=
  if descLeft = 0 then do
    let s ← s.writeback 0
    return { s with rxTick := false }
  else .ok s

def prefetch (s : RxPath) : Except Halt RxPath :=
  if s.cache.unusedCache.length < s.pthresh
      ∧ s.hthresh < s.cache.descLeft - s.cache.unusedCache.length then s.fetchDescriptors
  else .ok s

def fetchAndStop (s : RxPath) : Except Halt RxPath := do
  let s ← s.fetchDescriptors
  return { s with rxTick := false }

def afterPacket (P : NicParams) (s : RxPath) : Except Halt RxPath := do
  let descLeft := s.cache.descLeft
  let s ← s.writebackIf (descLeft * 2 ^ (s.rdmts + 1) ≤ s.cache.descLen * 16) 0
  let s ← s.writebackIf (descLeft < 32) 0
  let s ← s.writebackIf (s.rxFifo.empty = true) 0
  let s ← s.stopIfNone descLeft
  let s ← s.writebackThresh P
  let s ← s.prefetch
  if s.cache.unusedCache = [] then s.fetchAndStop else return s

def advance (s : RxPath) (p : EthPacket) : Except Halt RxPath :=
  if s.bytesCopied = p.length then do
    let q ← s.rxFifo.pop
    return { s with
      pktOffset := 0
      rxFifo := q
      parts := []
      delivered := s.delivered ++ [(p, s.parts)] }
  else .ok { s with pktOffset := s.bytesCopied }

def sendFront (s : RxPath) : Except Halt RxPath := do
  let p ← s.rxFifo.front
  let s ← s.writePacket p
  let s ← s.advance p
  return { s with rxTick := false, rxDmaPacket := true }

def rxStateMachine (P : NicParams) (s : RxPath) : Except Halt RxPath :=
  if s.en = false then .ok { s with rxTick := false }
  else if s.pktDone then afterPacket P { s with pktDone := false, rxDmaPacket := false }
  else if s.rxDmaPacket then .ok { s with rxTick := false }
  else if s.cache.unusedCache = [] then s.fetchAndStop
  else if s.rxFifo.empty then .ok { s with rxTick := false }
  else s.sendFront

/-- `if (rxTick) rxStateMachine();`. -/
def smTick (P : NicParams) (s : RxPath) : Except Halt RxPath :=
  if s.rxTick then s.rxStateMachine P else .ok s

/-- A tick of the device, with what its transmit side leaves in `txTick`. -/
def tick (P : NicParams) (s : RxPath) (txTick : Bool) : Except Halt RxPath :=
  if s.tickEvent then do
    let s ← smTick P { s with tickEvent := false }
    return { s with txTick := txTick, tickEvent := s.rxTick || txTick }
  else .error .notScheduled

def writeRctl (s : RxPath) (val : BitVec 32) : RxPath :=
  let s := { s with rctl := val }
  let s := if val.getLsbD 0 then { s with
      cache := s.cache.reset
      rxFifo := s.rxFifo.clear
      rctl := val &&& ~~~1
      parts := [] }
    else s
  restartClock { s with rxTick := s.rxTick || s.en }

/-- `rdtrProcess` and `radvProcess`. -/
def timer (P : NicParams) (s : RxPath) (t : Intr.Timer) : Except Halt RxPath :=
  match t with
  | .rdtr | .radv => do
    let s ← s.writeback 0
    let intr ← s.intr.fireTimer P.ns t
    return { s with intr := intr }
  | .tadv | .tidv => .error .notScheduled

inductive Op
  | ethRxPkt (p : EthPacket)
  | tick (txTick : Bool)
  | dmaDone (e : RxEvent)
  | fetchDelayEvent
  | fetchEvent (fetchBuf : List RxDesc)
  | wbDelayEvent
  | wbEvent
  | writeRdt (val : ℕ)
  | writeRdh (val : ℕ)
  | writeRdlen (val : ℕ)
  | writeRdbal (val : ℕ)
  | writeRdbah (val : ℕ)
  | writeRctl (val : BitVec 32)
  | writeSrrctl (val : BitVec 32)
  | writeRxdctl (val : BitVec 32)
  | writeRxcsum (val : BitVec 32)
  | writeRdtr (val : BitVec 32)
  | writeRadv (val : BitVec 32)
  | timer (t : Intr.Timer)
  | intr (o : Intr.Op)
  | txTick (b : Bool)
  | drain
  | drained
  | drainResume
  deriving DecidableEq, Repr

def cacheStep (s : RxPath) (o : DescCache.Op RxDesc) : Except Halt RxPath := do
  let cache ← s.cache.step o
  return { s with cache := cache }

def step (P : NicParams) (s : RxPath) : Op → Except Halt RxPath
  | .ethRxPkt p => s.ethRxPkt P p
  | .tick txTick => s.tick P txTick
  | .dmaDone e => s.dmaDone P e
  | .fetchDelayEvent => s.cacheStep (.fetchDelayEvent (s.drainState = .running))
  | .fetchEvent fetchBuf => do
    let s ← s.cacheStep (.fetchEvent fetchBuf)
    return s.enableSm.checkDrain
  | .wbDelayEvent => s.cacheStep (.wbDelayEvent (s.drainState = .running))
  | .wbEvent => do
    let s ← s.cacheStep (.wbEvent (s.rxTick = false ∧ s.drainState = .running))
    return if s.cache.wbOut = 0 then s.checkDrain else s
  | .writeRdt val => s.cacheStep (.writeTail val (s.drainState = .running))
  | .writeRdh val => s.cacheStep (.writeHead val)
  | .writeRdlen val => s.cacheStep (.writeLen val)
  | .writeRdbal val => s.cacheStep (.writeBaseLow val)
  | .writeRdbah val => s.cacheStep (.writeBaseHigh val)
  | .writeRctl val => .ok (s.writeRctl val)
  | .writeSrrctl val => .ok { s with srrctl := val }
  | .writeRxdctl val => .ok { s with rxdctl := val }
  | .writeRxcsum val => .ok { s with rxcsum := val }
  | .writeRdtr val => .ok { s with rdtr := val }
  | .writeRadv val => .ok { s with radv := val }
  | .timer t => s.timer P t
  | .intr o => do
    let intr ← s.intr.step P.ns o
    return { s with intr := intr }
  | .txTick b => .ok (restartClock { s with txTick := b })
  | .drain => .ok { s with
      drainState := .draining
      txTick := false
      rxTick := false
      tickEvent := false }
  | .drained => .ok { s with drainState := .drained }
  | .drainResume =>
    .ok (restartClock { s with drainState := .running, txTick := true, rxTick := true })

end RxPath

end Gem5
