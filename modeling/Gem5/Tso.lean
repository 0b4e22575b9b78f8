import Gem5.TxPath

/-!
# Segmentation as a driver asks for it

A job is what the driver leaves in memory for one large TCP packet: a context descriptor and data
descriptors, whose data is a header and a payload. Packet number `k` of it carries the bytes of the
payload from `k * mss` on behind a copy of the header (`IsSegment`).
-/

namespace Gem5

open Bytes

def readMem (mem : ℕ → Byte) (addr n : ℕ) : List Byte := (List.range n).map fun i => mem (addr + i)

/-- A packet to segment. The header is whole in the first data descriptor, no data descriptor is
empty or asks for a VLAN tag, and a segment fits in the buffer it is gathered in. -/
structure TsoJob (P : NicParams) where
  mem : ℕ → Byte
  context : TxDesc
  descs : List TxDesc
  header : List Byte
  payload : List Byte
  isContext : context.isContext = true
  type : context.getType = TxDesc.cnxt
  tse : context.tse = true
  hdrlen : context.hdrlen = header.length
  paylen : context.getLen = payload.length
  mss_pos : 0 < context.mss
  isData : ∀ d ∈ descs, d.isData = true
  nonempty : ∀ d ∈ descs, 0 < d.getLen
  noVlan : ∀ d ∈ descs, d.vle = false
  first : ∀ d ∈ descs.head?, header.length ≤ d.getLen
  data : descs.flatMap (fun d => readMem mem d.getBuf d.getLen) = header ++ payload
  fits : header.length + context.mss ≤ P.txPacketSize
  tcp : Inet.HasTcp header (Inet.ethSize header) (Inet.Ip.pstart header)

namespace TsoJob

variable {P : NicParams} (j : TsoJob P)

def mss : ℕ := j.context.mss

def ipStart : ℕ := Inet.ethSize j.header

def tcpStart : ℕ := Inet.Ip.pstart j.header

def count : ℕ := (j.payload.length + j.mss - 1) / j.mss

/-- The part of the payload segment `k` is for. -/
def chunk (k : ℕ) : List Byte := slice j.payload (k * j.mss) j.mss

/-- The flags of segment `k`: all but the last are without FIN and PSH, and without the two bits
above the six flags of the source. -/
def flags (k : ℕ) : ℕ :=
  let f := Inet.u8 j.header (j.tcpStart + 13)
  if k + 1 = j.count then f else f &&& 0x36

/-- The packet is segment `k`. -/
structure IsSegment (k : ℕ) (p : EthPacket) : Prop where
  payload : p.data.drop j.header.length = j.chunk k
  length : p.length = j.header.length + (j.chunk k).length
  header : ∀ i < j.header.length, i ∉ Inet.rewritten j.ipStart j.tcpStart →
    p.data[i]? = j.header[i]?
  len : Inet.be16 p.data (j.ipStart + 2) = (p.length - j.ipStart) % 2 ^ 16
  id : Inet.be16 p.data (j.ipStart + 4) = (Inet.Ip.id j.header + k) % 2 ^ 16
  seq : Inet.Tcp.seq p.data j.tcpStart = (Inet.Tcp.seq j.header j.tcpStart + k * j.mss) % 2 ^ 32
  flags : Inet.u8 p.data (j.tcpStart + 13) = j.flags k

def posted (rest : List TxDesc) : List TxDesc := j.context :: j.descs ++ rest

end TsoJob

namespace TxPath

def pushed (s : TxPath) : List EthPacket := s.sent ++ s.txFifo.packets

/-- The descriptors that wait in the cache in the state `s₀`, and those read since then. -/
def taken (s₀ s : TxPath) : List TxDesc :=
  s₀.cache.unusedCache.map Cached.desc
    ++ (s.cache.reads.drop s₀.cache.reads.length).map Cached.desc

structure Idle (P : NicParams) (s : TxPath) : Prop where
  useTso : s.useTso = false
  waiting : s.pktWaiting = false
  done : s.pktDone = false
  packet : ∀ p ∈ s.txPacket, p.data = [] ∧ p.bufLength = P.txPacketSize
  ticks : s.cache.unusedCache ≠ [] → s.drainState = .running → s.en = true → s.txTick = true

end TxPath

/-- What the device reads from the state `s₀` on: the descriptors of the ring in order, of which the
first are those of the job, and data from memory. -/
def TsoJob.Feeds {P : NicParams} (j : TsoJob P) (s₀ : TxPath) (rest : List TxDesc) (s : TxPath) :
    TxPath.Op → Prop
  | .fetchEvent buf => s₀.taken s ++ buf <+: j.posted rest
  | .headerEvent data => ∀ addr len, s.dma = some (.header addr len) → data = readMem j.mem addr len
  | .pktEvent data => ∀ addr len, s.dma = some (.packet addr len) → data = readMem j.mem addr len
  | _ => True

instance {P : NicParams} (j : TsoJob P) (s₀ : TxPath) (rest : List TxDesc) (s : TxPath) :
    ∀ o, Decidable (j.Feeds s₀ rest s o)
  | .fetchEvent _ => inferInstanceAs (Decidable (_ <+: _))
  | .headerEvent data =>
    match h : s.dma with
    | some (.header addr len) =>
      decidable_of_iff (data = readMem j.mem addr len) (by simp [TsoJob.Feeds, h])
    | some (.packet _ _) => .isTrue (by simp [TsoJob.Feeds, h])
    | none => .isTrue (by simp [TsoJob.Feeds, h])
  | .pktEvent data =>
    match h : s.dma with
    | some (.packet addr len) =>
      decidable_of_iff (data = readMem j.mem addr len) (by simp [TsoJob.Feeds, h])
    | some (.header _ _) => .isTrue (by simp [TsoJob.Feeds, h])
    | none => .isTrue (by simp [TsoJob.Feeds, h])
  | .tick _ _ | .ethTxDone | .fetchDelayEvent | .wbDelayEvent | .wbEvent | .writeTdt _ | .writeTctl _
  | .writeTxdctl _ | .writeTidv _ | .writeTadv _ | .timer _ | .intr _ | .rxTick _ | .drain | .drained
  | .drainResume => .isTrue trivial

end Gem5
