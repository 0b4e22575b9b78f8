import Gem5.Basic
import Gem5.EtherPacket

/-!
# The load generator

`LoadGenerator` of `load_generator.cc`: it sends packets that carry the tick they were sent at, at a
rate that it adapts to the loss it sees (`increment`), or at a fixed rate, all the time (`static`) or
in bursts (`burst`). `sent` and `latency` are records of its packets.
-/

namespace Gem5

open Bytes

namespace LoadGenerator

inductive Mode
  | static
  | increment
  | burst
  deriving DecidableEq, Repr

structure Params where
  loadgenId : BitVec 8
  packetSize : BitVec 32
  packetRate : BitVec 32
  startTick : ℕ
  stopTick : ℕ
  burstWidth : ℕ
  burstGap : ℕ
  mode : Mode
  deriving DecidableEq, Repr

end LoadGenerator

structure LoadGenerator where
  mode : LoadGenerator.Mode
  loadgenId : BitVec 8
  packetSize : BitVec 32
  packetRate : BitVec 32
  startTick : ℕ
  stopTick : ℕ
  incrementInterval : BitVec 64
  burstWidth : ℕ
  burstGap : ℕ
  burstStartTick : ℕ
  lastRxCount : BitVec 64
  lastTxCount : BitVec 64
  sendPacketEvent : Option ℕ
  checkLossEvent : Option ℕ
  curTick : ℕ
  sent : List EthPacket
  latency : List (BitVec 64)
  deriving DecidableEq, Repr

namespace LoadGenerator

def macHeaderSize : ℕ := 14

def checkLossInterval : BitVec 64 := 1000

def checkLossDelay : ℕ := 100000000

/-- The constructor. The increment is `5e+8/(packetSize*8)`, a division of floats whose divisor is
computed in 32 bits and may be 0. -/
def init (p : Params) : Except Halt LoadGenerator :=
  if p.packetSize * 8 = 0 then .error (.undefined "5e+8/(packetSize*8)")
  else .ok {
    mode := p.mode
    loadgenId := p.loadgenId
    packetSize := p.packetSize
    packetRate := p.packetRate
    startTick := p.startTick
    stopTick := p.stopTick
    incrementInterval := BitVec.ofNat 64 (500000000 / (p.packetSize * 8).toNat)
    burstWidth := p.burstWidth
    burstGap := p.burstGap
    burstStartTick := 0
    lastRxCount := 0
    lastTxCount := 0
    sendPacketEvent := none
    checkLossEvent := none
    curTick := 0
    sent := []
    latency := [] }

/-- The ticks between two packets, `1e12/packetRate` cut to an integer. -/
def frequency (s : LoadGenerator) : Except Halt ℕ :=
  if s.packetRate = 0 then .error (.undefined "1e12/packetRate")
  else .ok (1000000000000 / s.packetRate.toNat)

def schedSend (s : LoadGenerator) (tick : ℕ) : Except Halt LoadGenerator := do
  let e ← schedule s.curTick s.sendPacketEvent tick
  return { s with sendPacketEvent := e }

def startup (s : LoadGenerator) : Except Halt LoadGenerator :=
  if s.curTick > s.stopTick then .ok s
  else if s.curTick > s.startTick then s.schedSend (s.curTick + 1)
  else s.schedSend (s.startTick + 1)

def dstMac (loadgenId : BitVec 8) : List Byte := [0x00, 0x90, 0x00, 0x00, 0x00, 0x01 + loadgenId]

def srcMac (loadgenId : BitVec 8) : List Byte := [0x00, 0x80, 0x00, 0x00, 0x00, 0x01 + loadgenId]

/-- Fills in the header and the time stamp, each with one `memcpy`. -/
def buildPacket (s : LoadGenerator) (p : EthPacket) : Except Halt EthPacket := do
  let head := dstMac s.loadgenId ++ srcMac s.loadgenId ++ toBE 2 p.length
  inBounds (macHeaderSize ≤ p.length) "ethpacket->data"
  let data := splice p.data 0 head
  inBounds (macHeaderSize + 8 ≤ p.length) "ethpacket->data[MACHeaderSize]"
  return { p with data := splice data macHeaderSize (toLE 8 s.curTick) }

/-- `a - b` in 64 bits. -/
def tickSub (a b : ℕ) : BitVec 64 := BitVec.ofNat 64 a - BitVec.ofNat 64 b

def schedNext (s : LoadGenerator) : Except Halt LoadGenerator := do
  let f ← s.frequency
  s.schedSend (s.curTick + f)

def afterSend (s : LoadGenerator) : Except Halt LoadGenerator :=
  if s.curTick < s.stopTick then
    match s.mode with
    | .increment =>
      if s.lastTxCount = checkLossInterval then do
        let e ← schedule s.curTick s.checkLossEvent (s.curTick + checkLossDelay)
        return { s with checkLossEvent := e }
      else s.schedNext
    | .static => s.schedNext
    | .burst =>
      if tickSub s.curTick s.burstStartTick > BitVec.ofNat 64 s.burstWidth then
        schedSend { s with burstStartTick := s.curTick + s.burstGap } (s.curTick + s.burstGap)
      else s.schedNext
  else .ok s

/-- Sends a packet, built in the bytes `buf` that the allocation of the packet happens to find. -/
def sendPacket (s : LoadGenerator) (buf : List Byte) : Except Halt LoadGenerator := do
  let p ← s.buildPacket { EthPacket.alloc buf.length with data := buf }
  afterSend { s with lastTxCount := s.lastTxCount + 1, sent := s.sent ++ [p] }

def NoLoss (s : LoadGenerator) : Prop := s.lastTxCount - s.lastRxCount < 10

instance (s : LoadGenerator) : Decidable s.NoLoss := inferInstanceAs (Decidable (_ < _))

/-- The rate after a check. The sum and the difference are computed in 64 bits and stored in 32. -/
def adaptedRate (s : LoadGenerator) : BitVec 32 :=
  let rate := s.packetRate.setWidth 64
  if s.NoLoss then (rate + s.incrementInterval).setWidth 32
  else if rate - s.incrementInterval < rate then (rate - s.incrementInterval).setWidth 32
  else s.packetRate

def checkLoss (s : LoadGenerator) : Except Halt LoadGenerator := do
  let extra := if s.NoLoss then 0 else checkLossDelay
  let s := { s with packetRate := s.adaptedRate, lastTxCount := 0, lastRxCount := 0 }
  let f ← s.frequency
  s.schedSend (s.curTick + f + extra)

/-- The bytes of a packet that `processRxPkt` takes for the tick it was sent at. -/
def readStamp (p : EthPacket) : ℕ := fromLE (slice p.data 8 8)

def processRxPkt (s : LoadGenerator) (p : EthPacket) : Except Halt LoadGenerator := do
  inBounds (8 + 8 ≤ p.length) "pkt->data[8]"
  return { s with
    lastRxCount := s.lastRxCount + 1
    latency := s.latency ++ [tickSub s.curTick (readStamp p)] }

inductive Op
  | startup
  | sendPacketEvent (buf : List Byte)
  | checkLossEvent
  | recvPacket (p : EthPacket)
  | advance (tick : ℕ)
  deriving DecidableEq, Repr

def step (s : LoadGenerator) : Op → Except Halt LoadGenerator
  | .startup => s.startup
  | .sendPacketEvent buf =>
    if s.sendPacketEvent = some s.curTick ∧ buf.length = s.packetSize.toNat then
      sendPacket { s with sendPacketEvent := none } buf
    else .error .notScheduled
  | .checkLossEvent =>
    if s.checkLossEvent = some s.curTick then checkLoss { s with checkLossEvent := none }
    else .error .notScheduled
  | .recvPacket p => s.processRxPkt p
  | .advance tick =>
    if s.curTick ≤ tick ∧ ∀ e ∈ [s.sendPacketEvent, s.checkLossEvent], ∀ t ∈ e, tick ≤ t then
      .ok { s with curTick := tick }
    else .error .notScheduled

def simulate (p : Params) (ops : List Op) : Except Halt LoadGenerator :=
  init p >>= fun s₀ => Machine.run step s₀ ops

/-- What has been seen of a generator: the time, the ticks at which it sent packets and checked for
losses, and the packets it sent and received since the last check. -/
structure Log where
  now : ℕ
  sends : List ℕ
  checks : List ℕ
  tx : ℕ
  rx : ℕ
  deriving DecidableEq, Repr

def Log.note (l : Log) : Op → Log
  | .startup => l
  | .sendPacketEvent _ => { l with sends := l.sends ++ [l.now], tx := l.tx + 1 }
  | .checkLossEvent => { l with checks := l.checks ++ [l.now], tx := 0, rx := 0 }
  | .recvPacket _ => { l with rx := l.rx + 1 }
  | .advance tick => { l with now := tick }

def log (ops : List Op) : Log := ops.foldl Log.note ⟨0, [], [], 0, 0⟩

/-- The ticks of the checks that the packets call for: one for every 1000th packet sent before the
stop tick. -/
def dueChecks (stopTick : ℕ) (sends : List ℕ) : List ℕ :=
  let before := sends.filter (· < stopTick)
  (List.range (before.length / 1000)).map fun k => before.getD (1000 * k + 999) 0 + checkLossDelay

/-- A check lowers the rate just for a loss: at a loss of 10 packets there is an increment that the rate
is not below, and otherwise the sum does not pass 32 bits, and where the difference of the counters
wraps around, because more packets came back than were sent, there is nothing to take off. -/
def MeasuresLoss (l : Log) (s : LoadGenerator) : Prop :=
  if 10 + l.rx ≤ l.tx then 0 < s.incrementInterval.toNat ∧ s.incrementInterval.toNat ≤ s.packetRate.toNat
  else if s.NoLoss then s.packetRate.toNat + s.incrementInterval.toNat < 2 ^ 32
  else s.incrementInterval.toNat = 0 ∨ s.packetRate.toNat < s.incrementInterval.toNat

instance (l : Log) (s : LoadGenerator) : Decidable (MeasuresLoss l s) := by
  delta MeasuresLoss
  infer_instance

def Params.spacing (p : Params) : ℕ := 1000000000000 / p.packetRate.toNat

/-- From the first packet of a burst and one of its packets to the next packet: once more than the
width has passed, the next burst starts after the gap. -/
def burstNext (spacing width gap : ℕ) (b : ℕ × ℕ) : ℕ × ℕ :=
  if width < b.2 - b.1 then (b.2 + gap, b.2 + gap) else (b.1, b.2 + spacing)

/-- The ticks of the first `n` packets of bursts that are measured from `start`, the first one sent
at `first`. -/
def burstTicks (spacing width gap start first n : ℕ) : List ℕ :=
  (List.range n).map fun k => ((burstNext spacing width gap)^[k] (start, first)).2

def packetTicks (l : Log) (s : LoadGenerator) : List ℕ := l.sends ++ s.sendPacketEvent.toList

def InBursts (p : Params) (l : Log) (s : LoadGenerator) : Prop :=
  let ticks := packetTicks l s
  ticks = burstTicks p.spacing p.burstWidth p.burstGap (ticks.headD 0) (ticks.headD 0) ticks.length

instance (p : Params) (l : Log) (s : LoadGenerator) : Decidable (InBursts p l s) :=
  inferInstanceAs (Decidable (_ = _))

/-- Tick 0 and the first packet give the same measure of the first burst at this packet, or it does
not matter which one is taken. -/
def Agrees (p : Params) (first t : ℕ) : Prop :=
  t ≤ p.burstWidth ∨ p.burstWidth < t - first ∨ p.burstGap = p.spacing

end LoadGenerator

end Gem5
