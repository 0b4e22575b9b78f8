import Gem5.Basic
import Gem5.EtherPacket

/-!
# One direction of an Ethernet link

`EtherLink::Link` of `etherlink.cc`. A packet is on the transmitter until `doneEvent`, then in flight
for the link delay, if there is one. The time on the transmitter, `ceil(simLength * ticksPerByte +
1.0)` with a random part, is a parameter. `delivered`, `accepted` and `finished` are history.
-/

namespace Gem5

structure LinkParams where
  txTicks : ℕ → ℕ
  txTicks_pos : ∀ simLength, 0 < txTicks simLength
  linkDelay : ℕ
  delayVar : ℕ

structure EtherLink where
  params : LinkParams
  packet : Option EthPacket := none
  doneEvent : Option ℕ := none
  txQueue : List (ℕ × EthPacket) := []
  txQueueEvent : Option ℕ := none
  curTick : ℕ := 0
  accepted : List EthPacket := []
  finished : List (ℕ × EthPacket) := []
  delivered : List (ℕ × EthPacket) := []

namespace EtherLink

variable (l : EtherLink)

def busy : Bool := l.packet.isSome

def txComplete (p : EthPacket) : EtherLink :=
  { l with delivered := l.delivered ++ [(l.curTick, p)] }

def txDelay (p : EthPacket) (random : ℕ) : ℕ :=
  l.params.txTicks p.simLength + if l.params.delayVar ≠ 0 then random else 0

def transmit (p : EthPacket) (random : ℕ) : Except Halt (EtherLink × Bool) :=
  if l.busy then .ok (l, false)
  else do
    let event ← schedule l.curTick l.doneEvent (l.curTick + l.txDelay p random)
    return ({ l with packet := some p, doneEvent := event, accepted := l.accepted ++ [p] }, true)

/-- The event of the queue, which is scheduled for the front if it is not scheduled yet. -/
def armQueue (curTick : ℕ) : Option ℕ → List (ℕ × EthPacket) → Except Halt (Option ℕ)
  | some t, _ => .ok (some t)
  | none, [] => .error (.undefined "txQueue.front()")
  | none, x :: _ => schedule curTick none x.1

def sendOff (p : EthPacket) : Except Halt EtherLink :=
  if 0 < l.params.linkDelay then do
    let q := l.txQueue ++ [(l.curTick + l.params.linkDelay, p)]
    let event ← armQueue l.curTick l.txQueueEvent q
    return { l with txQueue := q, txQueueEvent := event }
  else do
    require (l.txQueue = []) "txQueue.empty()"
    return l.txComplete p

/-- `sendDone`, which `txDone` ends with, lets the interface transmit again: that is a step of its own. -/
def txDone : Except Halt EtherLink :=
  match l.packet with
  | none => .error (.undefined "packet")
  | some p => do
    let l' ← l.sendOff p
    return { l' with packet := none, finished := l'.finished ++ [(l'.curTick, p)] }

def armNext (curTick : ℕ) (event : Option ℕ) : List (ℕ × EthPacket) → Except Halt (Option ℕ)
  | [] => .ok event
  | x :: _ => do
    require (curTick < x.1) "next.first > curTick()"
    schedule curTick event x.1

def processTxQueue : Except Halt EtherLink :=
  match l.txQueue with
  | [] => .error (.undefined "txQueue.front()")
  | x :: q => do
    let event ← armNext l.curTick l.txQueueEvent q
    require (x.1 = l.curTick) "cur.first == curTick()"
    return { l with txQueue := q, txQueueEvent := event }.txComplete x.2

/-- What `serialize` writes. -/
structure Checkpoint where
  packet : Option EthPacket
  eventTime : Option ℕ
  txQueue : List (ℕ × EthPacket)
  deriving DecidableEq, Repr

def serialize : Checkpoint := ⟨l.packet, l.doneEvent, l.txQueue⟩

/-- `EthPacketData::unserialize` of a new packet. -/
def restorePacket (p : EthPacket) : Except Halt EthPacket := do
  require (p.length ≤ p.bufLength) "length <= bufLength"
  return p

def restoreTransmitter (packet : Option EthPacket) : Option EthPacket →
    Except Halt (Option EthPacket)
  | none => .ok packet
  | some p => do return some (← restorePacket p)

def restoreDone (curTick : ℕ) (event : Option ℕ) : Option ℕ → Except Halt (Option ℕ)
  | none => .ok event
  | some t => schedule curTick event t

def restoreQueue : List (ℕ × EthPacket) → List (ℕ × EthPacket) →
    Except Halt (List (ℕ × EthPacket))
  | q, [] => .ok q
  | q, x :: rest => do
    let p ← restorePacket x.2
    panicIf (∃ y ∈ q.getLast?, x.1 < y.1) "Invalid txQueue packet order in EtherLink!"
    restoreQueue (q ++ [(x.1, p)]) rest

def restoreEvent (curTick : ℕ) (event : Option ℕ) : List (ℕ × EthPacket) →
    Except Halt (Option ℕ)
  | [] => .ok event
  | x :: _ => schedule curTick event x.1

def unserialize (cp : Checkpoint) : Except Halt EtherLink := do
  let packet ← restoreTransmitter l.packet cp.packet
  let done ← restoreDone l.curTick l.doneEvent cp.eventTime
  let q ← restoreQueue l.txQueue cp.txQueue
  let event ← restoreEvent l.curTick l.txQueueEvent q
  return { l with packet := packet, doneEvent := done, txQueue := q, txQueueEvent := event }

def renewed : EtherLink :=
  { l with packet := none, doneEvent := none, txQueue := [], txQueueEvent := none }

inductive Op
  | transmit (p : EthPacket) (random : ℕ)
  | txDone
  | processTxQueue
  | advance (tick : ℕ)
  | roundTrip
  deriving DecidableEq, Repr

def step (l : EtherLink) : Op → Except Halt EtherLink
  | .transmit p random => do return (← l.transmit p random).1
  | .txDone =>
    if l.doneEvent = some l.curTick then { l with doneEvent := none }.txDone
    else .error .notScheduled
  | .processTxQueue =>
    if l.txQueueEvent = some l.curTick then { l with txQueueEvent := none }.processTxQueue
    else .error .notScheduled
  | .advance tick =>
    if l.curTick ≤ tick ∧ (∀ t ∈ l.doneEvent, tick ≤ t) ∧ ∀ t ∈ l.txQueueEvent, tick ≤ t then
      .ok { l with curTick := tick }
    else .error .notScheduled
  | .roundTrip => l.renewed.unserialize l.serialize

end EtherLink

end Gem5
