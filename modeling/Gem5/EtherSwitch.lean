import Gem5.Basic
import Gem5.EtherPacket

/-!
# The Ethernet switch

`EtherSwitch` of `etherswitch.cc`. A frame is put into the output queue of the port that its
destination was learned on, or of every other port. Entries not used for the time to live are erased
when they are looked up. The delays of a frame come with each operation. `frames` is history.
-/

namespace Gem5

open Bytes

abbrev EthAddr := List Byte

namespace EthAddr

def toNat (a : EthAddr) : ℕ := fromBE a

def unicast (a : EthAddr) : Bool := a.getD 0 0 &&& 1 == 0

def broadcast (a : EthAddr) : Bool := a.all (· == 0xff)

def multicast (a : EthAddr) : Bool := !a.unicast && !a.broadcast

end EthAddr

namespace EtherSwitch

/-- A frame as the ports see it. `ptr` is the identity of the shared pointer. -/
structure Frame where
  ptr : ℕ
  packet : EthPacket
  deriving DecidableEq, Repr

namespace Frame

def dest (f : Frame) : EthAddr := slice f.packet.data 0 6

def src (f : Frame) : EthAddr := slice f.packet.data 6 6

end Frame

structure PortFifoEntry where
  frame : Frame
  recvTick : ℕ
  srcId : ℕ
  deriving DecidableEq, Repr

namespace PortFifoEntry

/-- `EntryOrder`. -/
def before (e e' : PortFifoEntry) : Bool :=
  if e.recvTick = e'.recvTick then e.srcId < e'.srcId else e.recvTick < e'.recvTick

def length (e : PortFifoEntry) : BitVec 32 := BitVec.ofNat 32 e.frame.packet.length

end PortFifoEntry

/-- The output queue of a port, a set in `EntryOrder`. -/
structure PortFifo where
  fifo : List PortFifoEntry
  maxsize : BitVec 32
  size : BitVec 32
  deriving DecidableEq, Repr

namespace PortFifo

def emplace (e : PortFifoEntry) : List PortFifoEntry → List PortFifoEntry
  | [] => [e]
  | e' :: l =>
    if e.before e' then e :: e' :: l
    else if e'.before e then e' :: emplace e l
    else e' :: l

/-- `avail() < 0`. -/
def overfull (maxsize size : BitVec 32) : Bool := (maxsize - size).slt 0

/-- Drops entries from the end, here the head of the reversed list, until the size is in bounds. -/
def dropExtra (maxsize : BitVec 32) : BitVec 32 → List PortFifoEntry →
    Except Halt (BitVec 32 × List PortFifoEntry)
  | size, [] =>
    if overfull maxsize size then .error (.undefined "std::prev(fifo.end())") else .ok (size, [])
  | size, e :: l =>
    if overfull maxsize size then dropExtra maxsize (size - e.length) l else .ok (size, e :: l)

def empty (q : PortFifo) : Bool := q.size = 0

def push (q : PortFifo) (curTick : ℕ) (f : Frame) (senderId : ℕ) :
    Except Halt (PortFifo × Bool) := do
  let e : PortFifoEntry := ⟨f, curTick, senderId⟩
  require (e.length ≠ 0) "ptr->length"
  let (size, l) ← dropExtra q.maxsize (q.size + e.length) (emplace e q.fifo).reverse
  let q' := { q with fifo := l.reverse, size := size }
  if q'.empty then return (q', false)
  else
    match q'.fifo with
    | [] => .error (.undefined "fifo.begin()->packet")
    | e' :: _ => return (q', e'.frame.ptr = f.ptr)

def pop (q : PortFifo) : Except Halt PortFifo :=
  if q.empty then .ok q
  else
    match q.fifo with
    | [] => .error (.undefined "fifo.begin()->packet")
    | e :: l => do
      require (e.length ≤ q.size) "_size >= fifo.begin()->packet->length"
      return { q with fifo := l, size := q.size - e.length }

end PortFifo

structure Interface where
  outputFifo : PortFifo
  txEvent : Option ℕ
  deriving DecidableEq, Repr

structure SwitchTableEntry where
  interface : ℕ
  lastUseTime : ℕ
  deriving DecidableEq, Repr

structure Arrival where
  tick : ℕ
  port : ℕ
  src : ℕ
  deriving DecidableEq, Repr

end EtherSwitch

structure EtherSwitch where
  ttl : ℕ
  interfaces : List EtherSwitch.Interface
  forwardingTable : Finmap fun _ : ℕ => EtherSwitch.SwitchTableEntry
  curTick : ℕ
  frames : List EtherSwitch.Arrival

namespace EtherSwitch

def init (ports : ℕ) (outputBufferSize : BitVec 32) (ttl : ℕ) : EtherSwitch :=
  ⟨ttl, List.replicate ports ⟨⟨[], outputBufferSize, 0⟩, none⟩, ∅, 0, []⟩

def learnSenderAddr (s : EtherSwitch) (srcMacAddr : EthAddr) (sender : ℕ) : EtherSwitch :=
  match s.forwardingTable.lookup srcMacAddr.toNat with
  | none => { s with
      forwardingTable := s.forwardingTable.insert srcMacAddr.toNat ⟨sender, s.curTick⟩ }
  | some e => { s with
      forwardingTable := s.forwardingTable.insert srcMacAddr.toNat
        { e with lastUseTime := s.curTick } }

def lookupDestPort (s : EtherSwitch) (destMacAddr : EthAddr) : EtherSwitch × Option ℕ :=
  match s.forwardingTable.lookup destMacAddr.toNat with
  | none => (s, none)
  | some e =>
    if s.curTick - e.lastUseTime > s.ttl then
      ({ s with forwardingTable := s.forwardingTable.erase destMacAddr.toNat }, none)
    else (s, some e.interface)

def others (s : EtherSwitch) (port : ℕ) : List ℕ :=
  (List.range s.interfaces.length).filter (· ≠ port)

/-- What `recvPacket` does to the table, and the ports it puts the frame on. -/
def route (s : EtherSwitch) (port : ℕ) (f : Frame) : EtherSwitch × List ℕ :=
  let (s, receiver) := (s.learnSenderAddr f.src port).lookupDestPort f.dest
  match receiver with
  | none => (s, s.others port)
  | some r => if f.dest.multicast || f.dest.broadcast then (s, s.others port) else (s, [r])

def txAfterPush (curTick : ℕ) (txEvent : Option ℕ) (delay : ℕ) (atHead : Bool) :
    Except Halt (Option ℕ) :=
  if atHead then reschedule curTick txEvent (curTick + delay) true else .ok txEvent

def enqueue (s : EtherSwitch) (f : Frame) (senderId : ℕ) (delays : List ℕ) (i : ℕ) :
    Except Halt EtherSwitch :=
  match s.interfaces[i]? with
  | none => .error (.outOfBounds "interfaces")
  | some p => do
    let pushed ← p.outputFifo.push s.curTick f senderId
    let tx ← txAfterPush s.curTick p.txEvent (delays.getD i 0) pushed.2
    return { s with interfaces := s.interfaces.set i ⟨pushed.1, tx⟩ }

def enqueueAll (f : Frame) (senderId : ℕ) (delays : List ℕ) :
    EtherSwitch → List ℕ → Except Halt EtherSwitch
  | s, [] => .ok s
  | s, i :: l => s.enqueue f senderId delays i >>= fun s' => enqueueAll f senderId delays s' l

def recvPacket (s : EtherSwitch) (port : ℕ) (f : Frame) (delays : List ℕ) :
    Except Halt EtherSwitch := do
  inBounds (12 ≤ f.packet.length) "packet->data"
  enqueueAll f port delays
    { (s.route port f).1 with frames := s.frames ++ [⟨s.curTick, port, f.src.toNat⟩] }
    (s.route port f).2

def ns : ℕ := 1000

def txAfterBusy (curTick : ℕ) : Option ℕ → Except Halt (Option ℕ)
  | some t => .ok (some t)
  | none => schedule curTick none (curTick + ns)

def txAfterSend (curTick : ℕ) (txEvent : Option ℕ) (delay : ℕ) (q : PortFifo) :
    Except Halt (Option ℕ) :=
  if q.empty then .ok txEvent else schedule curTick txEvent (curTick + delay)

/-- `transmit` of a port, whose peer takes the frame or not. -/
def transmit (s : EtherSwitch) (i : ℕ) (accepted : Bool) (delay : ℕ) : Except Halt EtherSwitch :=
  match s.interfaces[i]? with
  | none => .error (.outOfBounds "interfaces")
  | some p => do
    require (p.outputFifo.empty = false) "!outputFifo.empty()"
    match p.outputFifo.fifo, accepted with
    | [], _ => .error (.undefined "fifo.begin()->packet")
    | _ :: _, false => do
      let tx ← txAfterBusy s.curTick p.txEvent
      return { s with interfaces := s.interfaces.set i { p with txEvent := tx } }
    | _ :: _, true => do
      let q ← p.outputFifo.pop
      let tx ← txAfterSend s.curTick p.txEvent delay q
      return { s with interfaces := s.interfaces.set i ⟨q, tx⟩ }

inductive Op
  | recvPacket (port : ℕ) (f : Frame) (delays : List ℕ)
  | txEvent (port : ℕ) (accepted : Bool) (delay : ℕ)
  | advance (tick : ℕ)
  deriving DecidableEq, Repr

def fire (s : EtherSwitch) (i : ℕ) : EtherSwitch :=
  { s with interfaces := s.interfaces.modify i fun p => { p with txEvent := none } }

def step (s : EtherSwitch) : Op → Except Halt EtherSwitch
  | .recvPacket port f delays =>
    if port < s.interfaces.length then s.recvPacket port f delays else .error .notScheduled
  | .txEvent i accepted delay =>
    if s.interfaces[i]?.bind Interface.txEvent = some s.curTick then
      (s.fire i).transmit i accepted delay
    else .error .notScheduled
  | .advance tick =>
    if s.curTick ≤ tick ∧ ∀ p ∈ s.interfaces, ∀ t ∈ p.txEvent, tick ≤ t then
      .ok { s with curTick := tick }
    else .error .notScheduled

def lastFrom (frames : List Arrival) (m : ℕ) : Option Arrival :=
  (frames.filter (·.src = m)).getLast?

/-- Where a frame belongs: on the port of the last frame from its address, if that is an address of
one station and was heard within the time to live, and else on every other port. -/
def properPorts (s : EtherSwitch) (port : ℕ) (f : Frame) : List ℕ :=
  match lastFrom (s.frames ++ [⟨s.curTick, port, f.src.toNat⟩]) f.dest.toNat with
  | none => s.others port
  | some a =>
    if f.dest.unicast ∧ s.curTick - a.tick ≤ s.ttl then [a.port] else s.others port

namespace Interface

/-- What `enqueue` does to the port itself. -/
def enqueue (p : Interface) (curTick : ℕ) (f : Frame) (senderId delay : ℕ) :
    Except Halt Interface := do
  let pushed ← p.outputFifo.push curTick f senderId
  let tx ← txAfterPush curTick p.txEvent delay pushed.2
  return ⟨pushed.1, tx⟩

/-- What `transmit` does to the port itself. -/
def transmit (p : Interface) (curTick : ℕ) (accepted : Bool) (delay : ℕ) : Except Halt Interface := do
  require (p.outputFifo.empty = false) "!outputFifo.empty()"
  match p.outputFifo.fifo, accepted with
  | [], _ => .error (.undefined "fifo.begin()->packet")
  | _ :: _, false => do
    let tx ← txAfterBusy curTick p.txEvent
    return { p with txEvent := tx }
  | _ :: _, true => do
    let q ← p.outputFifo.pop
    let tx ← txAfterSend curTick p.txEvent delay q
    return ⟨q, tx⟩

end Interface

structure PortUse where
  port : Interface
  curTick : ℕ
  deriving DecidableEq, Repr

namespace PortUse

inductive Op
  | enqueue (f : Frame) (senderId delay : ℕ)
  | txEvent (accepted : Bool) (delay : ℕ)
  | advance (tick : ℕ)
  deriving DecidableEq, Repr

def init (outputBufferSize : BitVec 32) : PortUse := ⟨⟨⟨[], outputBufferSize, 0⟩, none⟩, 0⟩

def step (u : PortUse) : Op → Except Halt PortUse
  | .enqueue f senderId delay => do return { u with
      port := ← u.port.enqueue u.curTick f senderId delay }
  | .txEvent accepted delay =>
    if u.port.txEvent = some u.curTick then do return { u with
      port := ← { u.port with txEvent := none }.transmit u.curTick accepted delay }
    else .error .notScheduled
  | .advance tick =>
    if u.curTick ≤ tick ∧ ∀ t ∈ u.port.txEvent, tick ≤ t then .ok { u with curTick := tick }
    else .error .notScheduled

end PortUse

def Settled (s : EtherSwitch) : Op → Prop
  | .recvPacket port f _ =>
    ∀ e, s.forwardingTable.lookup f.src.toNat = some e → e.interface = port
  | _ => True

/-- The frame is not for a station that the switch has on the port the frame came in on. A frame to
its own sender is for the port the switch has for the sender, which is the one of the frame if there
is none yet. -/
def Elsewhere (s : EtherSwitch) (port : ℕ) (f : Frame) : Prop :=
  f.dest.multicast = true ∨ f.dest.broadcast = true ∨
    match s.forwardingTable.lookup f.dest.toNat with
    | none => f.dest.toNat ≠ f.src.toNat
    | some e =>
      e.interface ≠ port ∨ f.dest.toNat ≠ f.src.toNat ∧ s.ttl < s.curTick - e.lastUseTime

end EtherSwitch

end Gem5
