import Gem5.Basic
import Gem5.EtherPacket

/-!
# The packet FIFO

`PacketFifo` of `pktfifo.hh`. It counts bytes, in the 32 bits of an `unsigned`: those of the packets
it holds, and those reserved for the packet that is pushed next.
-/

namespace Gem5

open Bytes

structure PacketFifoEntry where
  packet : EthPacket
  number : ℕ
  slack : BitVec 32
  deriving DecidableEq, Repr

structure PacketFifo where
  fifo : List PacketFifoEntry
  counter : ℕ
  maxsize : BitVec 32
  size : BitVec 32
  reserved : BitVec 32
  deriving DecidableEq, Repr

namespace PacketFifo

def init (max : BitVec 32) : PacketFifo := ⟨[], 0, max, 0, 0⟩

def packets (q : PacketFifo) : List EthPacket := q.fifo.map PacketFifoEntry.packet

def avail (q : PacketFifo) : BitVec 32 := q.maxsize - q.size - q.reserved

def empty (q : PacketFifo) : Bool := q.size = 0

def reserve (q : PacketFifo) (len : BitVec 32) : Except Halt PacketFifo := do
  require (len ≤ q.avail) "avail() >= len"
  return { q with reserved := q.reserved + len }

def front (q : PacketFifo) : Except Halt EthPacket :=
  match q.fifo with
  | [] => .error (.undefined "fifo.begin()->packet")
  | e :: _ => .ok e.packet

def push (q : PacketFifo) (p : EthPacket) : Except Halt (Option PacketFifo) := do
  let length := BitVec.ofNat 32 p.length
  require (length ≠ 0) "ptr->length"
  require (q.reserved ≤ length) "_reserved <= ptr->length"
  if q.avail < length - q.reserved then return none
  else return some { q with
    fifo := q.fifo ++ [⟨p, q.counter, 0⟩]
    counter := q.counter + 1
    size := q.size + length
    reserved := 0 }

def pop (q : PacketFifo) : Except Halt PacketFifo :=
  if q.empty then .ok q
  else match q.fifo with
    | [] => .error (.undefined "fifo.begin()->packet")
    | e :: rest => .ok { q with
        fifo := rest
        size := q.size - BitVec.ofNat 32 e.packet.length - e.slack }

def clear (q : PacketFifo) : PacketFifo := { q with fifo := [], size := 0, reserved := 0 }

/-- `remove` of the entry at a place. Its bytes go to the slack of the entry before it. -/
def remove (q : PacketFifo) (i : ℕ) : Except Halt PacketFifo :=
  match q.fifo[i]? with
  | none => .error (.undefined "fifo.erase(i)")
  | some e =>
    let length := BitVec.ofNat 32 e.packet.length
    if i = 0 then .ok { q with
      fifo := q.fifo.eraseIdx i
      size := q.size - length - e.slack }
    else .ok { q with
      fifo := (q.fifo.modify (i - 1) fun prev =>
        { prev with slack := prev.slack + length + e.slack }).eraseIdx i }

/-- `while (offset >= pkt->length)`: the iterator goes on, `pkt` does not. -/
def skipLoop (length : ℕ) : ℕ → ℕ → List PacketFifoEntry → Except Halt (ℕ × List PacketFifoEntry)
  | 0, _, _ => .error (.undefined "while (offset >= pkt->length)")
  | fuel + 1, offset, i =>
    if length ≤ offset then
      match i with
      | [] => .error (.undefined "++i")
      | _ :: i => skipLoop length fuel (offset - length) i
    else .ok (offset, i)

/-- The `while` loop of `copyout` from the iterator on, with the bytes it copies. -/
def copyLoop : ℕ → ℕ → ℕ → List PacketFifoEntry → Except Halt (List Byte)
  | 0, _, _, _ => .error (.undefined "while (len > 0)")
  | fuel + 1, offset, len, i =>
    if len = 0 then .ok []
    else match i with
      | [] => .error (.undefined "i->packet")
      | e :: _ => do
        let (offset, i) ← skipLoop e.packet.length (offset + 1) offset i
        match i with
        | [] => .error (.panic "invalid fifo")
        | _ :: i =>
          let size := min (e.packet.length - offset) len
          return e.packet.data.take size ++ (← copyLoop fuel 0 (len - size) i)

/-- The bytes that `copyout` writes to `dest`, if it returns true. -/
def copyout (q : PacketFifo) (offset len : BitVec 32) : Except Halt (Option (List Byte)) :=
  if q.size ≤ offset + len then .ok none
  else do return some (← copyLoop (len.toNat + 1) offset.toNat len.toNat q.fifo)

/-- The difference of two sequence numbers, which are 64 bits wide, as an `int`. -/
def countBetween (first last : ℕ) : ℤ :=
  ((BitVec.ofNat 64 last - BitVec.ofNat 64 first).setWidth 32).toInt

def countPacketsBefore (q : PacketFifo) (i : ℕ) : ℤ :=
  match q.fifo[i]?, q.fifo.head? with
  | some e, some first => countBetween first.number e.number
  | _, _ => 0

def countPacketsAfter (q : PacketFifo) (i : ℕ) : ℤ :=
  match q.fifo[i]?, q.fifo.getLast? with
  | some e, some last => countBetween e.number last.number
  | _, _ => 0

/-- What `serialize` writes. -/
structure Checkpoint where
  size : BitVec 32
  maxsize : BitVec 32
  reserved : BitVec 32
  entries : List PacketFifoEntry
  deriving DecidableEq, Repr

def serialize (q : PacketFifo) : Checkpoint := ⟨q.size, q.maxsize, q.reserved, q.fifo⟩

/-- `unserialize` of an object that already has its capacity. The counter is not in the checkpoint. -/
def unserialize (q : PacketFifo) (cp : Checkpoint) : PacketFifo :=
  { q with fifo := cp.entries, size := cp.size, reserved := cp.reserved }

inductive Op
  | push (p : EthPacket)
  | pop
  | remove (i : ℕ)
  | roundTrip
  deriving DecidableEq, Repr

/-- `roundTrip` writes a checkpoint and reads it into a new FIFO of the same capacity. -/
def step (q : PacketFifo) : Op → Except Halt PacketFifo
  | .push p => do return (← q.push p).getD q
  | .pop => q.pop
  | .remove i => q.remove i
  | .roundTrip => .ok ((init q.maxsize).unserialize q.serialize)

end PacketFifo

def PacketFifoEntry.tag (e : PacketFifoEntry) : ℕ × EthPacket := (e.number, e.packet)

/-- A FIFO in use, with the packets that it took, the entries that came out of it, and the ones that were
removed or cleared. -/
structure FifoUse where
  q : PacketFifo
  accepted : List EthPacket := []
  out : List (ℕ × EthPacket) := []
  dropped : List (ℕ × EthPacket) := []
  deriving DecidableEq, Repr

namespace FifoUse

inductive Op
  | push (p : EthPacket)
  | reserve (len : BitVec 32)
  | pop
  | remove (i : ℕ)
  | clear
  deriving DecidableEq, Repr

def step (u : FifoUse) : Op → Except Halt FifoUse
  | .push p => do
    match ← u.q.push p with
    | none => return u
    | some q => return { u with q := q, accepted := u.accepted ++ [p] }
  | .reserve len => do return { u with q := ← u.q.reserve len }
  | .pop => do return { u with
      q := ← u.q.pop
      out := u.out ++ if u.q.empty then [] else u.q.fifo.head?.toList.map (·.tag) }
  | .remove i => do return { u with
      q := ← u.q.remove i
      dropped := u.dropped ++ u.q.fifo[i]?.toList.map (·.tag) }
  | .clear => .ok { u with
      q := u.q.clear
      dropped := u.dropped ++ u.q.fifo.map (·.tag) }

end FifoUse

end Gem5
