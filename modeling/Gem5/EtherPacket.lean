import Gem5.Bytes

/-!
# Ethernet packets

`EthPacketData` of `etherpkt.hh`. `data` holds the first `length` bytes of the buffer only: no result
depends on what the bytes behind them are.
-/

namespace Gem5

open Bytes

structure EthPacket where
  data : List Byte
  bufLength : ℕ
  simLength : ℕ
  deriving DecidableEq, Repr

namespace EthPacket

def length (p : EthPacket) : ℕ := p.data.length

/-- `EthPacketData(size)`: an empty packet in a buffer of `size` bytes. -/
def alloc (size : ℕ) : EthPacket := ⟨[], size, 0⟩

end EthPacket

end Gem5
