import Gem5.LoadGenerator

/-!
# The latency the load generator measures

The time stamp is written at bytes 14 to 21 and read back at bytes 8 to 15. What is read are six
bytes of the header the packet came back with and the two lowest bytes of the time stamp
(`EchoesStamp`).
-/

namespace Gem5

open List

namespace LoadGenerator

open Bytes Machine

/-- The last six bytes of the header are the low six bytes of the tick, whose other two bytes are
its low two again. -/
def EchoesStamp (header : List Byte) (tick : ℕ) : Prop :=
  header.drop 8 = (toLE 8 tick).take 6 ∧ (toLE 8 tick).take 2 = (toLE 8 tick).drop 6

instance (header : List Byte) (tick : ℕ) : Decidable (EchoesStamp header tick) :=
  inferInstanceAs (Decidable (_ ∧ _))

theorem buildPacket_drop {s : LoadGenerator} {p₀ : EthPacket} (hp : 22 ≤ p₀.length) :
    ∃ p, s.buildPacket p₀ = .ok p ∧ p.data.length = p₀.data.length
      ∧ ∃ rest, p.data.drop macHeaderSize = toLE 8 s.curTick ++ rest := by
  have hp' : 22 ≤ p₀.data.length := hp
  have hbuild : s.buildPacket p₀ = .ok { p₀ with
      data := splice (splice p₀.data 0
        (dstMac s.loadgenId ++ srcMac s.loadgenId ++ toBE 2 p₀.length)) macHeaderSize
        (toLE 8 s.curTick) } := by
    refine bind_ok.2 ⟨(), inBounds_ok.2 ?_, bind_ok.2 ⟨(), inBounds_ok.2 hp, rfl⟩⟩
    exact (show macHeaderSize ≤ 22 by decide).trans hp
  refine ⟨_, hbuild, by rw [length_splice, length_splice], _, drop_splice ?_⟩
  rwa [length_splice, length_toLE]

theorem slice_header {header body : List Byte} (hh : header.length = macHeaderSize) :
    slice (header ++ body) 8 8 = header.drop 8 ++ body.take 2 := by
  have hd : (header.drop 8).length = 6 := by
    rw [length_drop, hh]
    rfl
  rw [slice, drop_append_of_le_length (by rw [hh]; decide), take_append, hd,
    take_of_length_le (by omega)]

theorem echoesStamp_iff {header : List Byte} (hh : header.length = macHeaderSize) {tick : ℕ}
    (ht : tick < 2 ^ 64) :
    fromLE (header.drop 8 ++ (toLE 8 tick).take 2) = tick ↔ EchoesStamp header tick := by
  have hd : (header.drop 8).length = 6 := by
    rw [length_drop, hh]
    rfl
  have hl : (header.drop 8 ++ (toLE 8 tick).take 2).length = 8 := by simp [hd]
  rw [fromLE_eq_iff hl (by simpa using ht)]
  constructor
  · intro h
    exact append_inj (h.trans (take_append_drop 6 _).symm) (by simp [hd])
  · rintro ⟨h1, h2⟩
    rw [h1, h2, take_append_drop]

theorem tickSub_eq_iff {r s t : ℕ} (hr : r < 2 ^ 64) (hsr : s ≤ r) (ht : t < 2 ^ 64) :
    (tickSub r t).toNat = r - s ↔ t = s := by
  unfold tickSub
  rw [BitVec.toNat_sub, BitVec.toNat_ofNat, BitVec.toNat_ofNat, Nat.mod_eq_of_lt hr,
    Nat.mod_eq_of_lt ht]
  omega

/-- A packet built at one tick comes back with another header at a later one. The latency is taken
from the ticks in between exactly if the header echoes the time stamp. -/
theorem latency_iff_echoesStamp {s r : LoadGenerator} {p₀ : EthPacket} (hp : 22 ≤ p₀.length)
    (hsr : s.curTick ≤ r.curTick) (hr : r.curTick < 2 ^ 64) {header : List Byte}
    (hh : header.length = macHeaderSize) :
    ∃ p r' l, s.buildPacket p₀ = .ok p
      ∧ r.processRxPkt { p with data := header ++ p.data.drop macHeaderSize } = .ok r'
      ∧ r'.latency = r.latency ++ [l]
      ∧ (l.toNat = r.curTick - s.curTick ↔ EchoesStamp header s.curTick) := by
  obtain ⟨p, hbuild, hlen, rest, hrest⟩ := buildPacket_drop (s := s) hp
  have hin : 8 + 8 ≤ (header ++ p.data.drop macHeaderSize).length := by
    rw [length_append, hh, length_drop, hlen]
    have : 22 ≤ p₀.data.length := hp
    simp only [macHeaderSize]
    omega
  refine ⟨p, _, _, hbuild, bind_ok.2 ⟨(), inBounds_ok.2 hin, rfl⟩, rfl, ?_⟩
  have hst : s.curTick < 2 ^ 64 := lt_of_le_of_lt hsr hr
  have hstamp : readStamp { p with data := header ++ p.data.drop macHeaderSize }
      = fromLE (header.drop 8 ++ (toLE 8 s.curTick).take 2) := by
    rw [readStamp, slice_header hh, hrest, take_append_of_le_length (by simp)]
  have hlt := fromLE_lt (header.drop 8 ++ (toLE 8 s.curTick).take 2)
  rw [length_append, length_drop, hh, length_take, length_toLE] at hlt
  rw [hstamp, tickSub_eq_iff hr hsr (by simpa [macHeaderSize] using hlt), echoesStamp_iff hh hst]

def smallParams : Params where
  loadgenId := 0
  packetSize := 22
  packetRate := 1000
  startTick := 999
  stopTick := 10000
  burstWidth := 0
  burstGap := 0
  mode := .static

def smallPacket : EthPacket where
  data := [0x00, 0x90, 0x00, 0x00, 0x00, 0x01, 0x00, 0x80, 0x00, 0x00, 0x00, 0x01, 0x00, 0x16,
    0xe8, 0x03, 0x00, 0x00, 0x00, 0x00, 0x00, 0x00]
  bufLength := 22
  simLength := 0

def smallAt (tick : ℕ) : LoadGenerator where
  mode := .static
  loadgenId := 0
  packetSize := 22
  packetRate := 1000
  startTick := 999
  stopTick := 10000
  incrementInterval := 2840909
  burstWidth := 0
  burstGap := 0
  burstStartTick := 0
  lastRxCount := 0
  lastTxCount := 0
  sendPacketEvent := none
  checkLossEvent := none
  curTick := tick
  sent := []
  latency := []

def echoHeader : List Byte := [0, 0, 0, 0, 0, 0, 0, 0, 0, 0, 1, 0, 0, 0]

theorem latency_iff_echoesStamp_smallAt : EchoesStamp echoHeader 65536
    ∧ ∃ p r' l, (smallAt 65536).buildPacket smallPacket = .ok p
      ∧ (smallAt 70000).processRxPkt { p with
          data := echoHeader ++ p.data.drop macHeaderSize } = .ok r'
      ∧ r'.latency = [] ++ [l]
      ∧ (l.toNat = 70000 - 65536 ↔ EchoesStamp echoHeader 65536) :=
  ⟨by decide, latency_iff_echoesStamp (s := smallAt 65536) (r := smallAt 70000) (by decide)
    (by decide) (by decide) (by decide)⟩

/-- A packet sent at tick 1000 comes back unchanged at tick 3000, and the latency taken is not from
2000 ticks. -/
theorem latency_wrong : ∃ s, simulate smallParams
      [.startup, .advance 1000, .sendPacketEvent (List.replicate 22 0), .advance 3000,
        .recvPacket smallPacket] = .ok s
    ∧ s.sent = [smallPacket] ∧ s.latency ≠ [2000] := by
  have hend : Ends (simulate smallParams
      [.startup, .advance 1000, .sendPacketEvent (List.replicate 22 0), .advance 3000,
        .recvPacket smallPacket]) fun s => s.sent = [smallPacket] ∧ s.latency ≠ [2000] := by
    decide
  exact hend.exists

end LoadGenerator

end Gem5
