import Gem5.PacketFifo

/-!
# Bytes copied out of the packet FIFO

The offset is taken off in steps of the length of the first packet, and the first bytes copied are
those at the start of that packet. So `copyout` is right for offset 0, and elsewhere where the bytes
happen to agree. It refuses to copy up to the last byte.
-/

namespace Gem5

open Machine Bytes List

namespace PacketFifo

variable {q : PacketFifo} {l : List PacketFifoEntry} {e : PacketFifoEntry} {n : ℕ}

/-- The bytes of the packets, one after the other. -/
def bytesOf (l : List PacketFifoEntry) : List Byte := l.flatMap fun e => e.packet.data

/-- `copyout` copies what is at the offset if there is so much, and refuses it otherwise. -/
def CopiesOut (q : PacketFifo) (offset len : BitVec 32) : Prop :=
  q.copyout offset len = .ok (if offset.toNat + len.toNat ≤ (bytesOf q.fifo).length
    then some (slice (bytesOf q.fifo) offset.toNat len.toNat) else none)

/-- What is copied from a FIFO with `e` in front. -/
def skewed (e : PacketFifoEntry) (rest : List PacketFifoEntry) (offset : ℕ) : List Byte :=
  e.packet.data.take (e.packet.length - offset % e.packet.length)
    ++ bytesOf (rest.drop (offset / e.packet.length))

/-- The size tells what fits, and what is copied is what is at the offset. -/
def Agrees (q : PacketFifo) (offset len : BitVec 32) : Prop :=
  (offset.toNat + len.toNat ≤ (bytesOf q.fifo).length ↔ offset + len < q.size)
    ∧ (offset.toNat + len.toNat ≤ (bytesOf q.fifo).length → len = 0
      ∨ ∃ e ∈ q.fifo.head?, offset.toNat / e.packet.length < q.fifo.length
        ∧ (skewed e q.fifo.tail offset.toNat).take len.toNat
          = slice (bytesOf q.fifo) offset.toNat len.toNat)

instance (q : PacketFifo) (offset len : BitVec 32) : Decidable (q.Agrees offset len) :=
  inferInstanceAs (Decidable (_ ∧ _))

theorem skipLoop_iff (hn : 0 < n) {r : ℕ × List PacketFifoEntry} : ∀ {fuel offset : ℕ}
    {l : List PacketFifoEntry}, offset < fuel → (skipLoop n fuel offset l = .ok r ↔
      offset / n ≤ l.length ∧ r = (offset % n, l.drop (offset / n)))
  | fuel + 1, offset, l, hf => by
    unfold skipLoop
    by_cases hle : n ≤ offset
    · have hdiv : offset / n = (offset - n) / n + 1 := Nat.div_eq_sub_div hn hle
      rw [if_pos hle, hdiv, Nat.mod_eq_sub_mod hle]
      cases l with
      | nil => simp
      | cons e l => simp [skipLoop_iff hn (show offset - n < fuel by omega)]
    · rw [if_neg hle, Nat.div_eq_of_lt (by omega), Nat.mod_eq_of_lt (by omega)]
      simp [eq_comm]

theorem copyLoop_cons {fuel offset len : ℕ} (hn : 0 < e.packet.length) (hlen : len ≠ 0)
    {b : List Byte} : copyLoop (fuel + 1) offset len (e :: l) = .ok b ↔
      offset / e.packet.length ≤ l.length ∧ ∃ b', copyLoop fuel 0
        (len - min (e.packet.length - offset % e.packet.length) len)
        (l.drop (offset / e.packet.length)) = .ok b'
      ∧ e.packet.data.take (min (e.packet.length - offset % e.packet.length) len) ++ b' = b := by
  conv_lhs => unfold copyLoop
  simp only [if_neg hlen, bind_ok, skipLoop_iff hn (Nat.lt_succ_self offset), length_cons]
  constructor
  · rintro ⟨r, ⟨hle, rfl⟩, h⟩
    rcases Nat.lt_or_ge (offset / e.packet.length) (e :: l).length with hlt | hge
    · rw [drop_eq_getElem_cons hlt, drop_succ_cons] at h
      exact ⟨Nat.le_of_lt_succ hlt, bind_pure_ok.1 h⟩
    · simp [drop_of_length_le hge] at h
  · rintro ⟨hle, h⟩
    refine ⟨_, ⟨by omega, rfl⟩, ?_⟩
    have hlt : offset / e.packet.length < (e :: l).length := Nat.lt_succ_of_le hle
    rw [drop_eq_getElem_cons hlt, drop_succ_cons]
    exact bind_pure_ok.2 h

theorem take_append_min {x y : List Byte} {m len : ℕ} (hm : m ≤ x.length) :
    x.take (min m len) ++ y.take (len - min m len) = (x.take m ++ y).take len := by
  rw [take_append, take_take, length_take, Nat.min_comm len, min_eq_left hm]
  congr 2
  omega

/-- From the start of a packet on, the bytes are copied in order. -/
theorem copyLoop_zero {b : List Byte} : ∀ {fuel len : ℕ} (l : List PacketFifoEntry), len < fuel →
    (∀ e ∈ l, e.packet.length ≠ 0) → (copyLoop fuel 0 len l = .ok b ↔
      len ≤ (bytesOf l).length ∧ (bytesOf l).take len = b)
  | fuel + 1, len, l, hf, hl => by
    by_cases h0 : len = 0
    · simp [copyLoop, h0]
    cases l with
    | nil => simp [copyLoop, h0, bytesOf]
    | cons e l =>
      have hpos : 0 < e.packet.length := Nat.pos_of_ne_zero (hl e mem_cons_self)
      have hlen : (bytesOf (e :: l)).length = e.packet.length + (bytesOf l).length :=
        length_append
      have htake : e.packet.data.take (min e.packet.length len)
          ++ (bytesOf l).take (len - min e.packet.length len) = (bytesOf (e :: l)).take len := by
        rw [EthPacket.length, take_append_min le_rfl, take_length]
        rfl
      rw [copyLoop_cons hpos h0, Nat.zero_mod, Nat.zero_div, Nat.sub_zero, drop_zero, hlen]
      simp only [copyLoop_zero l (show len - min e.packet.length len < fuel by omega)
        fun e' he' => hl e' (mem_cons_of_mem _ he')]
      constructor
      · rintro ⟨-, b', ⟨hle, rfl⟩, rfl⟩
        exact ⟨by omega, htake.symm⟩
      · rintro ⟨hle, rfl⟩
        exact ⟨Nat.zero_le _, _, ⟨by omega, rfl⟩, htake⟩

theorem copyLoop_skewed {fuel len : ℕ} (offset : ℕ) (hl : ∀ e' ∈ e :: l, e'.packet.length ≠ 0)
    (hf : len ≤ fuel) (hlen : len ≠ 0) {b : List Byte} (hb : b.length = len) :
    copyLoop (fuel + 1) offset len (e :: l) = .ok b ↔
      offset / e.packet.length ≤ l.length ∧ (skewed e l offset).take len = b := by
  have hpos : 0 < e.packet.length := Nat.pos_of_ne_zero (hl e mem_cons_self)
  have hmod := Nat.mod_lt offset hpos
  have hle : e.packet.length - offset % e.packet.length ≤ e.packet.data.length := Nat.sub_le _ _
  rw [copyLoop_cons hpos hlen, skewed, ← take_append_min hle]
  refine and_congr_right fun _ => ?_
  simp only [copyLoop_zero _ (show len - min (e.packet.length - offset % e.packet.length) len < fuel
    by omega) fun e' he' => hl e' (mem_cons_of_mem _ (mem_of_mem_drop he'))]
  constructor
  · rintro ⟨b', ⟨-, rfl⟩, h⟩
    exact h
  · rintro rfl
    rw [length_append, length_take, length_take, min_eq_left (by omega)] at hb
    exact ⟨_, ⟨by omega, rfl⟩, rfl⟩

theorem skewed_zero (e : PacketFifoEntry) (l : List PacketFifoEntry) :
    skewed e l 0 = bytesOf (e :: l) := by
  have hdata : e.packet.data.length = e.packet.length := rfl
  rw [skewed, Nat.zero_mod, Nat.zero_div, Nat.sub_zero, ← hdata, take_length, drop_zero]
  rfl

/-- Two packets, of three bytes and of one. -/
def twoPackets : PacketFifo :=
  ⟨[⟨⟨[1, 2, 3], 3, 3⟩, 0, 0⟩, ⟨⟨[4], 1, 1⟩, 1, 0⟩], 2, 16, 4, 0⟩

end PacketFifo

end Gem5
