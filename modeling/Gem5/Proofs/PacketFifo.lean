import Gem5.PacketFifo

/-!
# The packet FIFO's accounts

The recorded size is the sum of the lengths of the packets held, and with what is reserved it stays
within the capacity. So no difference of `avail` wraps around, a packet that was reserved in full
always fits, and the FIFO is empty when its size is 0.
-/

namespace Gem5

namespace PacketFifo

open Machine

variable {q q' : PacketFifo} {p : EthPacket}

/-- The bytes of the packets held, with the slack of those removed behind them. -/
def stored (l : List PacketFifoEntry) : ℕ :=
  (l.map fun e => e.packet.length + e.slack.toNat).sum

structure Accounted (q : PacketFifo) : Prop where
  size_eq : q.size.toNat = stored q.fifo
  size_le : q.size.toNat + q.reserved.toNat ≤ q.maxsize.toNat
  nonempty : ∀ e ∈ q.fifo, e.packet.length ≠ 0

@[simp] theorem stored_nil : stored [] = 0 := rfl

@[simp] theorem stored_cons (e : PacketFifoEntry) (l : List PacketFifoEntry) :
    stored (e :: l) = e.packet.length + e.slack.toNat + stored l := by simp [stored]

@[simp] theorem stored_append (l m : List PacketFifoEntry) :
    stored (l ++ m) = stored l + stored m := by simp [stored]

namespace Accounted

theorem init (max : BitVec 32) : Accounted (PacketFifo.init max) where
  size_eq := rfl
  size_le := by simp [PacketFifo.init]
  nonempty := by simp [PacketFifo.init]

theorem avail_toNat (hq : Accounted q) :
    q.avail.toNat = q.maxsize.toNat - q.size.toNat - q.reserved.toNat := by
  have hle := hq.size_le
  unfold avail
  bv_omega

theorem empty_iff (hq : Accounted q) : q.empty = true ↔ q.fifo = [] := by
  have hsize := hq.size_eq
  simp only [empty, decide_eq_true_eq]
  constructor
  · intro h
    cases hf : q.fifo with
    | nil => rfl
    | cons e rest =>
      rw [h, hf, stored_cons] at hsize
      have := hq.nonempty e (by simp [hf])
      simp only [BitVec.ofNat_eq_ofNat, BitVec.toNat_ofNat, Nat.zero_mod] at hsize
      omega
  · intro h
    rw [h, stored_nil] at hsize
    exact BitVec.eq_of_toNat_eq hsize

theorem empty_eq_false (hq : Accounted q) {e : PacketFifoEntry} {rest : List PacketFifoEntry}
    (hf : q.fifo = e :: rest) : q.empty = false := by
  rw [Bool.eq_false_iff]
  intro h
  simp [hq.empty_iff.1 h] at hf

theorem reserve (hq : Accounted q) {len : BitVec 32} (h : q.reserve len = .ok q') :
    Accounted q' ∧ q'.reserved.toNat = q.reserved.toNat + len.toNat ∧ q'.fifo = q.fifo
      ∧ q'.counter = q.counter := by
  simp only [PacketFifo.reserve, bind_ok, require_ok] at h
  obtain ⟨-, hle, h⟩ := h
  cases h
  have hav := hq.avail_toNat
  have hcap := hq.size_le
  have hsum : (q.reserved + len).toNat = q.reserved.toNat + len.toNat := by bv_omega
  refine ⟨⟨hq.size_eq, ?_, hq.nonempty⟩, hsum, rfl, rfl⟩
  rw [BitVec.le_def] at hle
  simp only [hsum]
  omega

theorem reserve_ok {len : BitVec 32} (h : len ≤ q.avail) : ∃ q', q.reserve len = .ok q' :=
  ⟨_, bind_ok.2 ⟨(), require_ok.2 h, rfl⟩⟩

theorem snoc (hq : Accounted q) (hp : p.length ≠ 0) {size : BitVec 32}
    (hsize : size.toNat = q.size.toNat + p.length) (hle : size.toNat ≤ q.maxsize.toNat) :
    Accounted { q with
      fifo := q.fifo ++ [⟨p, q.counter, 0⟩]
      counter := q.counter + 1
      size := size
      reserved := 0 } := by
  refine ⟨?_, by simpa using hle, ?_⟩
  · simp only [hsize, hq.size_eq, stored_append, stored_cons, stored_nil]
    simp
  · intro e he
    rcases List.mem_append.1 he with he | he
    · exact hq.nonempty e he
    · rwa [List.mem_singleton.1 he]

theorem push (hq : Accounted q) (hp : p.length ≠ 0) (hr : q.reserved.toNat = p.length) :
    ∃ q', q.push p = .ok (some q') ∧ Accounted q' ∧ q'.reserved = 0
      ∧ q'.packets = q.packets ++ [p] ∧ q'.maxsize = q.maxsize := by
  have hlen : BitVec.ofNat 32 p.length = q.reserved := by rw [← hr, BitVec.ofNat_toNat]; simp
  have hne : q.reserved ≠ 0 := by
    intro h0
    rw [h0] at hr
    exact hp hr.symm
  have hcap := hq.size_le
  have hsum : (q.size + q.reserved).toNat = q.size.toNat + q.reserved.toNat := by bv_omega
  refine ⟨{ q with
    fifo := q.fifo ++ [⟨p, q.counter, 0⟩]
    counter := q.counter + 1
    size := q.size + q.reserved
    reserved := 0 }, ?_, ?_, rfl, ?_, rfl⟩
  · simp only [PacketFifo.push, hlen, bind_ok, require_ok]
    refine ⟨(), hne, (), BitVec.le_refl _, ?_⟩
    rw [if_neg (by simp)]
    rfl
  · exact hq.snoc hp (by rw [hsum, hr]) (by rwa [hsum])
  · simp [packets]

theorem tail (hq : Accounted q) {e : PacketFifoEntry} {rest : List PacketFifoEntry}
    (hf : q.fifo = e :: rest) : Accounted { q with
      fifo := rest, size := q.size - BitVec.ofNat 32 e.packet.length - e.slack } := by
  have hsize := hq.size_eq
  have hcap := hq.size_le
  rw [hf, stored_cons] at hsize
  have hmax := q.maxsize.isLt
  have hleft : (q.size - BitVec.ofNat 32 e.packet.length - e.slack).toNat = stored rest := by
    have hlt : e.packet.length < 2 ^ 32 := by omega
    have : (BitVec.ofNat 32 e.packet.length).toNat = e.packet.length := by
      rw [BitVec.toNat_ofNat, Nat.mod_eq_of_lt hlt]
    bv_omega
  refine ⟨hleft, ?_, fun e' he' => hq.nonempty e' (by rw [hf]; exact List.mem_cons_of_mem _ he')⟩
  simp only [hleft]
  omega

theorem pop (hq : Accounted q) {e : PacketFifoEntry} {rest : List PacketFifoEntry}
    (hf : q.fifo = e :: rest) : ∃ q', q.pop = .ok q' ∧ Accounted q' ∧ q'.fifo = rest
      ∧ q'.reserved = q.reserved ∧ q'.maxsize = q.maxsize ∧ q'.counter = q.counter := by
  refine ⟨_, ?_, hq.tail hf, rfl, rfl, rfl, rfl⟩
  simp only [PacketFifo.pop, hq.empty_eq_false hf, hf]
  rfl

end Accounted

end PacketFifo

end Gem5
