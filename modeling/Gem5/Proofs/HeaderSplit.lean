import Gem5.Proofs.FifoOrder
import Gem5.Proofs.RxPath

/-!
# What is written into receive buffers

While DMAs are on the bus the state machine waits for them, so the parts written so far are the bytes
of the first packet up to `pktOffset` (`Tracked`). A header that is longer than the header buffer is
written all the same, and a reset of the receiver forgets the packet but not the offset.
-/

namespace Gem5

open List

namespace RxPath

variable {rest : List (Cached RxDesc)} {ws : List RxWrite}

open Bytes Machine

variable {P : NicParams} {s s' t : RxPath} {p : EthPacket} {c : Cached RxDesc}

/-- The DMAs on the bus, and `splitCount`. -/
inductive OnBus : List RxWrite → ℕ → Prop
  | none : OnBus [] 0
  | whole {w : RxWrite} (hw : w.event = .pkt) : OnBus [w] 0
  | split {w w' : RxWrite} (hw : w.event = .hdr) (hw' : w'.event = .data) : OnBus [w, w'] 0
  | half {w : RxWrite} (hw : w.event ≠ .pkt) : OnBus [w] 1

def written (ws : List RxWrite) : List Byte := ws.flatMap RxWrite.data

@[simp] theorem written_nil : written [] = [] := rfl

@[simp] theorem written_append (ws ws' : List RxWrite) :
    written (ws ++ ws') = written ws ++ written ws' := by simp [written]

@[simp] theorem written_singleton (w : RxWrite) : written [w] = w.data := by simp [written]

def frontData (e : RxEngine) : List Byte := (e.rxFifo.packets.head?.map EthPacket.data).getD []

/-- Where the packets are, between two steps. -/
structure Tracked (e : RxEngine) : Prop where
  bus : OnBus e.dma e.splitCount
  idle : e.dma = [] → e.bytesCopied = e.pktOffset
  busy : e.dma ≠ [] → e.rxDmaPacket = true ∧ e.pktDone = false ∧ ∃ p, e.pktPtr = some p
    ∧ e.pktOffset = if e.bytesCopied = p.length then 0 else e.bytesCopied
  waits : e.rxDmaPacket = true → e.pktDone = true ∨ e.dma ≠ []
  offset : e.pktOffset ≤ (frontData e).length
  front : written e.parts = (frontData e).take e.pktOffset
  first : e.pktOffset = 0 → e.parts = []
  all : e.issued = e.delivered.flatMap Prod.snd ++ e.parts
  fits : ∀ w ∈ e.issued, w.data.length ≤ w.room
  whole : ∀ d ∈ e.delivered, written d.2 = d.1.data

namespace Tracked

variable {e : RxEngine}

theorem init (base len size : ℕ) (max : BitVec 32) :
    Tracked (RxPath.init base len size max).toRxEngine where
  bus := .none
  idle _ := rfl
  busy h := absurd rfl h
  waits h := by cases h
  offset := Nat.zero_le _
  front := rfl
  first _ := rfl
  all := rfl
  fits _ h := by cases h
  whole _ h := by cases h

theorem dma_of_pktDone (he : Tracked e) (h : e.pktDone = true) : e.dma = [] := by
  by_contra hne
  simp [(he.busy hne).2.1] at h

theorem dma_of_not_waiting (he : Tracked e) (h : e.rxDmaPacket = false) : e.dma = [] := by
  by_contra hne
  simp [(he.busy hne).1] at h

theorem taken (he : Tracked e) (h : e.pktDone = true) :
    Tracked { e with pktDone := false, rxDmaPacket := false } :=
  { he with
    busy := fun hne => absurd (he.dma_of_pktDone h) hne
    waits := fun hf => by cases hf }

theorem push {q : PacketFifo} (he : Tracked e) (a : List EthPacket)
    (hq : q.packets = e.rxFifo.packets ++ [p]) :
    Tracked { e with rxFifo := q, accepted := a } := by
  have hfront : e.rxFifo.packets ≠ [] →
      frontData { e with rxFifo := q, accepted := a } = frontData e := fun hne => by
    simp only [frontData, hq, head?_append_of_ne_nil _ hne]
  by_cases hnil : e.rxFifo.packets = []
  · have hzero : e.pktOffset = 0 := by
      have h := he.offset
      simpa [frontData, hnil] using h
    refine { he with offset := ?_, front := ?_ }
    · show e.pktOffset ≤ _
      omega
    · show written e.parts = _
      simp [he.first hzero, hzero]
  · refine { he with offset := ?_, front := ?_ }
    · rw [hfront hnil]
      exact he.offset
    · rw [hfront hnil]
      exact he.front

theorem ethRxPkt (hs : Tracked s.toRxEngine) (h : s.ethRxPkt P p = .ok s') :
    Tracked s'.toRxEngine := by
  have hf := Framed.restartClock { s with rxTick := s.drainState ≠ .draining }
  have he : (restartClock { s with rxTick := s.drainState ≠ .draining }).toRxEngine
      = s.toRxEngine := hf.engine
  obtain ⟨-, rfl⟩ | ⟨-, i, q, ⟨-, -, rfl⟩ | ⟨hq, rfl⟩⟩ := ethRxPkt_cases h
  · exact hs
  · show Tracked (restartClock _).toRxEngine
    rwa [he]
  · show Tracked { (restartClock _).toRxEngine with rxFifo := q, accepted := _ }
    rw [he]
    refine hs.push (p := p) _ ?_
    obtain hn | hn := PacketFifo.push_inv hq
    · cases hn
    · obtain rfl := Option.some.inj hn
      simp [PacketFifo.packets]

theorem writeRctl {v : BitVec 32} (hs : Tracked s.toRxEngine)
    (hv : v.getLsbD 0 = true → s.pktOffset = 0) : Tracked (s.writeRctl v).toRxEngine := by
  rw [writeRctl_engine]
  split_ifs with hr
  · have hzero := hv hr
    refine { hs with offset := ?_, front := ?_, first := fun _ => rfl, all := ?_ }
    · show s.pktOffset ≤ _
      omega
    · show written [] = List.take s.pktOffset _
      simp [hzero]
    · have h := hs.all
      rwa [hs.first hzero] at h
  · exact hs

theorem complete {type : RxType} {d : RxDesc}
    (hs : Tracked s.toRxEngine) (hne : s.dma ≠ []) (hp : s.pktPtr = some p) :
    Tracked (completed { s with dma := [], splitCount := 0 } p c rest type d).toRxEngine := by
  obtain ⟨-, -, p', hp', hoff⟩ := hs.busy hne
  obtain rfl := Option.some.inj (hp.symm.trans hp')
  exact {
    bus := .none
    idle := fun _ => hoff.symm
    busy := fun h => absurd rfl h
    waits := fun _ => .inl rfl
    offset := hs.offset
    front := hs.front
    first := hs.first
    all := hs.all
    fits := hs.fits
    whole := hs.whole }

theorem pktComplete (hs : Tracked s.toRxEngine) (hne : s.dma ≠ [])
    (h : RxPath.pktComplete P { s with dma := [], splitCount := 0 } = .ok s') :
    Tracked s'.toRxEngine := by
  obtain ⟨c, rest, p, r, type, -, hp, -, -, -, -, hw⟩ := pktComplete_cases h
  rw [hw.engine]
  exact hs.complete hne hp

theorem half {w : RxWrite} (hs : Tracked s.toRxEngine) (hd : s.dma ≠ [])
    (hw : w.event ≠ .pkt) : Tracked { s.toRxEngine with dma := [w], splitCount := 1 } :=
  { hs with
    bus := .half hw
    idle := fun h => by cases h
    busy := fun _ => hs.busy hd
    waits := fun _ => .inr (cons_ne_nil _ _) }

theorem dmaDone {v : RxEvent} (hs : Tracked s.toRxEngine) (h : s.dmaDone P v = .ok s') :
    Tracked s'.toRxEngine := by
  obtain ⟨u, rfl, ⟨x, hx, hxv⟩, h⟩ := dmaDone_cases h
  have hne : s.dma ≠ [] := ne_nil_of_mem hx
  have hbus := hs.bus
  generalize hd : s.dma = l at hbus hx h
  generalize hn : s.splitCount = n at hbus
  -- What is on the bus says which event can come and what is left of it then.
  cases hbus with
  | none => cases hx
  | whole hw =>
    obtain rfl := mem_singleton.1 hx
    obtain rfl := hw.symm.trans hxv
    obtain ⟨-, h⟩ | ⟨hv, -⟩ := h
    · refine hs.pktComplete (P := P) hne ?_
      rw [← h, ← hn]
      simp [hw]
    · exact absurd rfl hv
  | split hw hw' =>
    have hv : v ≠ .pkt := by
      rintro rfl
      rcases mem_pair.1 hx with rfl | rfl
      · simp [hw] at hxv
      · simp [hw'] at hxv
    obtain ⟨rfl, -⟩ | ⟨-, h⟩ := h
    · exact absurd rfl hv
    obtain ⟨-, rfl⟩ | ⟨hone, -⟩ := pktSplitDone_cases h
    · show Tracked { s.toRxEngine with dma := _, splitCount := 1 }
      rcases mem_pair.1 hx with rfl | rfl
      · rw [eraseP_cons_of_pos (by simp [hxv])]
        exact hs.half hne (by rw [hw']; exact RxEvent.noConfusion)
      · have hvw : v = .data := hxv.symm.trans hw'
        rw [eraseP_cons_of_neg (by simp [hw, hvw]), eraseP_cons_of_pos (by simp [hxv])]
        exact hs.half hne (by rw [hw]; exact RxEvent.noConfusion)
    · simp [show s.splitCount = 0 from hn] at hone
  | half hw =>
    obtain rfl := mem_singleton.1 hx
    obtain ⟨rfl, -⟩ | ⟨-, h⟩ := h
    · exact absurd hxv hw
    obtain ⟨hz, -⟩ | ⟨-, h⟩ := pktSplitDone_cases h
    · simp [show s.splitCount = 1 from hn] at hz
    · refine hs.pktComplete (P := P) hne ?_
      rw [← h]
      simp [hxv]

end Tracked

/-- DMAs of the bytes of the packet from `off` up to `n`, for one descriptor. -/
structure Piece (p : EthPacket) (off n : ℕ) (ws : List RxWrite) : Prop where
  le : n ≤ p.length
  bus : OnBus ws 0
  ne : ws ≠ []
  data : p.data.take off ++ written ws = p.data.take n
  fits : ∀ w ∈ ws, w.data.length ≤ w.room
  pos : n ≠ p.length → n ≠ 0

theorem Piece.all {addr room seq : ℕ} (hle : p.length ≤ room) :
    Piece p 0 p.length [⟨seq, .pkt, addr, bytesAt p 0 p.length, room⟩] where
  le := le_refl _
  bus := .whole rfl
  ne := cons_ne_nil _ _
  data := by simp [bytesAt_eq (Nat.zero_add p.length).le]
  fits w hw := by
    obtain rfl := mem_singleton.1 hw
    simpa [length_bytesAt] using hle
  pos h := absurd rfl h

/-- The headers of the packet fit into the header buffer, if they are cut off. -/
def HeaderFits (s : RxPath) (p : EthPacket) : Prop :=
  s.rxType = some .advSplitA → s.pktOffset = 0 → s.hdrLen < p.length →
    ∀ sp ∈ (Inet.hsplit p.data).toOption, sp ≤ s.hdrLen

instance (s : RxPath) (p : EthPacket) : Decidable (s.HeaderFits p) :=
  inferInstanceAs (Decidable (_ → _))

theorem Wrote.piece {n : ℕ} (h : Wrote s p c ws n)
    (hcopied : s.bytesCopied = s.pktOffset) (hoff : s.pktOffset ≤ p.length)
    (hfits : s.HeaderFits p) : Piece p s.pktOffset n ws := by
  cases h with
  | whole htype hzero hlt =>
    rw [hzero]
    exact .all hlt.le
  | header htype hzero hle =>
    rw [hzero]
    exact .all hle
  | more htype hne =>
    have hsub : sub32 p.length s.pktOffset = p.length - s.pktOffset := if_pos hoff
    rw [hsub, hcopied]
    generalize hk : min (p.length - s.pktOffset) s.bufLen = k
    have hle : s.pktOffset + k ≤ p.length := by omega
    have hroom : k ≤ s.bufLen := by omega
    refine ⟨hle, .whole rfl, cons_ne_nil _ _, ?_, fun w hw => ?_, fun _ => by omega⟩
    · rw [written_singleton, bytesAt_eq hle, take_add]
    · obtain rfl := mem_singleton.1 hw
      simpa [length_bytesAt] using hroom
  | @split sp htype hzero hlt hsplit hpos =>
    have hsp : sp ≤ s.hdrLen := hfits htype hzero hlt sp (by simp [hsplit, Except.toOption])
    have hsub : sub32 p.length sp = p.length - sp := if_pos (by omega)
    rw [hsub, hcopied, hzero, Nat.zero_add]
    generalize hk : min (p.length - sp) s.bufLen = k
    have hle : sp + k ≤ p.length := by omega
    have hroom : k ≤ s.bufLen := by omega
    refine ⟨by omega, .split rfl rfl, cons_ne_nil _ _, ?_, fun w hw => ?_, fun _ => by omega⟩
    · have hhead : bytesAt p 0 sp = p.data.take sp := by
        rw [bytesAt_eq (by omega)]
        rfl
      rw [Nat.add_comm k sp, take_add]
      simp [written, hhead, bytesAt_eq hle]
    · rcases mem_pair.1 hw with rfl | rfl
      · simpa [length_bytesAt] using hsp
      · simpa [length_bytesAt] using hroom

namespace Tracked

theorem bus_append {e : RxEngine} (he : Tracked e) (hd : e.dma = [])
    (h : OnBus ws 0) : OnBus (e.dma ++ ws) e.splitCount := by
  have hbus := he.bus
  rw [hd] at hbus ⊢
  generalize e.splitCount = n at hbus ⊢
  cases hbus
  exact h

theorem started {n : ℕ} (hs : Tracked s.toRxEngine) (hd : s.dma = [])
    (hp : frontData s.toRxEngine = p.data) (h : Piece p s.pktOffset n ws) {c' : Cached RxDesc} (hn : n ≠ p.length) :
    Tracked { (s.started p c' rest ws n).toRxEngine with pktOffset := n, rxDmaPacket := true } where
  bus := hs.bus_append hd h.bus
  idle hnil := absurd (append_eq_nil_iff.1 hnil).2 h.ne
  busy _ := ⟨rfl, rfl, p, rfl, (if_neg hn).symm⟩
  waits _ := .inr fun hnil => h.ne (append_eq_nil_iff.1 hnil).2
  offset := by
    show n ≤ (frontData s.toRxEngine).length
    rw [hp]
    exact h.le
  front := by
    show written (s.parts ++ ws) = (frontData s.toRxEngine).take n
    rw [written_append, hs.front, hp]
    exact h.data
  first hz := absurd hz (h.pos hn)
  all := by
    show s.issued ++ ws = _ ++ (s.parts ++ ws)
    rw [hs.all, append_assoc]
    rfl
  fits w hw := by
    rcases mem_append.1 hw with hw | hw
    · exact hs.fits w hw
    · exact h.fits w hw
  whole := hs.whole

theorem sent (hs : Tracked s.toRxEngine) (hd : s.dma = [])
    (hp : frontData s.toRxEngine = p.data) (h : Piece p s.pktOffset p.length ws)
    {c' : Cached RxDesc} {q : PacketFifo} :
    Tracked { (s.started p c' rest ws p.length).toRxEngine with
      pktOffset := 0
      rxFifo := q
      parts := []
      delivered := s.delivered ++ [(p, s.parts ++ ws)]
      rxDmaPacket := true } where
  bus := hs.bus_append hd h.bus
  idle hnil := absurd (append_eq_nil_iff.1 hnil).2 h.ne
  busy _ := ⟨rfl, rfl, p, rfl, (if_pos rfl).symm⟩
  waits _ := .inr fun hnil => h.ne (append_eq_nil_iff.1 hnil).2
  offset := Nat.zero_le _
  front := rfl
  first _ := rfl
  all := by
    show s.issued ++ ws = _
    rw [hs.all]
    simp
  fits w hw := by
    rcases mem_append.1 hw with hw | hw
    · exact hs.fits w hw
    · exact h.fits w hw
  whole d hd := by
    rcases mem_append.1 hd with hd | hd
    · exact hs.whole d hd
    · obtain rfl := mem_singleton.1 hd
      show written (s.parts ++ ws) = p.data
      rw [written_append, hs.front, hp, h.data]
      exact take_length

theorem sendFront (hs : Tracked s.toRxEngine) (hd : s.dma = [])
    (hfits : ∀ p ∈ s.rxFifo.packets.head?, s.HeaderFits p) (h : s.sendFront = .ok s') :
    Tracked s'.toRxEngine := by
  obtain ⟨p, t, hp, ht, h⟩ := sendFront_cases h
  obtain ⟨c, rest, f, ws, n, -, hw, rfl⟩ := writePacket_cases ht
  have hhead : s.rxFifo.packets.head? = some p := by
    obtain ⟨e, l, hf, rfl⟩ := PacketFifo.front_inv hp
    simp [PacketFifo.packets, hf]
  have hfront : frontData s.toRxEngine = p.data := by simp [frontData, hhead]
  have hoff : s.pktOffset ≤ p.length := by
    have h := hs.offset
    rwa [hfront] at h
  have hpiece := hw.piece (hs.idle hd) hoff (hfits p hhead)
  obtain ⟨hn, q, -, rfl⟩ | ⟨hn, rfl⟩ := h
  · obtain rfl : n = p.length := hn
    exact hs.sent hd hfront hpiece
  · exact hs.started hd hfront hpiece hn

end Tracked

def sends (s : RxPath) : Bool := s.rxTick && s.en && !s.pktDone && !s.rxDmaPacket

def Op.isTick : Op → Bool
  | .tick _ => true
  | _ => false

def Op.resets : Op → Bool
  | .writeRctl val => val.getLsbD 0
  | _ => false

/-- Headers are only cut off if they fit, and the receiver is only reset between packets. -/
def SplitFits (s : RxPath) (o : Op) : Prop :=
  (o.isTick = true → s.sends = true → ∀ p ∈ s.rxFifo.packets.head?, s.HeaderFits p)
    ∧ (o.resets = true → s.pktOffset = 0)

instance (s : RxPath) (o : Op) : Decidable (s.SplitFits o) :=
  inferInstanceAs (Decidable (_ ∧ _))

namespace Tracked

theorem rxStateMachine (hs : Tracked s.toRxEngine) (ht : s.rxTick = true)
    (hfits : s.sends = true → ∀ p ∈ s.rxFifo.packets.head?, s.HeaderFits p)
    (h : s.rxStateMachine P = .ok s') : Tracked s'.toRxEngine := by
  obtain ⟨-, rfl⟩ | ⟨-, hdone, h⟩ | ⟨-, -, -, rfl⟩ | ⟨-, -, -, -, h⟩ | ⟨-, -, -, -, -, rfl⟩ |
    ⟨hen, hdone, hdma, -, -, h⟩ := rxStateMachine_cases h
  · exact hs
  · rw [h.engine]
    exact hs.taken hdone
  · exact hs
  · rwa [h.engine]
  · exact hs
  · have hsends : s.sends = true := by simp [sends, ht, hen, hdone, hdma]
    exact hs.sendFront (hs.dma_of_not_waiting hdma) (hfits hsends) h

theorem tick {tx : Bool} (hs : Tracked s.toRxEngine)
    (hfits : s.sends = true → ∀ p ∈ s.rxFifo.packets.head?, s.HeaderFits p)
    (h : s.tick P tx = .ok s') : Tracked s'.toRxEngine := by
  obtain ⟨-, t, ⟨ht, hsm⟩ | ⟨-, rfl⟩, rfl⟩ := tick_cases h
  · have ht : Tracked t.toRxEngine :=
      rxStateMachine (s := { s with tickEvent := false }) hs ht hfits hsm
    exact ht
  · exact hs

theorem step {o : Op} (hs : Tracked s.toRxEngine) (ho : s.SplitFits o)
    (h : s.step P o = .ok s') : Tracked s'.toRxEngine := by
  by_cases hother : o.IsOther
  · rwa [step_engine hother h]
  cases o with
  | ethRxPkt p => exact hs.ethRxPkt h
  | tick tx => exact hs.tick (ho.1 rfl) h
  | dmaDone v => exact hs.dmaDone h
  | writeRctl v =>
    cases h
    exact hs.writeRctl ho.2
  | _ => exact absurd trivial hother

end Tracked

/-- A packet with an IP header of 20 bytes and a TCP header of `off` words. -/
def tcpPacket (off length : ℕ) : EthPacket :=
  let data := List.replicate 12 0 ++ [0x08, 0x00, 0x45] ++ List.replicate 8 0 ++ [6]
    ++ List.replicate 22 0 ++ [BitVec.ofNat 8 (off * 16)]
  ⟨data ++ List.replicate (length - data.length) 1, length, length⟩

/-- `SRRCTL` with header split, a header buffer of 64 bytes and a packet buffer of `kb` KiB. -/
def splitSrrctl (kb : ℕ) : BitVec 32 := BitVec.ofNat 32 (5 * 2 ^ 25 + 2 ^ 8 + kb)

/-- The receiver is set up with two descriptors, a packet comes and its first part is written. -/
def splitOps (kb : ℕ) (p : EthPacket) : List Op :=
  [.writeSrrctl (splitSrrctl kb), .writeRctl 0x22, .writeRdt 2, .fetchDelayEvent,
    .fetchEvent [⟨0x1000, 0x2000⟩, ⟨0x3000, 0x4000⟩], .ethRxPkt p, .tick false]

def splitParams : NicParams := ⟨1000, 64, 16384⟩

theorem splitOps_admits : Admits (step splitParams) SplitFits (init 4096 8 8 4096)
    (splitOps 1 (tcpPacket 5 74)) := by decide +kernel

theorem splitOps_run : Ends (run (step splitParams) (init 4096 8 8 4096)
    (splitOps 1 (tcpPacket 5 74))) fun s => s.delivered.length = 1 := by decide +kernel

/-- The first part of a packet is written, the receiver is reset and set up again, and another
packet comes. -/
def resetOps : List Op :=
  splitOps 0 (tcpPacket 5 74) ++ [.dmaDone .hdr, .dmaDone .data, .tick false, .writeRctl 0x23,
    .writeSrrctl (splitSrrctl 1), .writeRdt 4, .fetchDelayEvent,
    .fetchEvent (List.replicate 4 ⟨0x1000, 0x2000⟩), .ethRxPkt (tcpPacket 5 74), .tick false]

end RxPath

end Gem5
