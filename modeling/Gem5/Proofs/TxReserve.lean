import Gem5.Proofs.PacketFifo
import Gem5.Proofs.TxPath

/-!
# What is reserved in the transmit FIFO

What `txStateMachine` reserves for a descriptor is what that descriptor adds to the packet, the copy
of the header included, so the bytes reserved are those of the packet so far and of the DMA on the
bus. A finished packet has no DMA on the bus, and when it is pushed it is reserved in full.
-/

namespace Gem5

open Bytes Machine

namespace TxEngine

def pktLength (e : TxEngine) : ℕ := e.txPacket.elim 0 EthPacket.length

def inFlight (e : TxEngine) : ℕ :=
  match e.dma with
  | some (.packet _ len) => len
  | _ => 0

end TxEngine

namespace TxPath

variable {d d' : List Byte}

theorem length_segmentHeaders {s : TxPath} (h : s.segmentHeaders d = .ok d') :
    d'.length = d.length := by
  obtain ⟨tcp, -, h⟩ := bind_ok.1 h
  obtain ⟨udp, -, rfl⟩ := bind_pure_ok.1 h
  cases tcp <;> cases udp <;> dsimp only <;> split_ifs <;>
    simp [Inet.Ip.setLen, Inet.Ip.setId, Inet.Ip6.setPlen, Inet.Tcp.setSeq, Inet.Tcp.setFlags,
      Inet.Udp.setLen]

theorem length_segmentData {s : TxPath} (h : s.segmentData d = .ok d') :
    d'.length = d.length := by
  unfold segmentData at h
  split_ifs at h
  · exact length_segmentHeaders h
  · rw [Except.ok.inj h]

theorem length_ipChecksum (desc : TxDesc) (d : List Byte) :
    (ipChecksum desc d).length = d.length := by
  unfold ipChecksum
  split_ifs <;> simp [Inet.Ip.setSum]

theorem length_tuChecksum (h : tuChecksum d = .ok d') :
    d'.length = d.length := by
  obtain ⟨tcp, -, h⟩ := bind_ok.1 h
  obtain ⟨udp, -, h⟩ := bind_ok.1 h
  cases tcp with
  | some tcp =>
    obtain ⟨sum, -, rfl⟩ := bind_pure_ok.1 h
    simp [Inet.Tcp.setSum]
  | none =>
    cases udp with
    | some udp =>
      obtain ⟨sum, -, rfl⟩ := bind_pure_ok.1 h
      simp [Inet.Udp.setSum]
    | none => cases h

theorem length_offloadChecksums {desc : TxDesc}
    (h : offloadChecksums desc d = .ok d') : d'.length = d.length := by
  unfold offloadChecksums at h
  split at h
  · obtain ⟨_, -, h⟩ := bind_ok.1 h
    simp only [] at h
    split_ifs at h
    · exact (length_tuChecksum h).trans (length_ipChecksum desc d)
    · rw [← Except.ok.inj h, length_ipChecksum]
  · rw [Except.ok.inj h]

variable {P : NicParams} {s s' : TxPath} {e : TxEngine} {p : EthPacket}

def frontLen : List (Cached TxDesc) → ℕ
  | [] => 0
  | c :: _ => c.desc.getLen

theorem frontLen_append_le (u v : List (Cached TxDesc)) : frontLen u ≤ frontLen (u ++ v) := by
  cases u with
  | nil => exact Nat.zero_le _
  | cons c u => exact le_rfl

/-- The bytes reserved are those of the packet and of the DMA on the bus. The other facts say that
no difference `getPacketSize` computes wraps around. -/
structure Reserved (e : TxEngine) (unused : List (Cached TxDesc)) : Prop where
  fifo : e.txFifo.Accounted
  reserved : e.txFifo.reserved.toNat = e.pktLength + e.inFlight
  waiting : e.pktWaiting = e.dma.isSome
  done : e.pktDone = true → e.txPacket.isSome = true ∧ e.inFlight = 0
  header : e.tsoHeader.length = 256
  headerLen : e.useTso = true → e.tsoLoadedHeader = true → e.tsoHeaderLen ≤ 256
  headerDma : ∀ a n, e.dma = some (.header a n) →
    e.tsoHeaderLen ≤ 256 ∧ e.tsoHeaderLen ≤ frontLen unused
  descUsed : e.useTso = true → e.tsoDescBytesUsed ≤ frontLen unused

namespace Reserved

variable {u v : List (Cached TxDesc)}

theorem init (base len size : ℕ) (max : BitVec 32) :
    Reserved (TxPath.init base len size max).toTxEngine [] where
  fifo := .init max
  reserved := rfl
  waiting := rfl
  done h := absurd h Bool.false_ne_true
  header := List.length_replicate
  headerLen h := absurd h Bool.false_ne_true
  headerDma _ _ h := absurd h (Option.some_ne_none _).symm
  descUsed h := absurd h Bool.false_ne_true

theorem append (hs : Reserved e u) (v : List (Cached TxDesc)) : Reserved e (u ++ v) :=
  { hs with
    headerDma := fun a n h =>
      ⟨(hs.headerDma a n h).1, (hs.headerDma a n h).2.trans (frontLen_append_le u v)⟩
    descUsed := fun h => (hs.descUsed h).trans (frontLen_append_le u v) }

theorem framed (hs : Reserved s.toTxEngine s.cache.unusedCache) (h : Framed s s') :
    Reserved s'.toTxEngine s'.cache.unusedCache := by
  rwa [h.engine, h.cache.unused]

theorem dma_of_not_waiting (hs : Reserved e u) (h : e.pktWaiting = false) :
    e.dma = none := by
  have hw := hs.waiting
  rw [h] at hw
  exact Option.isSome_eq_false_iff.1 hw.symm |> Option.isNone_iff_eq_none.1

theorem askAvailable (hs : Reserved s.toTxEngine u) : Reserved s.askAvailable.toTxEngine u
    ∧ s.askAvailable.pktDone = false := by
  unfold TxPath.askAvailable
  split_ifs with h
  · exact ⟨{ hs with done := by simp }, rfl⟩
  · refine ⟨hs, Bool.eq_false_iff.2 fun hd => h (hs.done hd).1⟩

theorem withPacket (hs : Reserved s.toTxEngine u) (size : ℕ) :
    Reserved (s.withPacket (s.txPacket.getD (.alloc size))).toTxEngine u :=
  { hs with
    reserved := by
      refine hs.reserved.trans ?_
      simp only [TxEngine.pktLength, TxEngine.inFlight, TxPath.withPacket]
      cases s.txPacket with
      | none => simp [EthPacket.alloc, EthPacket.length]
      | some p => rfl
    done := fun h => ⟨rfl, (hs.done h).2⟩ }

theorem loadContext (hs : Reserved s.toTxEngine u) (hd : s.dma = none) (ht : s.useTso = false)
    (d : TxDesc) (v : List (Cached TxDesc)) :
    Reserved (s.loadContext d).toTxEngine v ∧ (s.loadContext d).dma = none := by
  unfold TxPath.loadContext
  split_ifs
  · exact ⟨{ hs with
      headerLen := by simp
      headerDma := by simp [hd]
      descUsed := by simp }, hd⟩
  · exact ⟨{ hs with
      headerLen := by simp [ht]
      headerDma := by simp [hd]
      descUsed := by simp [ht] }, hd⟩

theorem takeContexts : ∀ (u : List (Cached TxDesc)) {s : TxPath}, s.cache.unusedCache = u →
    Reserved s.toTxEngine u → s.dma = none →
    Reserved (s.takeContexts u).toTxEngine (s.takeContexts u).cache.unusedCache
      ∧ (s.takeContexts u).dma = none
  | [], s, hu, hs, hd => by
    rw [TxPath.takeContexts, hu]
    exact ⟨hs, hd⟩
  | c :: rest, s, hu, hs, hd => by
    rw [TxPath.takeContexts]
    split_ifs with h
    · obtain ⟨hl, hld⟩ := hs.loadContext hd h.1 c.desc rest
      exact takeContexts rest rfl { hl with } hld
    · rw [hu]
      exact ⟨hs, hd⟩

theorem advTso (hs : Reserved s.toTxEngine u) (hd : s.dma = none) (d : TxDesc) :
    Reserved (s.advTso d).toTxEngine u ∧ (s.advTso d).dma = none := by
  unfold TxPath.advTso
  split_ifs
  · exact ⟨{ hs with headerLen := by simp, descUsed := by simp }, hd⟩
  · exact ⟨hs, hd⟩

theorem fetchHeader {c : Cached TxDesc} (hs : Reserved s.toTxEngine (c :: u)) (hd : s.dma = none)
    (h : s.fetchHeader c.desc = .ok s') : Reserved s'.toTxEngine (c :: u) := by
  rcases fetchHeader_cases h with ⟨-, -, -, hle, hle', rfl⟩ | ⟨-, rfl⟩
  · have hr := hs.reserved
    simp only [TxEngine.inFlight, hd] at hr
    exact { hs with
      reserved := hr
      waiting := rfl
      done := fun hdone => ⟨(hs.done hdone).1, rfl⟩
      headerDma := fun _ _ _ => ⟨hle', hle⟩ }
  · exact hs

theorem processContextDesc (hs : Reserved s.toTxEngine s.cache.unusedCache) (hd : s.dma = none)
    (h : s.processContextDesc = .ok s') : Reserved s'.toTxEngine s'.cache.unusedCache := by
  obtain ⟨hc, hcd⟩ := takeContexts _ rfl hs hd
  rcases processContextDesc_cases h with ⟨-, rfl⟩ | ⟨c, rest, hu, h⟩
  · exact hc
  · rw [hu] at hc
    obtain ⟨ha, had⟩ := hc.advTso hcd c.desc
    rw [fetchHeader_cache h, advTso_cache, hu]
    exact ha.fetchHeader had h

theorem getPacketData {size : BitVec 32} {q : PacketFifo} {t : TxPath}
    (hs : Reserved s.toTxEngine s.cache.unusedCache) (hd : s.dma = none)
    (hdone : s.pktDone = false) (hp : s.txPacket = some p)
    (hsize : s.getPacketSize p = .ok (size, t)) (hq : t.txFifo.reserve size = .ok q)
    (h : TxPath.getPacketData { t with txFifo := q } p = .ok s') :
    Reserved s'.toTxEngine s'.cache.unusedCache := by
  have hr := hs.reserved
  simp only [TxEngine.pktLength, TxEngine.inFlight, hp, hd, Option.elim_some, Nat.add_zero] at hr
  obtain ⟨c, rest, hu, -, -, h⟩ := getPacketData_cases h
  have hlen := c.desc.getLen_lt
  rcases getPacketSize_cases hsize with ⟨hnil, -, rfl⟩ | ⟨c', rest', hu', hsz⟩
  · simp [hnil] at hu
  rcases hsz with ⟨htso, hload, rfl, rfl⟩ | ⟨htso, rfl, rfl⟩
  · obtain ⟨rfl, rfl⟩ := List.cons.inj (hu'.symm.trans hu)
    have hused := hs.descUsed htso
    rw [hu'] at hused
    have hcopy := copyBytes_le hused p.length
    have hhdr := hs.headerLen htso hload
    have hsz : (BitVec.ofNat 32 (s.copyBytes p.length c'.desc
        + if s.tsoPktHasHeader then 0 else s.tsoHeaderLen)).toNat
        = s.copyBytes p.length c'.desc + if s.tsoPktHasHeader then 0 else s.tsoHeaderLen := by
      rw [BitVec.toNat_ofNat, Nat.mod_eq_of_lt]
      split_ifs <;> omega
    obtain ⟨hfifo, hres, -⟩ := hs.fifo.reserve hq
    rcases h with ⟨-, -, -, hle, rfl⟩ | ⟨hno, -⟩
    · exact { hs with
        fifo := hfifo
        reserved := by
          simp only [TxEngine.pktLength, TxEngine.inFlight, Option.elim_some]
          rw [hres, hsz, hr, length_headed (by rw [hs.header]; exact hhdr)]
          simp only []
          omega
        waiting := rfl
        done := fun h => absurd h (by simp [hdone])
        headerDma := fun a n h => by simp at h
        descUsed := fun _ => by rw [hu']; exact hle }
    · simp [htso] at hno
  · obtain ⟨rfl, rfl⟩ := List.cons.inj (hu'.symm.trans hu)
    obtain ⟨hfifo, hres, -⟩ := hs.fifo.reserve hq
    rcases h with ⟨hyes, -⟩ | ⟨-, -, rfl⟩
    · simp [htso] at hyes
    · exact { hs with
        fifo := hfifo
        reserved := by
          simp only [TxEngine.pktLength, TxEngine.inFlight, Option.elim_some]
          rw [hres, hr, BitVec.toNat_ofNat, Nat.mod_eq_of_lt (by omega)]
        waiting := rfl
        done := fun h => absurd h (by simp [hdone])
        headerDma := fun a n h => by simp at h
        descUsed := fun h => absurd h (by simp [htso]) }

theorem getPacketSize {size : BitVec 32} (hs : Reserved s.toTxEngine s.cache.unusedCache)
    (h : s.getPacketSize p = .ok (size, s')) : Reserved s'.toTxEngine s'.cache.unusedCache := by
  rcases getPacketSize_cases h with ⟨-, -, rfl⟩ | ⟨c, rest, -, ⟨-, -, -, rfl⟩ | ⟨-, -, rfl⟩⟩
  · exact hs
  · exact { hs with }
  · exact hs

theorem reserveNext (hs : Reserved s.toTxEngine s.cache.unusedCache) (hd : s.dma = none)
    (hdone : s.pktDone = false) (hp : s.txPacket = some p) (h : s.reserveNext p = .ok s') :
    Reserved s'.toTxEngine s'.cache.unusedCache := by
  obtain ⟨size, t, hsize, ⟨-, -, q, hq, h⟩ | ⟨-, h⟩ | ⟨-, -, rfl⟩⟩ := reserveNext_cases h
  · exact hs.getPacketData hd hdone hp hsize hq h
  · exact (hs.getPacketSize hsize).framed (Quiet.writeback h).toFramed
  · exact { hs.getPacketSize hsize with }

theorem nextPacket (hs : Reserved s.toTxEngine s.cache.unusedCache) (hdone : s.pktDone = false)
    (h : s.nextPacket P = .ok s') : Reserved s'.toTxEngine s'.cache.unusedCache := by
  obtain ⟨t, p, ht, rfl, h⟩ := nextPacket_cases h
  have hp := (hs.framed ht.toFramed).withPacket P.txPacketSize
  rcases h with ⟨-, u, hu, rfl⟩ | ⟨hw, -, u, hu, h⟩
  · exact { hp.framed hu.toFramed with }
  · have hd : t.dma = none := by
      rw [ht.engine]
      exact hs.dma_of_not_waiting hw
    have hu' := hp.processContextDesc hd hu
    rcases h with ⟨-, rfl⟩ | ⟨hw', h⟩
    · exact { hu' with }
    · obtain ⟨hpkt, hdone'⟩ := processContextDesc_packet hu
      refine hu'.reserveNext (hu'.dma_of_not_waiting hw') ?_ hpkt h
      rw [hdone']
      show t.pktDone = false
      rwa [ht.engine]

theorem of_ready (hs : Reserved s.toTxEngine u) (hp : s.ready = some p) :
    s.txPacket = some p ∧ p.length ≠ 0 ∧ s.txFifo.reserved.toNat = p.length := by
  unfold TxPath.ready at hp
  split at hp
  · rename_i p' hp'
    split_ifs at hp with hr
    obtain rfl := Option.some.inj hp
    have hres := hs.reserved
    rw [(hs.done hr.1).2, TxEngine.pktLength, hp'] at hres
    exact ⟨hp', hr.2.2, hres⟩
  · cases hp

theorem inFlight_of_ready (hs : Reserved s.toTxEngine u) (hp : s.ready = some p) :
    s.inFlight = 0 := by
  unfold TxPath.ready at hp
  split at hp
  · split_ifs at hp with hr
    exact (hs.done hr.1).2
  · cases hp

theorem pushPacket (hs : Reserved s.toTxEngine s.cache.unusedCache) (hdone : s.pktDone = false)
    (hd : s.inFlight = 0) (hp : p.length ≠ 0) (hr : s.txFifo.reserved.toNat = p.length)
    (h : s.pushPacket P p = .ok s') : Reserved s'.toTxEngine s'.cache.unusedCache := by
  obtain ⟨q, hq, hquiet⟩ := pushPacket_cases h
  obtain ⟨q', hq', hacc, hzero, -⟩ := hs.fifo.push hp hr
  obtain rfl : q = q' := Option.some.inj (Except.ok.inj (hq.symm.trans hq'))
  refine framed ?_ hquiet.toFramed
  exact { hs with
    fifo := hacc
    reserved := by
      simp only [hzero, TxEngine.pktLength, Option.elim_none]
      exact ((Nat.zero_add _).trans hd).symm
    done := fun h => absurd h (by simp [hdone]) }

theorem txStateMachine (hs : Reserved s.toTxEngine s.cache.unusedCache)
    (h : s.txStateMachine P = .ok s') : Reserved s'.toTxEngine s'.cache.unusedCache := by
  obtain ⟨ha, hdone⟩ := hs.askAvailable
  rw [← askAvailable_cache] at ha
  unfold TxPath.txStateMachine at h
  split_ifs at h
  · cases h
    exact { hs with }
  · split at h
    · rename_i p hp
      obtain ⟨hpkt, hne, hr⟩ := hs.of_ready hp
      have hask : s.askAvailable = { s with pktDone := false } := if_pos (by rw [hpkt]; rfl)
      rw [hask] at h ha
      exact ha.pushPacket rfl (hs.inFlight_of_ready hp) hne hr h
    · exact ha.nextPacket hdone h

theorem headerComplete {data : List Byte} (hs : Reserved s.toTxEngine s.cache.unusedCache)
    (h : s.headerComplete data = .ok s') : Reserved s'.toTxEngine s'.cache.unusedCache := by
  obtain ⟨a, len, c, rest, hd, -, hu, h⟩ := headerComplete_cases h
  obtain ⟨hle, hfront⟩ := hs.headerDma a len hd
  have hr := hs.reserved
  simp only [TxEngine.inFlight, hd] at hr
  have hl : Reserved { s.headerLoaded data with tsoDescBytesUsed := 0 }.toTxEngine rest := { hs with
    reserved := hr
    waiting := rfl
    done := fun hdone => ⟨(hs.done hdone).1, rfl⟩
    header := by
      simp only [headerLoaded, length_splice]
      exact hs.header
    headerLen := fun _ _ => hle
    headerDma := fun a n hn => absurd hn (by simp [headerLoaded])
    descUsed := fun _ => Nat.zero_le _ }
  rcases h with ⟨-, h⟩ | ⟨-, h⟩
  · exact framed hl h.toFramed
  · refine framed ?_ h.toFramed
    exact { hl with
      headerDma := fun a n hn => absurd hn (by simp [headerLoaded])
      descUsed := fun _ => hfront }

theorem completed (hs : Reserved s.toTxEngine u) (hd : s.dma = none)
    (hr : s.txFifo.reserved.toNat = d.length) : Reserved (s.completed p d).toTxEngine u :=
  { hs with
    reserved := by
      simp only [TxEngine.pktLength, TxEngine.inFlight, TxPath.completed, Option.elim_some, hd]
      exact hr
    done := fun _ => ⟨rfl, by simp [TxEngine.inFlight, TxPath.completed, hd]⟩
    headerLen := fun h => hs.headerLen (Bool.and_eq_true_iff.1 h).1
    headerDma := fun a n h => hs.headerDma a n h
    descUsed := fun h => hs.descUsed (Bool.and_eq_true_iff.1 h).1 }

theorem released {c : Cached TxDesc} {rest : List (Cached TxDesc)}
    (hs : Reserved s.toTxEngine s.cache.unusedCache) (hu : s.cache.unusedCache = c :: rest)
    (hd : s.dma = none) : Reserved (s.released c rest).toTxEngine
      (s.released c rest).cache.unusedCache ∧ (s.released c rest).dma = none
      ∧ (s.released c rest).txFifo = s.txFifo := by
  unfold TxPath.released
  split_ifs
  · exact ⟨{ hs with
      headerDma := fun a n h => absurd h (by simp [usedDesc, hd])
      descUsed := fun _ => Nat.zero_le _ }, hd, rfl⟩
  · refine ⟨{ hs with
      headerDma := fun a n h => absurd h (by simp [hd])
      descUsed := fun h => ?_ }, hd, rfl⟩
    have hused := hs.descUsed h
    rw [hu] at hused
    simpa only [frontLen, TxDesc.getLen_report] using hused

theorem pktComplete {data : List Byte} (hs : Reserved s.toTxEngine s.cache.unusedCache)
    (h : s.pktComplete P data = .ok s') : Reserved s'.toTxEngine s'.cache.unusedCache := by
  obtain ⟨a, len, p, c, rest, hd, hp, hlen, hu, -, h⟩ := pktComplete_cases h
  have hr : s.txFifo.reserved.toNat = (received p data).length := by
    rw [hs.reserved]
    simp only [TxEngine.pktLength, TxEngine.inFlight, hd, hp, Option.elim_some, EthPacket.length,
      received, List.length_append, hlen]
  have ha : Reserved (s.arrived.withPacket (received p data)).toTxEngine s.cache.unusedCache :=
    { hs with
      reserved := hr
      waiting := rfl
      done := fun h => ⟨rfl, rfl⟩
      headerDma := fun a n h => absurd h (Option.some_ne_none _).symm }
  rcases h with ⟨-, h⟩ | ⟨-, h⟩
  · obtain ⟨-, h⟩ := partialPacket_cases (s := s.arrived) hu h
    refine framed ?_ h.toFramed
    exact { ha with
      done := fun _ => ⟨rfl, rfl⟩
      headerDma := fun a n h => absurd h (Option.some_ne_none _).symm
      descUsed := fun _ => Nat.zero_le _ }
  · obtain ⟨d, d', hd₁, hd₂, h⟩ := finishPacket_cases (s := s.arrived) hu h
    obtain ⟨hrel, hdma, hfifo⟩ := ha.released (s := s.arrived.withPacket (received p data)) hu rfl
    refine framed ?_ h.toFramed
    rw [← released_withPacket]
    refine hrel.completed hdma ?_
    rwa [hfifo, length_offloadChecksums hd₂, length_segmentData hd₁]

theorem txWire {w : Wire} (hs : Reserved s.toTxEngine u) (h : s.txWire w = .ok s') :
    Reserved s'.toTxEngine u := by
  rcases txWire_cases h with ⟨-, rfl⟩ | ⟨-, -, -, rfl⟩ | ⟨p, q, he, -, hq, h⟩
  · exact { hs with }
  · exact { hs with }
  · cases hf : s.txFifo.fifo with
    | nil =>
      simp [hs.fifo.empty_iff.2 hf] at he
    | cons e rest =>
      obtain ⟨q', hq', hacc, -, hres, -⟩ := hs.fifo.pop hf
      obtain rfl : q = q' := Except.ok.inj (hq.symm.trans hq')
      have hr := hs.reserved
      rw [← hres] at hr
      rcases h with ⟨-, rfl⟩ | ⟨-, rfl⟩ <;> exact { hs with fifo := hacc, reserved := hr }

theorem tick {rx : Bool} {ws : List Wire} (hs : Reserved s.toTxEngine s.cache.unusedCache)
    (h : s.tick P rx ws = .ok s') : Reserved s'.toTxEngine s'.cache.unusedCache := by
  obtain ⟨-, t, v, hsm, hv, rfl⟩ := tick_cases h
  have ht : Reserved t.toTxEngine t.cache.unusedCache := by
    rcases hsm with ⟨-, hsm⟩ | ⟨-, rfl⟩
    · exact txStateMachine (s := { s with tickEvent := false, rxTick := rx }) { hs with } hsm
    · exact { hs with }
  have hloop := wireLoop_inv (I := fun t => Reserved t.toTxEngine t.cache.unusedCache)
    (fun s w s' hs _ h => txWire_cache h ▸ hs.txWire h) ws ht hv
  exact { hloop.1 with }

theorem step {o : Op} (hs : Reserved s.toTxEngine s.cache.unusedCache)
    (h : s.step P o = .ok s') : Reserved s'.toTxEngine s'.cache.unusedCache := by
  by_cases ho : o.IsEngine
  · cases o with
    | tick rx ws => exact hs.tick h
    | headerEvent data => exact hs.headerComplete h
    | pktEvent data => exact hs.pktComplete h
    | _ => exact ho.elim
  · obtain ⟨he, -, -, new, -, hu, -⟩ := Extended.step ho h
    rw [he, hu]
    exact hs.append new

theorem run {base len size : ℕ} {max : BitVec 32} {ops : List Op}
    (h : Machine.run (TxPath.step P) (TxPath.init base len size max) ops = .ok s) :
    Reserved s.toTxEngine s.cache.unusedCache :=
  run_inv (I := fun s => Reserved s.toTxEngine s.cache.unusedCache)
    (fun _ _ _ hs h => step hs h) (init base len size max) h

end Reserved

theorem pushPacket_ok (hs : s.cache.Phases) {q : PacketFifo}
    (hq : s.txFifo.push p = .ok (some q)) :
    ∃ s', s.pushPacket P p = .ok s' ∧ s'.txFifo = q ∧ s'.txPacket = none := by
  obtain ⟨c, hc⟩ := hs.writeback_ok P.wbMask
  exact ⟨_, bind_ok.2 ⟨some q, hq, bind_ok.2 ⟨c, hc, rfl⟩⟩, rfl, rfl⟩

/-- When a finished packet is pushed, the bytes reserved are those of the packet. So the push is
made, the packet is behind the others in the FIFO, and nothing stays reserved. -/
theorem push_reserved {base len size : ℕ} {max : BitVec 32} {ops : List Op}
    (h : Machine.run (TxPath.step P) (init base len size max) ops = .ok s)
    (hp : s.ready = some p) :
    s.txFifo.reserved.toNat = p.length
      ∧ ∃ q, s.txFifo.push p = .ok (some q) ∧ q.reserved = 0
        ∧ q.packets = s.txFifo.packets ++ [p]
        ∧ (s.en = true → ∃ s', s.txStateMachine P = .ok s' ∧ s'.txFifo = q
          ∧ s'.txPacket = none) := by
  have hs := Reserved.run h
  obtain ⟨hpkt, hne, hr⟩ := hs.of_ready hp
  obtain ⟨q, hq, -, hzero, hpackets, -⟩ := hs.fifo.push hne hr
  refine ⟨hr, q, hq, hzero, hpackets, fun hen => ?_⟩
  have hask : s.askAvailable = { s with pktDone := false } := if_pos (by rw [hpkt]; rfl)
  have hphases : s.cache.Phases :=
    run_inv (I := fun s => s.cache.Phases) (fun _ _ _ hs h => phases_step hs h)
      (DescCache.Phases.init base len size) h
  rw [txStateMachine, if_neg (by simp [hen]), hp, hask]
  exact pushPacket_ok (s := { s with pktDone := false }) hphases hq

def smallParams : NicParams := ⟨1, 64, 64⟩

/-- A data descriptor of 3 bytes, the first of a packet, and one of 2 bytes that ends it. -/
def twoDescs : List TxDesc := [⟨0x1000, 0x20100003⟩, ⟨0x2000, 0x21100002⟩]

def gatherOps : List Op :=
  [.writeTctl 2, .writeTdt 2, .fetchDelayEvent, .fetchEvent twoDescs, .tick false [],
    .pktEvent [1, 2, 3], .tick false [], .pktEvent [4, 5]]

theorem push_reserved_gatherOps : ∃ s p,
    Machine.run (TxPath.step smallParams) (init 4096 8 8 100) gatherOps = .ok s
      ∧ s.ready = some p ∧ p.data = [1, 2, 3, 4, 5]
      ∧ s.txFifo.reserved.toNat = p.length
      ∧ ∃ q, s.txFifo.push p = .ok (some q) ∧ q.reserved = 0
        ∧ q.packets = s.txFifo.packets ++ [p]
        ∧ (s.en = true → ∃ s', s.txStateMachine smallParams = .ok s' ∧ s'.txFifo = q
          ∧ s'.txPacket = none) := by
  have hend : Ends (Machine.run (TxPath.step smallParams) (init 4096 8 8 100) gatherOps)
      fun s => s.ready = some ⟨[1, 2, 3, 4, 5], 64, 5⟩ := by decide
  obtain ⟨s, hs, hp⟩ := hend.exists
  exact ⟨s, _, hs, hp, rfl, push_reserved hs hp⟩

end TxPath

end Gem5
