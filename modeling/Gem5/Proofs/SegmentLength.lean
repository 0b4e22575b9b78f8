import Gem5.Proofs.TxBuffer

/-!
# The lengths in the headers of a segment

The length of a finished segment without its Ethernet header goes into the length field of the IP
header, where it belongs, and into that of the UDP header, where the length of the IP header is to
be left out as well. A segment fits its buffer, so neither is cut to its 16 bits.
-/

namespace Gem5

open Bytes Inet Machine

namespace TxPath

variable {P : NicParams} {s s' t : TxPath} {p : EthPacket} {c : Cached TxDesc}
  {rest : List (Cached TxDesc)} {d : List Byte} {eth udp : ℕ}

/-! ### Data is fetched into the buffer -/

/-- Data on the bus has its place in the buffer, and none is for a finished packet. -/
structure Fetching (e : TxEngine) : Prop where
  fits : ∀ a n, e.dma = some (.packet a n) → ∃ p, e.txPacket = some p ∧ p.length + n ≤ p.bufLength
  done : e.pktDone = true → e.dma = none

theorem processContextDesc_dma (hs : Reserved s.toTxEngine s.cache.unusedCache) (hd : s.dma = none)
    (h : s.processContextDesc = .ok s') (a n : ℕ) : s'.dma ≠ some (.packet a n) := by
  obtain ⟨hc, hcd⟩ := Reserved.takeContexts _ rfl hs hd
  rcases processContextDesc_cases h with ⟨-, rfl⟩ | ⟨c, rest, hu, h⟩
  · rw [hcd]
    rintro ⟨⟩
  · obtain ⟨-, had⟩ := hc.advTso hcd c.desc
    rcases fetchHeader_cases h with ⟨-, -, -, -, -, rfl⟩ | ⟨-, rfl⟩
    · rintro ⟨⟩
    · rw [had]
      rintro ⟨⟩

theorem ready_done (h : s.ready = some p) : s.pktDone = true := by
  unfold ready at h
  split at h
  · split_ifs at h with hr
    exact hr.1
  · cases h

theorem released_dma : (s.arrived.released c rest).dma = none := by
  unfold released
  split_ifs <;> rfl

namespace Fetching

theorem of_dma {e : TxEngine} (h : ∀ a n, e.dma ≠ some (.packet a n))
    (hdone : e.pktDone = true → e.dma = none) : Fetching e :=
  ⟨fun a n hd => absurd hd (h a n), hdone⟩

theorem of_none {e : TxEngine} (h : e.dma = none) : Fetching e :=
  of_dma (fun a n hd => by rw [h] at hd; cases hd) fun _ => h

theorem framed (hs : Fetching s.toTxEngine) (h : Framed s s') : Fetching s'.toTxEngine := by
  rwa [h.engine]

theorem withPacket (hs : Fetching s.toTxEngine) (size : ℕ) :
    Fetching (s.withPacket (s.txPacket.getD (.alloc size))).toTxEngine where
  fits := fun a n hd => by
    obtain ⟨p, hp, hle⟩ := hs.fits a n hd
    refine ⟨p, ?_, hle⟩
    show some (s.txPacket.getD (.alloc size)) = some p
    rw [hp]
    rfl
  done := hs.done

theorem reserveNext (hd : s.dma = none) (hdone : s.pktDone = false)
    (h : s.reserveNext p = .ok s') : Fetching s'.toTxEngine := by
  obtain ⟨size, t, hsize, h⟩ := reserveNext_cases h
  have ht : t.dma = none ∧ t.pktDone = false := by
    rcases getPacketSize_cases hsize with ⟨-, -, rfl⟩ | ⟨c, rest, -, ⟨-, -, -, rfl⟩ | ⟨-, -, rfl⟩⟩
      <;> exact ⟨hd, hdone⟩
  obtain ⟨htd, hnot⟩ := ht
  have hfalse : ∀ {X : Prop}, t.pktDone = true → X := fun hyes =>
    absurd (hnot.symm.trans hyes) Bool.noConfusion
  rcases h with ⟨-, -, q, -, h⟩ | ⟨-, h⟩ | ⟨-, -, rfl⟩
  · obtain ⟨c, rest, -, -, -, ⟨-, -, hle, -, rfl⟩ | ⟨-, hle, rfl⟩⟩ := getPacketData_cases h
    · refine ⟨fun a n hdma => ?_, hfalse⟩
      cases hdma
      exact ⟨_, rfl, hle⟩
    · refine ⟨fun a n hdma => ?_, hfalse⟩
      cases hdma
      exact ⟨_, rfl, hle⟩
  · exact framed (of_none htd) (Quiet.writeback h).toFramed
  · exact of_none htd

theorem nextPacket (hr : Reserved s.toTxEngine s.cache.unusedCache) (hs : Fetching s.toTxEngine)
    (hdone : s.pktDone = false) (h : s.nextPacket P = .ok s') : Fetching s'.toTxEngine := by
  obtain ⟨t, p, ht, rfl, h⟩ := nextPacket_cases h
  have hp := (hs.framed ht.toFramed).withPacket P.txPacketSize
  have htdone : t.pktDone = false := (congrArg TxEngine.pktDone ht.engine).trans hdone
  rcases h with ⟨-, u, hu, rfl⟩ | ⟨hw, -, u, hu, h⟩
  · show Fetching u.toTxEngine
    exact hp.framed hu.toFramed
  · have hd : t.dma = none := by
      rw [ht.engine]
      exact hr.dma_of_not_waiting hw
    have hrp := (hr.framed ht.toFramed).withPacket P.txPacketSize
    have hru := hrp.processContextDesc hd hu
    have hudone : u.pktDone = false := (processContextDesc_packet hu).2.trans htdone
    rcases h with ⟨-, rfl⟩ | ⟨hw', h⟩
    · show Fetching u.toTxEngine
      refine of_dma (processContextDesc_dma hrp hd hu) fun hyes => ?_
      exact absurd (hudone.symm.trans hyes) Bool.noConfusion
    · exact reserveNext (hru.dma_of_not_waiting hw') hudone h

theorem txStateMachine (hr : Reserved s.toTxEngine s.cache.unusedCache)
    (hs : Fetching s.toTxEngine) (h : s.txStateMachine P = .ok s') : Fetching s'.toTxEngine := by
  obtain ⟨hask, hnot⟩ := hr.askAvailable
  rw [← askAvailable_cache] at hask
  have haskd : s.askAvailable.dma = s.dma ∧ Fetching s.askAvailable.toTxEngine := by
    unfold TxPath.askAvailable
    split_ifs
    · exact ⟨rfl, hs.fits, fun hyes => by cases hyes⟩
    · exact ⟨rfl, hs⟩
  unfold TxPath.txStateMachine at h
  split_ifs at h
  · cases h
    exact hs
  · split at h
    · rename_i p hp
      obtain ⟨q, -, hquiet⟩ := pushPacket_cases h
      have hd : s.dma = none := hs.done (ready_done hp)
      refine framed ?_ hquiet.toFramed
      exact of_none (haskd.1.trans hd)
    · exact nextPacket hask haskd.2 hnot h

theorem txWire {w : Wire} (hs : Fetching s.toTxEngine) (h : s.txWire w = .ok s') :
    Fetching s'.toTxEngine := by
  rcases txWire_cases h with ⟨-, rfl⟩ | ⟨-, -, -, rfl⟩ | ⟨p, q, -, -, -, ⟨-, rfl⟩ | ⟨-, rfl⟩⟩
  · exact hs
  · exact hs
  · exact { hs with }
  · exact { hs with }

theorem step {o : Op} (hr : Reserved s.toTxEngine s.cache.unusedCache) (hs : Fetching s.toTxEngine)
    (h : s.step P o = .ok s') : Fetching s'.toTxEngine := by
  by_cases ho : o.IsEngine
  · cases o with
    | tick rx ws =>
      obtain ⟨-, t, u, hsm, hu, rfl⟩ := tick_cases h
      have ht : Fetching t.toTxEngine := by
        rcases hsm with ⟨-, hsm⟩ | ⟨-, rfl⟩
        · exact txStateMachine (s := { s with tickEvent := false, rxTick := rx }) { hr with } hs hsm
        · exact hs
      exact (wireLoop_inv (I := fun t => Fetching t.toTxEngine) (fun _ _ _ hs _ h => hs.txWire h) ws
        ht hu).1
    | headerEvent data =>
      obtain ⟨a, len, c, rest, -, -, -, ⟨-, h⟩ | ⟨-, h⟩⟩ := headerComplete_cases h
      · refine framed ?_ h.toFramed
        exact of_none rfl
      · refine framed ?_ h.toFramed
        exact of_none rfl
    | pktEvent data =>
      obtain ⟨a, len, p, c, rest, -, -, -, hu, -, ⟨-, h⟩ | ⟨-, h⟩⟩ := pktComplete_cases h
      · obtain ⟨-, hw⟩ := partialPacket_cases (s := s.arrived) hu h
        refine framed ?_ hw.toFramed
        exact of_none rfl
      · obtain ⟨d, d', -, -, hw⟩ := finishPacket_cases (s := s.arrived) hu h
        refine framed (of_none ?_) hw.toFramed
        exact released_dma
    | _ => exact ho.elim
  · rwa [(Extended.step ho h).engine]

theorem init (base len size : ℕ) (max : BitVec 32) :
    Fetching (TxPath.init base len size max).toTxEngine := of_none rfl

end Fetching

theorem length_le_of_run {base len size : ℕ} {max : BitVec 32} {ops : List Op} {a n : ℕ}
    (h : run (TxPath.step P) (TxPath.init base len size max) ops = .ok s)
    (hd : s.dma = some (.packet a n)) (hp : s.txPacket = some p) :
    p.length + n ≤ P.txPacketSize := by
  have hI := run_inv (I := fun s : TxPath => Reserved s.toTxEngine s.cache.unusedCache
      ∧ Fetching s.toTxEngine) (fun _ _ _ hs h => ⟨hs.1.step h, hs.2.step hs.1 h⟩)
    ⟨.init base len size max, .init base len size max⟩ h
  obtain ⟨p', hp', hle⟩ := hI.2.fits a n hd
  obtain rfl := Option.some.inj (hp.symm.trans hp')
  have hbuf : p.bufLength = P.txPacketSize := (bufLength_run h).packet p hp
  rwa [← hbuf]

/-! ### The headers of a UDP segment -/

/-- What the headers of a UDP segment are told. -/
structure NumberedUdp (eth udp : ℕ) (d d' : List Byte) : Prop where
  same : SameBut (rewrittenUdp eth udp) d d'
  len : be16 d' (eth + 2) = (d.length - eth) % 2 ^ 16
  udpLen : be16 d' (udp + 4) = (d.length - eth) % 2 ^ 16

theorem segmentHeaders_udp (hd : HasUdp d eth udp) :
    ∃ d', s.segmentHeaders d = .ok d' ∧ NumberedUdp eth udp d d' := by
  have hlen := hd.hlen
  have hl := hd.length
  set d₁ := Ip.setId d (Ip.id d + s.tsoPkts) with hd₁
  set d₂ := Ip.setLen d₁ (d.length - ethSize d) with hd₂
  set d₃ := Udp.setLen d₂ udp (d.length - ethSize d) with hd₃
  have hsub : ∀ {x y : ℕ}, (∀ i, x ≤ i → i < y → i ∈ rewrittenUdp eth udp) →
      Set.Ico x y ⊆ rewrittenUdp eth udp := fun h i hi => h i hi.1 hi.2
  have e₁ : SameBut (Set.Ico (eth + 4) (eth + 6)) d d₁ := setId_same hd.size _
  have m₁ := e₁.mono (hsub fun i _ _ => mem_rewrittenUdp.2 (by omega))
  have w₁ : HasUdp d₁ eth udp := hd.same m₁
  have e₂ : SameBut (Set.Ico (eth + 2) (eth + 4)) d₁ d₂ := setLen_same w₁.size _
  have m₂ := e₂.mono (hsub fun i _ _ => mem_rewrittenUdp.2 (by omega))
  have w₂ : HasUdp d₂ eth udp := w₁.same m₂
  have e₃ : SameBut (Set.Ico (udp + 4) (udp + 6)) d₂ d₃ := setUdpLen_same _ _ _
  have m₃ := e₃.mono (hsub fun i _ _ => mem_rewrittenUdp.2 (by omega))
  refine ⟨d₃, ?_, m₁.trans (m₂.trans m₃), ?_, ?_⟩
  · rw [segmentHeaders]
    simp only [if_pos hd.ip]
    rw [← hd₁, ← hd₂, if_neg (not_ip6 w₂.ip), w₂.tcpPtr]
    simp only [bind, Except.bind]
    rw [w₂.udpPtr]
    rfl
  · rw [e₃.be16 (by simp; omega) (by simp; omega), hd₂, Ip.setLen, w₁.size,
      be16_splice (by rw [e₁.length]; omega), hd.size]
  · rw [hd₃, Udp.setLen, be16_splice (by rw [e₂.length, e₁.length]; omega), hd.size]

def sumsUdp (eth udp : ℕ) : Set ℕ := Set.Ico (eth + 10) (eth + 12) ∪ Set.Ico (udp + 6) (udp + 8)

theorem sumsUdp_subset : sumsUdp eth udp ⊆ rewrittenUdp eth udp := by
  intro i hi
  simp only [sumsUdp, Set.mem_union, Set.mem_Ico] at hi
  rw [mem_rewrittenUdp]
  omega

theorem tuChecksum_udp (hd : HasUdp d eth udp) :
    ∃ d', tuChecksum d = .ok d' ∧ SameBut (sumsUdp eth udp) d d' := by
  have h₁ := (setUdpSum_same d udp 0).mono (T := sumsUdp eth udp) Set.subset_union_right
  obtain ⟨sum, hsum⟩ := cksum_ok (hd.same (h₁.mono sumsUdp_subset)).ip
  have h₂ := (setUdpSum_same (Udp.setSum d udp 0) udp sum).mono (T := sumsUdp eth udp)
    Set.subset_union_right
  refine ⟨_, ?_, h₁.trans h₂⟩
  rw [tuChecksum, hd.tcpPtr, hd.udpPtr]
  simp only [bind, Except.bind, hsum]
  rfl

theorem offloadChecksums_udp (desc : TxDesc) (hd : HasUdp d eth udp) :
    ∃ d', offloadChecksums desc d = .ok d' ∧ SameBut (sumsUdp eth udp) d d' := by
  have h₁ : SameBut (sumsUdp eth udp) d (ipChecksum desc d) :=
    (ipChecksum_same desc hd.size).mono Set.subset_union_left
  exact offloadChecksums_same desc hd.ip h₁ (tuChecksum_udp (hd.same (h₁.mono sumsUdp_subset)))

/-- The bytes of a finished segment, with the length of its IP header and, in a UDP segment, the
same number once more. -/
theorem finished_lengths {l4 : ℕ} (desc : TxDesc) (htso : s.useTso = true)
    (hd : HasTcp d eth l4 ∨ HasUdp d eth l4) :
    ∃ d₁ d', s.segmentData d = .ok d₁ ∧ offloadChecksums desc d₁ = .ok d' ∧ d'.length = d.length
      ∧ be16 d' (eth + 2) = (d.length - eth) % 2 ^ 16
      ∧ (HasUdp d eth l4 → be16 d' (l4 + 4) = (d.length - eth) % 2 ^ 16) := by
  rw [segmentData, if_pos htso]
  rcases hd with hd | hd
  · have hlen := hd.hlen
    obtain ⟨d₁, h₁, hnum⟩ := segmentHeaders_ok (s := s) hd
    obtain ⟨d', h', hsame⟩ := offloadChecksums_ok desc (hd.same hnum.same)
    refine ⟨d₁, d', h₁, h', hsame.length.trans hnum.same.length, ?_, fun hudp => ?_⟩
    · rw [hsame.be16 (by simp [sums]; omega) (by simp [sums]; omega), hnum.len]
    · exact absurd (hd.proto.symm.trans hudp.proto) (by decide)
  · have hlen := hd.hlen
    obtain ⟨d₁, h₁, hnum⟩ := segmentHeaders_udp (s := s) hd
    obtain ⟨d', h', hsame⟩ := offloadChecksums_udp desc (hd.same hnum.same)
    refine ⟨d₁, d', h₁, h', hsame.length.trans hnum.same.length, ?_, fun _ => ?_⟩
    · rw [hsame.be16 (by simp [sumsUdp]; omega) (by simp [sumsUdp]; omega), hnum.len]
    · rw [hsame.be16 (by simp [sumsUdp]; omega) (by simp [sumsUdp]; omega), hnum.udpLen]

/-- The last data of a segment of a TCP or UDP packet arrives. The segment is finished, the length
in its IP header is right, and that in a UDP header is not. -/
theorem segment_lengths_iff {base len size : ℕ} {max : BitVec 32} {ops : List Op} {a l4 : ℕ}
    {data : List Byte} (hP : P.txPacketSize = 16384)
    (hrun : run (step P) (init base len size max) ops = .ok s) (htso : s.useTso = true)
    (hdma : s.dma = some (.packet a data.length)) (hp : s.txPacket = some p)
    (hu : s.cache.unusedCache = c :: rest) (hdata : c.desc.isLegacy = true ∨ c.desc.isData = true)
    (hne : c.desc.getLen ≠ 0) (hvle : c.desc.vle = false)
    (hlast : ¬ s.arrived.NeedsMore (received p data) c.desc)
    (hd : HasTcp (p.data ++ data) eth l4 ∨ HasUdp (p.data ++ data) eth l4) :
    ∃ s' p', s.step P (.pktEvent data) = .ok s' ∧ s'.ready = some p'
      ∧ p'.length = p.length + data.length ∧ be16 p'.data (eth + 2) = p'.length - eth
      ∧ ((HasUdp (p.data ++ data) eth l4 → be16 p'.data (l4 + 4) = p'.length - l4)
        ↔ HasTcp (p.data ++ data) eth l4) := by
  have hle := length_le_of_run hrun hdma hp
  obtain ⟨d₁, d', h₁, h', hlen, hip, hudp⟩ := finished_lengths (s := s.arrived) c.desc htso hd
  have hph : s.cache.Phases :=
    run_inv (fun _ _ _ hs h => phases_step hs h) (DescCache.Phases.init base len size) hrun
  have hend : Ends (s.pktComplete P data)
      (Woken ((s.arrived.released c rest).completed (received p data) d')) := by
    refine pktComplete_ends hdma hp hu hdata hne (fun hmore => absurd hmore hlast) fun _ => ?_
    exact finishPacket_ends (s := s.arrived) hph hu hvle h₁ h'
  obtain ⟨s', hs', hw⟩ := hend.exists
  have hl4 : eth + 20 ≤ l4 ∧ l4 + 8 ≤ (p.data ++ data).length := by
    rcases hd with hd | hd
    · exact ⟨hd.hlen, le_trans (by omega) hd.length⟩
    · exact ⟨hd.hlen, hd.length⟩
  rw [List.length_append] at hl4 hlen hip hudp
  have hsmall : (p.data.length + data.length - eth) % 2 ^ 16
      = p.data.length + data.length - eth := by
    have hle' : p.data.length + data.length ≤ P.txPacketSize := hle
    exact Nat.mod_eq_of_lt (by omega)
  refine ⟨s', { received p data with data := d' }, hs', ?_, hlen, ?_, ?_⟩
  · have hpkt : s'.txPacket = some { received p data with data := d' } := by
      rw [hw.engine]
      rfl
    have hdone : s'.pktDone = true ∧ s'.pktMultiDesc = false := by
      rw [hw.engine]
      exact ⟨rfl, rfl⟩
    unfold ready
    rw [hpkt]
    refine if_pos ⟨hdone.1, hdone.2, ?_⟩
    show d'.length ≠ 0
    omega
  · show be16 d' (eth + 2) = d'.length - eth
    rw [hip, hsmall, hlen]
  · refine ⟨fun hall => hd.resolve_right fun hyes => ?_, fun htcp hyes => ?_⟩
    · have hfield : be16 d' (l4 + 4) = d'.length - l4 := hall hyes
      rw [hudp hyes, hsmall, hlen] at hfield
      omega
    · exact absurd (htcp.proto.symm.trans hyes.proto) (by decide)

def udpHeader : List Byte :=
  List.replicate 12 0 ++ [8, 0, 0x45, 0, 0, 0, 0, 7, 0, 0, 64, 17, 0, 0, 10, 0, 0, 1, 10, 0, 0, 2]
    ++ [0, 80, 0, 81, 0, 0, 0, 0]

/-- A context descriptor with TSE, for a header of 42 bytes and 2 bytes, and one with both. -/
def udpDescs : List TxDesc := [⟨0, 0x00042a0024000002⟩, ⟨0, 0x2110002c⟩]

def udpParams : NicParams := ⟨1, 64, 16384⟩

/-- The descriptors are fetched, then the header, and the data is on the bus. -/
def udpOps : List Op :=
  [.writeTctl 2, .writeTdt 2, .fetchDelayEvent, .fetchEvent udpDescs, .tick false [],
    .headerEvent udpHeader, .tick false []]

theorem udpOps_run : Ends (run (step udpParams) (init 4096 8 8 100) udpOps) fun s =>
    s.useTso = true ∧ s.dma = some (.packet 42 2) ∧ s.txPacket = some ⟨udpHeader, 16384, 0⟩
      ∧ s.cache.unusedCache.length = 1
      ∧ ∀ c ∈ s.cache.unusedCache, c.desc.isData = true ∧ c.desc.getLen ≠ 0
        ∧ c.desc.vle = false ∧ ¬ s.arrived.NeedsMore ⟨udpHeader ++ [1, 2], 16384, 2⟩ c.desc := by
  decide +kernel

theorem segment_lengths_iff_udpOps :
    ∃ s s' p', run (step udpParams) (init 4096 8 8 100) udpOps = .ok s
      ∧ s.step udpParams (.pktEvent [1, 2]) = .ok s' ∧ s'.ready = some p'
      ∧ p'.length = 44 ∧ be16 p'.data 16 = 30 ∧ be16 p'.data 38 ≠ 10 := by
  obtain ⟨s, hs, htso, hdma, hp, hone, hall⟩ := udpOps_run.exists
  obtain ⟨c, hc⟩ := List.length_eq_one_iff.1 hone
  obtain ⟨hdata, hne, hvle, hlast⟩ := hall c (by rw [hc]; exact List.mem_singleton_self c)
  have hudp : HasUdp (udpHeader ++ [1, 2]) 14 34 :=
    ⟨by decide, by decide, by decide, by decide, by decide, by decide⟩
  have htcp : ¬ HasTcp (udpHeader ++ [1, 2]) 14 34 := fun h =>
    absurd (hudp.proto.symm.trans h.proto) (by decide)
  obtain ⟨s', p', hs', hready, hlen, hip, hiff⟩ := segment_lengths_iff rfl hs htso hdma hp hc
    (.inr hdata) hne hvle hlast (.inr hudp)
  have hlen' : p'.length = 44 := hlen
  refine ⟨s, s', p', hs, hs', hready, hlen', by rw [hip, hlen'], fun h => htcp (hiff.1 fun _ => ?_)⟩
  rw [h, hlen']

/-- The segment has 8 bytes of UDP header and 2 of data, and its UDP header says 30. -/
theorem segment_lengths_wrong :
    Ends (run (step udpParams) (init 4096 8 8 100) (udpOps ++ [.pktEvent [1, 2]]))
      fun s => (s.ready.map fun p => (p.length, be16 p.data 16, be16 p.data 38))
        = some (44, 30, 30) := by
  decide +kernel

end TxPath

end Gem5
