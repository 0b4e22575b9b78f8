import Gem5.Proofs.Engines
import Gem5.TxPath

/-!
# What the steps of the transmit path do

Interrupts, timers, write-backs and fetches leave the packet being gathered and the descriptors it
is gathered from alone (`Framed`), so that what is said of a packet is said of `TxEngine` and the
unused descriptors.
-/

namespace Gem5

open List

namespace TxDesc

theorem bits_lt (v : BitVec 64) (first n : ℕ) : bits v first n < 2 ^ n := BitVec.isLt _

theorem getLen_lt (d : TxDesc) : d.getLen < 2 ^ 20 := by
  unfold getLen
  have h₁ := bits_lt d.d2 0 16
  have h₂ := bits_lt d.d2 0 20
  split_ifs <;> omega

theorem getLsbD_setDd (d : TxDesc) {i : ℕ} (hi : i < 32 ∨ 36 ≤ i) :
    d.setDd.d2.getLsbD i = d.d2.getLsbD i := by
  by_cases h : i < 64
  · have h₁ : ∀ i < 64, i < 32 ∨ 36 ≤ i → (0xf00000000 : BitVec 64).getLsbD i = false := by decide
    have h₂ : ∀ i < 64, i < 32 ∨ 36 ≤ i → (0x100000000 : BitVec 64).getLsbD i = false := by decide
    simp only [setDd, BitVec.getLsbD_or, BitVec.getLsbD_and, BitVec.getLsbD_not, h₁ i h hi, h₂ i h hi]
    simp [h]
  · rw [BitVec.getLsbD_of_ge _ _ (by omega), BitVec.getLsbD_of_ge _ _ (by omega)]

theorem bits_setDd (d : TxDesc) {first n : ℕ} (hn : first + n ≤ 32 ∨ 36 ≤ first) :
    bits d.setDd.d2 first n = bits d.d2 first n := by
  unfold bits
  congr 1
  ext i hi
  simp only [BitVec.getElem_extractLsb']
  exact d.getLsbD_setDd (by omega)

@[simp] theorem isLegacy_setDd (d : TxDesc) : d.setDd.isLegacy = d.isLegacy := by
  simp only [isLegacy, d.getLsbD_setDd (show 29 < 32 ∨ _ by omega)]

@[simp] theorem getType_setDd (d : TxDesc) : d.setDd.getType = d.getType :=
  d.bits_setDd (by omega)

@[simp] theorem getLen_setDd (d : TxDesc) : d.setDd.getLen = d.getLen := by
  simp only [getLen, isLegacy_setDd, d.bits_setDd (show 0 + 16 ≤ 32 ∨ _ by omega),
    d.bits_setDd (show 0 + 20 ≤ 32 ∨ _ by omega)]

@[simp] theorem getLen_report (d : TxDesc) : d.report.getLen = d.getLen := by
  unfold report
  split_ifs <;> simp

end TxDesc

namespace TxPath

variable {d : TxDesc} {o : Op}

open Bytes Machine

variable {P : NicParams} {s s' t : TxPath}

/-- The packet, the descriptors for it and the wire are left alone. -/
structure Framed (s s' : TxPath) : Prop where
  engine : s'.toTxEngine = s.toTxEngine
  cache : s.cache.Untouched s'.cache
  reaches : Reaches DescCache.step s.cache s'.cache
  sent : s'.sent = s.sent
  onWire : s'.onWire = s.onWire
  tctl : s'.tctl = s.tctl
  drainState : s'.drainState = s.drainState

namespace Framed

theorem of_cache_eq (he : s'.toTxEngine = s.toTxEngine) (hc : s'.cache = s.cache)
    (hs : s'.sent = s.sent) (hw : s'.onWire = s.onWire) (ht : s'.tctl = s.tctl)
    (hd : s'.drainState = s.drainState) : Framed s s' :=
  ⟨he, hc ▸ .refl _, hc ▸ .refl _, hs, hw, ht, hd⟩

theorem refl (s : TxPath) : Framed s s := of_cache_eq rfl rfl rfl rfl rfl rfl

theorem trans (h : Framed s s') (h' : Framed s' t) : Framed s t where
  engine := h'.engine.trans h.engine
  cache := h.cache.trans h'.cache
  reaches := h.reaches.trans h'.reaches
  sent := h'.sent.trans h.sent
  onWire := h'.onWire.trans h.onWire
  tctl := h'.tctl.trans h.tctl
  drainState := h'.drainState.trans h.drainState

theorem restartClock (s : TxPath) : Framed s s.restartClock := by
  unfold TxPath.restartClock
  split_ifs
  · exact of_cache_eq rfl rfl rfl rfl rfl rfl
  · exact .refl s

theorem checkDrain (s : TxPath) : Framed s s.checkDrain := by
  unfold TxPath.checkDrain
  split_ifs
  · exact of_cache_eq rfl rfl rfl rfl rfl rfl
  · exact .refl s

end Framed

/-- And the state machines tick as before. -/
structure Quiet (s s' : TxPath) : Prop extends Framed s s' where
  txTick : s'.txTick = s.txTick
  txFifoTick : s'.txFifoTick = s.txFifoTick
  tickEvent : s'.tickEvent = s.tickEvent

namespace Quiet

theorem refl (s : TxPath) : Quiet s s := ⟨.refl s, rfl, rfl, rfl⟩

theorem trans (h : Quiet s s') (h' : Quiet s' t) : Quiet s t where
  toFramed := h.toFramed.trans h'.toFramed
  txTick := h'.txTick.trans h.txTick
  txFifoTick := h'.txFifoTick.trans h.txFifoTick
  tickEvent := h'.tickEvent.trans h.tickEvent

theorem of_intr (s : TxPath) (i : Intr) : Quiet s { s with intr := i } :=
  ⟨.of_cache_eq rfl rfl rfl rfl rfl rfl, rfl, rfl, rfl⟩

theorem postInterrupt {i : BitVec 32} (h : s.postInterrupt P i = .ok s') : Quiet s s' := by
  obtain ⟨intr, -, rfl⟩ := bind_pure_ok.1 h
  exact of_intr s intr

theorem writeback {a : BitVec 64} (h : s.writeback a = .ok s') : Quiet s s' := by
  obtain ⟨c, hc, rfl⟩ := bind_pure_ok.1 h
  exact ⟨⟨rfl, .writeback hc, .single (o := .writeback a) hc, rfl, rfl, rfl, rfl⟩, rfl, rfl, rfl⟩

theorem fetchDescriptors (h : s.fetchDescriptors = .ok s') : Quiet s s' := by
  obtain ⟨c, hc, rfl⟩ := bind_pure_ok.1 h
  exact ⟨⟨rfl, .fetchDescriptors hc, .single (o := .fetchDescriptors) hc, rfl, rfl, rfl, rfl⟩, rfl,
    rfl, rfl⟩

theorem wbFinished (h : s.wbFinished P = .ok s') : Quiet s s' := by
  unfold TxPath.wbFinished at h
  split_ifs at h
  · exact writeback h
  · exact writeback h
  · exact writeback h
  · cases h
    exact .refl s

end Quiet

/-- And the state machine is set ticking, unless the device drains. -/
structure Woken (s s' : TxPath) : Prop extends Framed s s' where
  txTick : s.drainState ≠ .draining → s'.txTick = true
  txFifoTick : s.drainState ≠ .draining → s'.txFifoTick = s.txFifoTick
  tickEvent : s.drainState = .running → s'.tickEvent = true

namespace Woken

theorem enableSm_checkDrain (s : TxPath) : Woken s s.enableSm.checkDrain := by
  by_cases hd : s.drainState = .draining
  · have he : s.enableSm = s := if_pos hd
    rw [he]
    exact ⟨.checkDrain s, fun h => absurd hd h, fun h => absurd hd h, fun h => by simp [h] at hd⟩
  · have he : s.enableSm = TxPath.restartClock { s with txTick := true } := if_neg hd
    have hf := Framed.restartClock { s with txTick := true }
    have hc : s.enableSm.checkDrain = s.enableSm := by
      rw [he, TxPath.checkDrain, if_neg]
      rwa [hf.drainState]
    rw [hc, he]
    refine ⟨{ hf with }, fun _ => ?_, fun _ => ?_, fun hr => ?_⟩
    · unfold TxPath.restartClock
      split_ifs <;> rfl
    · unfold TxPath.restartClock
      split_ifs <;> rfl
    · unfold TxPath.restartClock
      rw [if_pos ⟨.inr (.inl rfl), hr⟩]

theorem of_quiet (h : Quiet s s') (h' : Woken s' t) : Woken s t where
  toFramed := h.toFramed.trans h'.toFramed
  txTick hd := h'.txTick (by rw [h.drainState]; exact hd)
  txFifoTick hd := (h'.txFifoTick (by rw [h.drainState]; exact hd)).trans h.txFifoTick
  tickEvent hd := h'.tickEvent (by rw [h.drainState]; exact hd)

end Woken

theorem getPacketSize_cases {p : EthPacket} {size : BitVec 32}
    (h : s.getPacketSize p = .ok (size, s')) :
    (s.cache.unusedCache = [] ∧ size = 0 ∧ s' = s)
    ∨ ∃ c rest, s.cache.unusedCache = c :: rest ∧
      ((s.useTso = true ∧ s.tsoLoadedHeader = true
        ∧ size = BitVec.ofNat 32 (s.copyBytes p.length c.desc
          + if s.tsoPktHasHeader then 0 else s.tsoHeaderLen)
        ∧ s' = { s with tsoCopyBytes := s.copyBytes p.length c.desc })
      ∨ (s.useTso = false ∧ size = BitVec.ofNat 32 c.desc.getLen ∧ s' = s)) := by
  unfold getPacketSize at h
  split at h
  · rename_i hu
    obtain ⟨rfl, rfl⟩ := Prod.mk.inj (Except.ok.inj h)
    exact .inl ⟨hu, rfl, rfl⟩
  · rename_i c rest hu
    obtain ⟨_, hl, h⟩ := bind_ok.1 h
    rw [require_ok] at hl
    refine .inr ⟨c, rest, hu, ?_⟩
    split_ifs at h with ht hh
    · obtain ⟨rfl, rfl⟩ := Prod.mk.inj (Except.ok.inj h)
      exact .inl ⟨ht, hl ht, by rw [if_pos hh], rfl⟩
    · obtain ⟨rfl, rfl⟩ := Prod.mk.inj (Except.ok.inj h)
      exact .inl ⟨ht, hl ht, by rw [if_neg hh], rfl⟩
    · obtain ⟨rfl, rfl⟩ := Prod.mk.inj (Except.ok.inj h)
      exact .inr ⟨Bool.eq_false_iff.2 ht, rfl, rfl⟩

theorem copyBytes_le (h : s.tsoDescBytesUsed ≤ d.getLen) (n : ℕ) :
    s.copyBytes n d ≤ d.getLen - s.tsoDescBytesUsed := by
  simp only [copyBytes, addrSub, if_pos h]
  split_ifs <;> exact min_le_right _ _

/-- The packet `getPacketData` starts the DMA into: it has its header. -/
def headed (s : TxPath) (p : EthPacket) : EthPacket :=
  if s.tsoPktHasHeader then p else withHeader p (s.tsoHeader.take s.tsoHeaderLen)

theorem length_headed {p : EthPacket} (h : s.tsoHeaderLen ≤ s.tsoHeader.length) :
    (s.headed p).length = p.length + if s.tsoPktHasHeader then 0 else s.tsoHeaderLen := by
  unfold headed
  split_ifs
  · rfl
  · simp only [withHeader, EthPacket.length, length_splice, length_append,
      length_replicate, length_take, min_eq_left h]

theorem getPacketData_cases {p : EthPacket} (h : s.getPacketData p = .ok s') :
    ∃ c rest, s.cache.unusedCache = c :: rest
      ∧ (c.desc.isLegacy = true ∨ c.desc.isData = true) ∧ c.desc.getLen ≠ 0
      ∧ ((s.useTso = true ∧ s.tsoLoadedHeader = true
          ∧ (s.headed p).length + s.tsoCopyBytes ≤ (s.headed p).bufLength
          ∧ s.tsoDescBytesUsed + s.tsoCopyBytes ≤ c.desc.getLen
          ∧ s' = { s with
            txPacket := some (s.headed p)
            tsoPktHasHeader := true
            tsoDescBytesUsed := s.tsoDescBytesUsed + s.tsoCopyBytes
            pktWaiting := true
            dma := some (.packet (c.desc.getBuf + s.tsoDescBytesUsed) s.tsoCopyBytes) })
        ∨ (s.useTso = false ∧ p.length + c.desc.getLen ≤ p.bufLength
          ∧ s' = { s with
            txPacket := some p
            pktWaiting := true
            dma := some (.packet c.desc.getBuf c.desc.getLen) })) := by
  unfold getPacketData at h
  split at h
  · cases h
  · rename_i c rest hu
    obtain ⟨_, hd, h⟩ := bind_ok.1 h
    rw [require_ok] at hd
    refine ⟨c, rest, hu, hd.1, hd.2, ?_⟩
    split at h
    · rename_i ht
      simp only [bind_ok, require_ok, inBounds_ok] at h
      obtain ⟨-, hl, -, hb, -, hu, h⟩ := h
      exact .inl ⟨ht, hl, hb, hu, (Except.ok.inj h).symm⟩
    · rename_i ht
      simp only [bind_ok, inBounds_ok] at h
      obtain ⟨-, hb, h⟩ := h
      exact .inr ⟨Bool.eq_false_iff.2 ht, hb, (Except.ok.inj h).symm⟩

theorem pktComplete_cases {data : List Byte} (h : s.pktComplete P data = .ok s') :
    ∃ a len p c rest, s.dma = some (.packet a len) ∧ s.txPacket = some p ∧ data.length = len
      ∧ s.cache.unusedCache = c :: rest ∧ (c.desc.isLegacy = true ∨ c.desc.isData = true)
      ∧ ((s.arrived.NeedsMore (received p data) c.desc
          ∧ s.arrived.partialPacket (received p data) c.desc = .ok s')
        ∨ (¬ s.arrived.NeedsMore (received p data) c.desc
          ∧ s.arrived.finishPacket P (received p data) c.desc = .ok s')) := by
  unfold pktComplete at h
  split at h
  · rename_i a len p hd hp
    split at h
    · rename_i hlen
      split at h
      · cases h
      · rename_i c rest hu
        obtain ⟨_, hdata, h⟩ := bind_ok.1 h
        rw [require_ok] at hdata
        refine ⟨a, len, p, c, rest, hd, hp, hlen, hu, hdata.1, ?_⟩
        simp only [] at h
        split at h
        · rename_i hmore
          exact .inl ⟨hmore, h⟩
        · rename_i hmore
          exact .inr ⟨hmore, h⟩
    · cases h
  · cases h

variable {c : Cached TxDesc} {rest : List (Cached TxDesc)} {p : EthPacket}

def withPacket (s : TxPath) (p : EthPacket) : TxPath := { s with txPacket := some p }

def usedDesc (s : TxPath) (c : Cached TxDesc) (rest : List (Cached TxDesc)) (f : TxDesc → TxDesc) :
    TxPath :=
  { s with cache := { s.cache with
    unusedCache := rest
    usedCache := s.cache.usedCache ++ [{ c with desc := f c.desc }] } }

theorem useDesc_cases (hu : s.cache.unusedCache = c :: rest) {f : TxDesc → TxDesc}
    (h : s.useDesc f = .ok s') : s' = s.usedDesc c rest f := by
  obtain ⟨cache, hc, rfl⟩ := bind_pure_ok.1 h
  obtain ⟨c', rest', hu', rfl⟩ := DescCache.useDesc_cases hc
  obtain ⟨rfl, rfl⟩ := List.cons.inj (hu.symm.trans hu')
  rfl

theorem reaches_usedDesc (hu : s.cache.unusedCache = c :: rest) (f : TxDesc → TxDesc) :
    Reaches DescCache.step s.cache (s.usedDesc c rest f).cache :=
  .single (o := .useDesc f) (by simp only [DescCache.step, DescCache.useDesc, hu]; rfl)

theorem partialPacket_cases (hu : s.cache.unusedCache = c :: rest)
    (h : s.partialPacket p c.desc = .ok s') :
    (s.useTso = true → s.tsoDescBytesUsed = c.desc.getLen)
      ∧ Woken { s.usedDesc c rest id with
          txPacket := some p
          tsoDescBytesUsed := 0
          pktDone := true
          pktMultiDesc := true } s' := by
  obtain ⟨_, hused, h⟩ := bind_ok.1 h
  obtain ⟨t, ht, rfl⟩ := bind_pure_ok.1 h
  obtain rfl := useDesc_cases hu ht
  rw [require_ok] at hused
  exact ⟨hused, .enableSm_checkDrain _⟩

def released (s : TxPath) (c : Cached TxDesc) (rest : List (Cached TxDesc)) : TxPath :=
  if s.useTso = false ∨ c.desc.getLen = s.tsoDescBytesUsed then
    { s.usedDesc c rest TxDesc.report with tsoDescBytesUsed := 0 }
  else { s with cache := { s.cache with
    unusedCache := { c with desc := c.desc.report } :: rest } }

theorem released_withPacket (p' : EthPacket) (d : List Byte) :
    ((s.withPacket p').released c rest).completed p d = (s.released c rest).completed p d := by
  unfold released withPacket
  split_ifs <;> rfl

theorem startTimers_cases (h : s.startTimers P d = .ok s') :
    ∃ i, s' = { s with intr := i } := by
  unfold startTimers at h
  split at h
  · obtain ⟨_, -, h⟩ := bind_ok.1 h
    obtain ⟨i, -, h⟩ := bind_ok.1 h
    exact ⟨i, (Except.ok.inj h).symm⟩
  · exact ⟨s.intr, (Except.ok.inj h).symm⟩

theorem releaseDesc_cases (hu : s.cache.unusedCache = c :: rest)
    (h : s.releaseDesc c.desc = .ok s') : s' = s.released c rest := by
  unfold releaseDesc at h
  unfold released
  split_ifs at h ⊢ with hr
  · exact useDesc_cases (s := { s with tsoDescBytesUsed := 0 }) hu h
  · obtain ⟨cache, hc, rfl⟩ := bind_pure_ok.1 h
    obtain ⟨c', rest', hu', rfl⟩ := DescCache.modifyDesc_cases hc
    obtain ⟨rfl, rfl⟩ := List.cons.inj (hu.symm.trans hu')
    rfl

theorem finishPacket_cases (hu : s.cache.unusedCache = c :: rest)
    (h : s.finishPacket P p c.desc = .ok s') :
    ∃ d d', s.segmentData p.data = .ok d ∧ offloadChecksums c.desc d = .ok d'
      ∧ Woken ((s.released c rest).completed p d') s' := by
  obtain ⟨_, -, h⟩ := bind_ok.1 h
  obtain ⟨d, hd, h⟩ := bind_ok.1 h
  obtain ⟨d', hd', h⟩ := bind_ok.1 h
  obtain ⟨t, ht, h⟩ := bind_ok.1 h
  obtain ⟨u, hrel, h⟩ := bind_ok.1 h
  obtain ⟨v, hv, rfl⟩ := bind_pure_ok.1 h
  obtain ⟨i, rfl⟩ := startTimers_cases ht
  have hintr : ({ s with intr := i } : TxPath).released c rest
      = { s.released c rest with intr := i } := by
    unfold released
    split_ifs <;> rfl
  obtain rfl := releaseDesc_cases (s := { s with intr := i }) hu hrel
  rw [hintr] at hv
  exact ⟨d, d', hd, hd', .of_quiet (.of_intr ((s.released c rest).completed p d') i)
    (.of_quiet (.wbFinished hv) (.enableSm_checkDrain v))⟩

theorem advTso_cache (d : TxDesc) : (s.advTso d).cache = s.cache := by
  unfold advTso
  split_ifs <;> rfl

theorem fetchHeader_cases (h : s.fetchHeader d = .ok s') :
    (s.useTso = true ∧ s.tsoLoadedHeader = false ∧ d.isData = true ∧ s.tsoHeaderLen ≤ d.getLen
      ∧ s.tsoHeaderLen ≤ 256
      ∧ s' = { s with pktWaiting := true, dma := some (.header d.getBuf s.tsoHeaderLen) })
    ∨ (¬ (s.useTso = true ∧ s.tsoLoadedHeader = false) ∧ s' = s) := by
  unfold fetchHeader at h
  split_ifs at h with ht
  · simp only [bind_ok, require_ok] at h
    obtain ⟨-, ⟨hdata, hle⟩, -, hle', h⟩ := h
    exact .inl ⟨ht.1, ht.2, hdata, hle, hle', (Except.ok.inj h).symm⟩
  · exact .inr ⟨ht, (Except.ok.inj h).symm⟩

theorem processContextDesc_cases (h : s.processContextDesc = .ok s') :
    ((s.takeContexts s.cache.unusedCache).cache.unusedCache = []
      ∧ s' = s.takeContexts s.cache.unusedCache)
    ∨ ∃ c rest, (s.takeContexts s.cache.unusedCache).cache.unusedCache = c :: rest
      ∧ ((s.takeContexts s.cache.unusedCache).advTso c.desc).fetchHeader c.desc = .ok s' := by
  obtain ⟨_, -, h⟩ := bind_ok.1 h
  simp only [] at h
  split at h
  · rename_i hu
    exact .inl ⟨hu, (Except.ok.inj h).symm⟩
  · rename_i c rest hu
    exact .inr ⟨c, rest, hu, h⟩

theorem loadContext_packet (d : TxDesc) :
    (s.loadContext d).txPacket = s.txPacket ∧ (s.loadContext d).pktDone = s.pktDone := by
  unfold loadContext
  split_ifs <;> exact ⟨rfl, rfl⟩

theorem takeContexts_packet : ∀ (u : List (Cached TxDesc)) (s : TxPath),
    (s.takeContexts u).txPacket = s.txPacket ∧ (s.takeContexts u).pktDone = s.pktDone
  | [], s => ⟨rfl, rfl⟩
  | c :: rest, s => by
    rw [takeContexts]
    split_ifs
    · obtain ⟨hp, hd⟩ := takeContexts_packet rest { s.loadContext c.desc with
        cache := { (s.loadContext c.desc).cache with
          unusedCache := rest
          usedCache := (s.loadContext c.desc).cache.usedCache ++ [{ c with desc := c.desc.setDd }] } }
      exact ⟨hp.trans (loadContext_packet c.desc).1, hd.trans (loadContext_packet c.desc).2⟩
    · exact ⟨rfl, rfl⟩

theorem processContextDesc_packet (h : s.processContextDesc = .ok s') :
    s'.txPacket = s.txPacket ∧ s'.pktDone = s.pktDone := by
  obtain ⟨hp, hd⟩ := takeContexts_packet s.cache.unusedCache s
  rcases processContextDesc_cases h with ⟨-, rfl⟩ | ⟨c, rest, -, h⟩
  · exact ⟨hp, hd⟩
  · have ha : ∀ t : TxPath, (t.advTso c.desc).txPacket = t.txPacket
        ∧ (t.advTso c.desc).pktDone = t.pktDone := fun t => by
      unfold advTso
      split_ifs <;> exact ⟨rfl, rfl⟩
    rcases fetchHeader_cases h with ⟨-, -, -, -, -, rfl⟩ | ⟨-, rfl⟩
      <;> exact ⟨(ha _).1.trans hp, (ha _).2.trans hd⟩

theorem headerComplete_cases {data : List Byte} (h : s.headerComplete data = .ok s') :
    ∃ a len c rest, s.dma = some (.header a len) ∧ data.length = len
      ∧ s.cache.unusedCache = c :: rest
      ∧ ((c.desc.getLen = s.tsoHeaderLen
          ∧ Woken { (s.headerLoaded data).usedDesc c rest id with tsoDescBytesUsed := 0 } s')
        ∨ (c.desc.getLen ≠ s.tsoHeaderLen
          ∧ Woken { s.headerLoaded data with tsoDescBytesUsed := s.tsoHeaderLen } s')) := by
  unfold headerComplete at h
  split at h
  · rename_i a len hd
    split at h
    · rename_i hlen
      simp only [] at h
      split at h
      · cases h
      · rename_i c rest hu
        refine ⟨a, len, c, rest, hd, hlen, hu, ?_⟩
        split at h
        · rename_i heq
          obtain ⟨t, ht, rfl⟩ := bind_pure_ok.1 h
          obtain rfl := useDesc_cases (s := { s.headerLoaded data with tsoDescBytesUsed := 0 }) hu ht
          exact .inl ⟨heq, .enableSm_checkDrain _⟩
        · rename_i hne
          cases h
          exact .inr ⟨hne, .enableSm_checkDrain _⟩
    · cases h
  · cases h

theorem reserveNext_cases (h : s.reserveNext p = .ok s') :
    ∃ size t, s.getPacketSize p = .ok (size, t)
      ∧ ((0 < size ∧ size < t.txFifo.avail ∧ ∃ q, t.txFifo.reserve size = .ok q
          ∧ getPacketData { t with txFifo := q } p = .ok s')
        ∨ (size = 0 ∧ t.writeback 0 = .ok s')
        ∨ (size ≠ 0 ∧ ¬ size < t.txFifo.avail ∧ s' = { t with txTick := false })) := by
  obtain ⟨⟨size, t⟩, hsize, h⟩ := bind_ok.1 h
  refine ⟨size, t, hsize, ?_⟩
  simp only [] at h
  split_ifs at h with hfit hzero
  · obtain ⟨q, hq, h⟩ := bind_ok.1 h
    exact .inl ⟨hfit.1, hfit.2, q, hq, h⟩
  · exact .inr (.inl ⟨hzero, h⟩)
  · refine .inr (.inr ⟨hzero, fun hlt => hfit ⟨?_, hlt⟩, (Except.ok.inj h).symm⟩)
    bv_omega

theorem pushPacket_cases (h : s.pushPacket P p = .ok s') :
    ∃ q, s.txFifo.push p = .ok (some q) ∧ Quiet { s with
      txFifo := q
      txFifoTick := s.drainState ≠ .draining
      txPacket := none } s' := by
  obtain ⟨r, hr, h⟩ := bind_ok.1 h
  cases r with
  | none => cases h
  | some q => exact ⟨q, hr, .writeback h⟩

theorem checkLow_quiet (h : s.checkLow P = .ok s') : Quiet s s' := by
  unfold checkLow at h
  split_ifs at h
  · exact .postInterrupt h
  · cases h
    exact .refl s

theorem unusedCache_of_descLeft {c : DescCache TxDesc} (h : c.descLeft = 0) :
    c.unusedCache = [] := by
  unfold DescCache.descLeft at h
  exact length_eq_zero_iff.1 (by omega)

theorem nextPacket_cases (h : s.nextPacket P = .ok s') :
    ∃ t p, Quiet s t ∧ p = t.txPacket.getD (.alloc P.txPacketSize)
      ∧ (((s.pktWaiting = true ∨ s.cache.unusedCache = [])
          ∧ ∃ u, Quiet (t.withPacket p) u ∧ s' = { u with txTick := false })
        ∨ (s.pktWaiting = false ∧ s.cache.unusedCache ≠ []
          ∧ ∃ u, (t.withPacket p).processContextDesc = .ok u
            ∧ ((u.pktWaiting = true ∧ s' = { u with txTick := false })
              ∨ (u.pktWaiting = false ∧ u.reserveNext p = .ok s')))) := by
  obtain ⟨t, ht, h⟩ := bind_ok.1 h
  have ht := checkLow_quiet ht
  have hw : t.pktWaiting = s.pktWaiting := congrArg TxEngine.pktWaiting ht.engine
  refine ⟨t, _, ht, rfl, ?_⟩
  rw [← hw, ← ht.cache.unused]
  simp only [] at h
  split at h
  · rename_i hwait
    exact .inl ⟨.inl hwait, _, .refl _, (Except.ok.inj h).symm⟩
  rename_i hwait
  split at h
  · rename_i hleft
    simp only [bind_ok] at h
    obtain ⟨u₁, h₁, u₂, h₂, u₃, h₃, h⟩ := h
    exact .inl ⟨.inr (unusedCache_of_descLeft hleft), u₃,
      (Quiet.postInterrupt h₁).trans ((Quiet.writeback h₂).trans (Quiet.fetchDescriptors h₃)),
      (Except.ok.inj h).symm⟩
  split at h
  · rename_i hnil
    obtain ⟨u, hu, h⟩ := bind_ok.1 h
    exact .inl ⟨.inr hnil, u, .fetchDescriptors hu, (Except.ok.inj h).symm⟩
  · rename_i hne
    obtain ⟨u, hu, h⟩ := bind_ok.1 h
    refine .inr ⟨Bool.eq_false_iff.2 hwait, hne, u, hu, ?_⟩
    split at h
    · rename_i hwait'
      exact .inl ⟨hwait', (Except.ok.inj h).symm⟩
    · rename_i hwait'
      exact .inr ⟨Bool.eq_false_iff.2 hwait', h⟩

theorem txWire_cases {w : Wire} (h : s.txWire w = .ok s') :
    (s.txFifo.empty = true ∧ s' = { s with txFifoTick := false })
    ∨ (s.txFifo.empty = false ∧ w = .refuses ∧ s.onWire ≠ 0 ∧ s' = { s with txFifoTick := false })
    ∨ ∃ p q, s.txFifo.empty = false ∧ s.txFifo.front = .ok p ∧ s.txFifo.pop = .ok q
      ∧ ((w = .takes ∧ s' = { s with
          txFifoTick := false
          txFifo := q
          sent := s.sent ++ [p]
          onWire := s.onWire + 1 })
        ∨ (w = .takesAtOnce ∧ s' = { s.ethTxDone with txFifo := q, sent := s.sent ++ [p] })) := by
  unfold txWire at h
  simp only [] at h
  split at h
  · rename_i he
    exact .inl ⟨he, (Except.ok.inj h).symm⟩
  · rename_i he
    have he := Bool.eq_false_iff.2 he
    obtain ⟨p, hp, h⟩ := bind_ok.1 h
    cases w with
    | refuses =>
      simp only [] at h
      split_ifs at h with hw
      exact .inr (.inl ⟨he, rfl, hw, (Except.ok.inj h).symm⟩)
    | takes =>
      obtain ⟨q, hq, h⟩ := bind_ok.1 h
      exact .inr (.inr ⟨p, q, he, hp, hq, .inl ⟨rfl, (Except.ok.inj h).symm⟩⟩)
    | takesAtOnce =>
      obtain ⟨q, hq, h⟩ := bind_ok.1 h
      exact .inr (.inr ⟨p, q, he, hp, hq, .inr ⟨rfl, (Except.ok.inj h).symm⟩⟩)

theorem txWire_cache {w : Wire} (h : s.txWire w = .ok s') : s'.cache = s.cache := by
  rcases txWire_cases h with ⟨-, rfl⟩ | ⟨-, -, -, rfl⟩ | ⟨p, q, -, -, -, ⟨-, rfl⟩ | ⟨-, rfl⟩⟩
    <;> rfl

theorem wireLoop_inv {I : TxPath → Prop}
    (hI : ∀ s w s', I s → s.txFifoTick = true → s.txWire w = .ok s' → I s') :
    ∀ (ws : List Wire) {s s' : TxPath}, I s → s.wireLoop ws = .ok s' →
      I s' ∧ s'.txFifoTick = false
  | [], s, s', hs, h => by
    unfold wireLoop at h
    split_ifs at h with hf
    cases h
    exact ⟨hs, Bool.eq_false_iff.2 hf⟩
  | w :: ws, s, s', hs, h => by
    unfold wireLoop at h
    split_ifs at h with hf
    obtain ⟨t, ht, h⟩ := bind_ok.1 h
    exact wireLoop_inv hI ws (hI s w t hs hf ht) h

theorem tick_cases {rx : Bool} {ws : List Wire} (h : s.tick P rx ws = .ok s') :
    s.tickEvent = true ∧ ∃ t u,
      (s.txTick = true ∧ txStateMachine P { s with tickEvent := false, rxTick := rx } = .ok t
        ∨ s.txTick = false ∧ t = { s with tickEvent := false, rxTick := rx })
      ∧ t.wireLoop ws = .ok u
      ∧ s' = { u with tickEvent := u.rxTick || u.txTick || u.txFifoTick } := by
  unfold tick at h
  split_ifs at h with ht
  obtain ⟨t, hsm, h⟩ := bind_ok.1 h
  obtain ⟨u, hu, h⟩ := bind_ok.1 h
  refine ⟨ht, t, u, ?_, hu, (Except.ok.inj h).symm⟩
  unfold smTick at hsm
  split_ifs at hsm with htick
  · exact .inl ⟨htick, hsm⟩
  · exact .inr ⟨Bool.eq_false_iff.2 htick, (Except.ok.inj hsm).symm⟩

theorem writeTctl_eq (s : TxPath) (val : BitVec 32) : s.writeTctl val
    = restartClock { s with tctl := val, txTick := s.txTick || val.getLsbD 1 } := by
  refine if_neg fun hen => ?_
  have hf := Framed.restartClock { s with tctl := val, txTick := s.txTick || val.getLsbD 1 }
  have hold : val.getLsbD 1 = true :=
    (congrArg (fun v : BitVec 32 => v.getLsbD 1) hf.tctl).symm.trans hen.1
  exact absurd hen.2 (by rw [hold]; exact Bool.noConfusion)

theorem timer_quiet {i : Intr.Timer} (h : s.timer P i = .ok s') : Quiet s s' := by
  have htimer : ∀ i : Intr.Timer, (s.writeback 0 >>= fun u =>
      (u.intr.fireTimer P.ns i >>= fun i => .ok { u with intr := i })) = .ok s' →
      Quiet s s' := fun i h => by
    obtain ⟨u, hu, h⟩ := bind_ok.1 h
    obtain ⟨i, -, rfl⟩ := bind_pure_ok.1 h
    exact (Quiet.writeback hu).trans (.of_intr u i)
  cases i with
  | tadv | tidv => exact htimer _ h
  | rdtr | radv => cases h

/-- The operation may do something to the packet being gathered. -/
def Op.IsEngine : Op → Prop
  | .tick _ _ | .headerEvent _ | .pktEvent _ => True
  | _ => False

/-- The operation is for the registers or the descriptors, and starts no state machine. -/
def Op.IsQuiet : Op → Bool
  | .fetchDelayEvent | .wbDelayEvent | .writeTdt _ | .writeTxdctl _ | .writeTidv _ | .writeTadv _
  | .timer _ | .intr _ => true
  | _ => false

theorem step_quiet (ho : o.IsQuiet = true) (h : s.step P o = .ok s') : Quiet s s' := by
  have hcache : ∀ {c : DescCache TxDesc}, s.cache.Untouched c →
      Reaches DescCache.step s.cache c → Quiet s { s with cache := c } := fun hc hr =>
    ⟨⟨rfl, hc, hr, rfl, rfl, rfl, rfl⟩, rfl, rfl, rfl⟩
  cases o with
  | fetchDelayEvent =>
    obtain ⟨c, hc, rfl⟩ := bind_pure_ok.1 h
    exact hcache (.fetchDescriptors1 hc) (.single (o := .fetchDelayEvent _) hc)
  | wbDelayEvent =>
    obtain ⟨c, hc, rfl⟩ := bind_pure_ok.1 h
    exact hcache (.writeback1 hc) (.single (o := .wbDelayEvent _) hc)
  | writeTdt val =>
    obtain ⟨c, hc, rfl⟩ := bind_pure_ok.1 h
    exact hcache (.writeTail hc) (.single hc)
  | writeTxdctl val | writeTidv val | writeTadv val =>
    cases h
    exact ⟨.of_cache_eq rfl rfl rfl rfl rfl rfl, rfl, rfl, rfl⟩
  | timer t => exact timer_quiet h
  | intr o =>
    obtain ⟨i, -, rfl⟩ := bind_pure_ok.1 h
    exact .of_intr s i
  | _ => cases ho

/-- The packet is left alone, and descriptors may have been fetched. -/
structure Extended (s s' : TxPath) (buf : List TxDesc) : Prop where
  engine : s'.toTxEngine = s.toTxEngine
  sent : s'.sent = s.sent
  reaches : Reaches DescCache.step s.cache s'.cache
  fetched : ∃ new, new.map Cached.desc = buf
    ∧ s'.cache.unusedCache = s.cache.unusedCache ++ new ∧ s'.cache.reads = s.cache.reads ++ new

def Op.fetched : Op → List TxDesc
  | .fetchEvent buf => buf
  | _ => []

namespace Extended

theorem of_cache (he : s'.toTxEngine = s.toTxEngine) (hs : s'.sent = s.sent)
    (hr : Reaches DescCache.step s.cache s'.cache) (hc : s.cache.Untouched s'.cache) :
    Extended s s' [] :=
  ⟨he, hs, hr, [], rfl, by rw [hc.unused, append_nil], by rw [hc.reads, append_nil]⟩

theorem framed (h : Framed s s') : Extended s s' [] := of_cache h.engine h.sent h.reaches h.cache

theorem map_fetched (c : DescCache TxDesc) (addr : ℕ) (buf : List TxDesc) :
    (c.fetched addr buf).map Cached.desc = buf := by
  refine ext_getElem? fun i => ?_
  rw [DescCache.fetched, getElem?_map, getElem?_mapIdx, Option.map_map]
  exact Option.map_id' ..

theorem step (ho : ¬ o.IsEngine) (h : s.step P o = .ok s') : Extended s s' o.fetched := by
  cases o with
  | tick rx ws | headerEvent data | pktEvent data => exact absurd trivial ho
  | ethTxDone =>
    unfold TxPath.step at h
    split_ifs at h
    cases h
    have hf := Framed.restartClock (TxPath.ethTxDone { s with onWire := s.onWire - 1 })
    exact of_cache hf.engine hf.sent hf.reaches hf.cache
  | fetchEvent buf =>
    obtain ⟨c, hc, rfl⟩ := bind_pure_ok.1 h
    have hw := Woken.enableSm_checkDrain { s with cache := c }
    have hr := Reaches.trans (.single (o := .fetchEvent buf) hc) hw.reaches
    have hu := hw.cache.unused
    have hreads := hw.cache.reads
    obtain ⟨d, -, -, -, rfl⟩ := DescCache.fetchComplete_cases hc
    exact ⟨hw.engine, hw.sent, hr, _, map_fetched _ _ _, hu, hreads⟩
  | wbEvent =>
    obtain ⟨t, ht, h⟩ := bind_ok.1 h
    obtain ⟨c, hc, rfl⟩ := bind_pure_ok.1 h
    have ht := Quiet.postInterrupt ht
    have hf : Framed s { t with cache := c } := ⟨ht.engine, ht.cache.trans (.wbComplete hc),
      ht.reaches.trans (.single (o := .wbEvent _) hc), ht.sent, ht.onWire, ht.tctl, ht.drainState⟩
    split_ifs
    · exact framed (hf.trans (.checkDrain _))
    · exact framed hf
  | writeTctl val =>
    cases h
    have hf := Framed.restartClock { s with tctl := val, txTick := s.txTick || val.getLsbD 1 }
    rw [writeTctl_eq]
    exact of_cache hf.engine hf.sent hf.reaches hf.cache
  | rxTick b =>
    cases h
    have hf := Framed.restartClock { s with rxTick := b }
    exact of_cache hf.engine hf.sent hf.reaches hf.cache
  | drain | drained =>
    cases h
    exact of_cache rfl rfl (.refl _) (.refl _)
  | drainResume =>
    cases h
    have hf := Framed.restartClock { s with
      drainState := .running
      txFifoTick := true
      txTick := true
      rxTick := true }
    exact of_cache hf.engine hf.sent hf.reaches hf.cache
  | _ => exact framed (step_quiet rfl h).toFramed

end Extended

/-! ### The descriptor cache is used through its operations -/

theorem loadContext_cache (d : TxDesc) : (s.loadContext d).cache = s.cache := by
  unfold loadContext
  split_ifs <;> rfl

theorem reaches_takeContexts : ∀ (u : List (Cached TxDesc)) {s : TxPath},
    s.cache.unusedCache = u → Reaches DescCache.step s.cache (s.takeContexts u).cache
  | [], s, _ => .refl _
  | c :: rest, s, hu => by
    rw [takeContexts]
    split_ifs
    · have hc := loadContext_cache (s := s) c.desc
      have hu' : (s.loadContext c.desc).cache.unusedCache = c :: rest := by rw [hc, hu]
      have h₁ := reaches_usedDesc hu' TxDesc.setDd
      have h₂ := reaches_takeContexts rest
        (s := (s.loadContext c.desc).usedDesc c rest TxDesc.setDd) rfl
      rw [hc] at h₁
      exact h₁.trans h₂
    · exact .refl _

theorem fetchHeader_cache (h : s.fetchHeader d = .ok s') : s'.cache = s.cache := by
  rcases fetchHeader_cases h with ⟨-, -, -, -, -, rfl⟩ | ⟨-, rfl⟩ <;> rfl

theorem reaches_processContextDesc (h : s.processContextDesc = .ok s') :
    Reaches DescCache.step s.cache s'.cache := by
  have hr := reaches_takeContexts (s := s) _ rfl
  rcases processContextDesc_cases h with ⟨-, rfl⟩ | ⟨c, rest, -, h⟩
  · exact hr
  · rwa [fetchHeader_cache h, advTso_cache]

theorem reaches_reserveNext (h : s.reserveNext p = .ok s') :
    Reaches DescCache.step s.cache s'.cache := by
  obtain ⟨size, t, hsize, h⟩ := reserveNext_cases h
  have ht : t.cache = s.cache := by
    rcases getPacketSize_cases hsize with ⟨-, -, rfl⟩ | ⟨c, rest, -, ⟨-, -, -, rfl⟩ | ⟨-, -, rfl⟩⟩
      <;> rfl
  rw [← ht]
  rcases h with ⟨-, -, q, -, h⟩ | ⟨-, h⟩ | ⟨-, -, rfl⟩
  · obtain ⟨c, rest, -, -, -, ⟨-, -, -, -, rfl⟩ | ⟨-, -, rfl⟩⟩ := getPacketData_cases h
      <;> exact .refl _
  · exact (Quiet.writeback h).reaches
  · exact .refl _

theorem reaches_nextPacket (h : s.nextPacket P = .ok s') :
    Reaches DescCache.step s.cache s'.cache := by
  obtain ⟨t, p, ht, -, ⟨-, u, hu, rfl⟩ | ⟨-, -, u, hu, h⟩⟩ := nextPacket_cases h
  · exact ht.reaches.trans hu.reaches
  · have hu := ht.reaches.trans (reaches_processContextDesc (s := t.withPacket p) hu)
    rcases h with ⟨-, rfl⟩ | ⟨-, h⟩
    · exact hu
    · exact hu.trans (reaches_reserveNext h)

theorem askAvailable_cache : s.askAvailable.cache = s.cache := by
  unfold askAvailable
  split_ifs <;> rfl

theorem reaches_txStateMachine (h : s.txStateMachine P = .ok s') :
    Reaches DescCache.step s.cache s'.cache := by
  unfold txStateMachine at h
  split_ifs at h
  · cases h
    exact .refl _
  · rw [← askAvailable_cache]
    split at h
    · obtain ⟨q, -, hq⟩ := pushPacket_cases h
      exact hq.reaches
    · exact reaches_nextPacket h

theorem reaches_released (hu : s.cache.unusedCache = c :: rest) :
    Reaches DescCache.step s.cache (s.released c rest).cache := by
  unfold released
  split_ifs
  · exact reaches_usedDesc hu TxDesc.report
  · refine .single (o := .modifyDesc TxDesc.report) ?_
    simp only [DescCache.step, DescCache.modifyDesc, hu]

theorem cache_reaches (h : s.step P o = .ok s') :
    Reaches DescCache.step s.cache s'.cache := by
  by_cases ho : o.IsEngine
  · cases o with
    | tick rx ws =>
      obtain ⟨-, t, v, hsm, hv, rfl⟩ := tick_cases h
      have hloop := wireLoop_inv (I := fun u => u.cache = t.cache)
        (fun s w s' hs _ h => (txWire_cache h).trans hs) ws rfl hv
      show Reaches _ _ v.cache
      rw [hloop.1]
      rcases hsm with ⟨-, hsm⟩ | ⟨-, rfl⟩
      · exact reaches_txStateMachine (s := { s with tickEvent := false, rxTick := rx }) hsm
      · exact .refl _
    | headerEvent data =>
      obtain ⟨a, len, c, rest, -, -, hu, ⟨-, h⟩ | ⟨-, h⟩⟩ := headerComplete_cases h
      · exact (reaches_usedDesc (s := s.headerLoaded data) hu id).trans h.reaches
      · exact h.reaches
    | pktEvent data =>
      obtain ⟨a, len, p, c, rest, -, -, -, hu, -, ⟨-, h⟩ | ⟨-, h⟩⟩ := pktComplete_cases h
      · obtain ⟨-, h⟩ := partialPacket_cases (s := s.arrived) hu h
        exact (reaches_usedDesc (s := s.arrived) hu id).trans h.reaches
      · obtain ⟨d, d', -, -, h⟩ := finishPacket_cases (s := s.arrived) hu h
        exact (reaches_released (s := s.arrived) hu).trans h.reaches
    | _ => exact ho.elim
  · exact (Extended.step ho h).reaches

theorem phases_step (hs : s.cache.Phases) (h : s.step P o = .ok s') : s'.cache.Phases :=
  Reaches.inv (fun _ _ _ hs h => hs.step h) hs (cache_reaches h)

end TxPath

end Gem5
