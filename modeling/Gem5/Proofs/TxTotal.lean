import Gem5.Proofs.Interrupt
import Gem5.Proofs.TxClock
import Gem5.Tso

/-!
# What does not fail on the transmit path

Interrupts, timers, write-backs and fetches never stop the simulation, and neither does giving the
FIFO to the link. The rest of the state machine fails only where it asserts something of the
descriptors, so that a rule for it asks for no more than what it does with those.
-/

namespace Gem5

namespace TxPath

variable {Q : TxPath → Prop}

open Bytes Machine

variable {P : NicParams} {s s' t : TxPath} {p : EthPacket} {c : Cached TxDesc}
  {rest : List (Cached TxDesc)}

theorem Framed.phases (h : Framed s s') (hs : s.cache.Phases) : s'.cache.Phases :=
  Reaches.inv (fun _ _ _ hs h => hs.step h) hs h.reaches

theorem postInterrupt_ends {i : BitVec 32} (hi : i ≠ 0) : Ends (s.postInterrupt P i) (Quiet s) := by
  obtain ⟨intr, hok⟩ : ∃ intr, s.intr.postInterrupt P.ns i false = .ok intr :=
    Intr.postInterrupt_ok hi false
  have h : s.postInterrupt P i = .ok { s with intr := intr } := bind_ok.2 ⟨intr, hok, rfl⟩
  exact .of_ok h (.postInterrupt h)

theorem writeback_ends (hs : s.cache.Phases) (a : BitVec 64) : Ends (s.writeback a) (Quiet s) := by
  obtain ⟨c, hc⟩ := hs.writeback_ok a
  have h : s.writeback a = .ok { s with cache := c } := bind_ok.2 ⟨c, hc, rfl⟩
  exact .of_ok h (.writeback h)

theorem fetchDescriptors_ends (hs : s.cache.Phases) : Ends s.fetchDescriptors (Quiet s) := by
  obtain ⟨c, hc⟩ := hs.fetchDescriptors_ok
  have h : s.fetchDescriptors = .ok { s with cache := c } := bind_ok.2 ⟨c, hc, rfl⟩
  exact .of_ok h (.fetchDescriptors h)

theorem checkLow_ends : Ends (s.checkLow P) (Quiet s) := by
  unfold checkLow
  split_ifs
  · exact postInterrupt_ends (by decide)
  · exact Quiet.refl s

theorem wbFinished_ends (hs : s.cache.Phases) : Ends (s.wbFinished P) (Quiet s) := by
  unfold wbFinished
  split_ifs
  · exact writeback_ends hs _
  · exact writeback_ends hs _
  · exact writeback_ends hs _
  · exact Quiet.refl s

theorem startTimers_ok (d : TxDesc) : ∃ i, s.startTimers P d = .ok { s with intr := i } := by
  unfold startTimers
  split_ifs
  · obtain ⟨i₁, h₁⟩ := Intr.startTimerIf_ok (s := s.intr) (b := idv s.tidv ≠ 0)
      (idv s.tidv * P.intClock) (t := .tidv) fun _ => Intr.Timer.noConfusion
    obtain ⟨i₂, h₂⟩ := Intr.startTimerIf_ok (s := i₁) (b := idv s.tadv ≠ 0 ∧ idv s.tidv ≠ 0)
      (idv s.tadv * P.intClock) (t := .tadv) fun _ => Intr.Timer.noConfusion
    exact ⟨i₂, bind_ok.2 ⟨i₁, h₁, bind_ok.2 ⟨i₂, h₂, rfl⟩⟩⟩
  · exact ⟨s.intr, rfl⟩

theorem withPacket_quiet (h : Quiet s t) (p : EthPacket) :
    Quiet (s.withPacket p) (t.withPacket p) := by
  have he : { t.toTxEngine with txPacket := some p } = { s.toTxEngine with txPacket := some p } := by
    rw [h.engine]
  exact { h with engine := he }

theorem nextPacket_ends (hs : s.cache.Phases)
    (hp : s.txPacket.getD (.alloc P.txPacketSize) = p)
    (hidle : s.pktWaiting = true ∨ s.cache.unusedCache = [] →
      ∀ u, Quiet (s.withPacket p) u → Q { u with txTick := false })
    (hnext : s.pktWaiting = false → s.cache.unusedCache ≠ [] →
      ∀ t, Quiet (s.withPacket p) t → Ends t.processContextDesc fun u =>
        (u.pktWaiting = true → Q { u with txTick := false })
          ∧ (u.pktWaiting = false → Ends (u.reserveNext p) Q)) :
    Ends (s.nextPacket P) Q := by
  refine checkLow_ends.bind fun t ht => ?_
  have hpkt : t.txPacket.getD (.alloc P.txPacketSize) = p := by
    rw [← hp]
    exact congrArg (fun e : TxEngine => e.txPacket.getD (.alloc P.txPacketSize)) ht.engine
  have hq := withPacket_quiet ht p
  have hph : (t.withPacket p).cache.Phases := ht.phases hs
  have hw : t.pktWaiting = s.pktWaiting := congrArg TxEngine.pktWaiting ht.engine
  have hu : (t.withPacket p).cache.unusedCache = s.cache.unusedCache := ht.cache.unused
  show Ends (if t.pktWaiting then _ else _) Q
  rw [hpkt]
  split
  · rename_i hwait
    exact hidle (.inl (hw.symm.trans hwait)) _ hq
  rename_i hwait
  split
  · rename_i hleft
    have hnil := hu.symm.trans (unusedCache_of_descLeft hleft)
    refine (postInterrupt_ends (by decide)).bind fun u₁ h₁ => ?_
    have hq₁ := hq.trans h₁
    refine (writeback_ends (h₁.phases hph) 0).bind fun u₂ h₂ => ?_
    have hq₂ := hq₁.trans h₂
    refine (fetchDescriptors_ends (h₂.phases (h₁.phases hph))).bind fun u₃ h₃ => ?_
    exact hidle (.inr hnil) u₃ (hq₂.trans h₃)
  split
  · rename_i hnil
    refine (fetchDescriptors_ends hph).bind fun u h => ?_
    exact hidle (.inr (hu.symm.trans hnil)) u (hq.trans h)
  · rename_i hne
    have hnot := hw.symm.trans (Bool.eq_false_iff.2 hwait)
    refine (hnext hnot (fun h => hne (hu.trans h)) _ hq).bind fun u h => ?_
    show Ends (if u.pktWaiting then _ else _) Q
    split
    · rename_i hwait'
      exact h.1 hwait'
    · rename_i hwait'
      exact h.2 (Bool.eq_false_iff.2 hwait')

/-- The bytes the next descriptor adds to a packet that is cut from more. -/
def copyLen (s : TxPath) (p : EthPacket) (d : TxDesc) : ℕ :=
  s.copyBytes p.length d + if s.tsoPktHasHeader then 0 else s.tsoHeaderLen

def fetching (s : TxPath) (p : EthPacket) (d : TxDesc) (q : PacketFifo) : TxPath :=
  { s with
    txFifo := q
    tsoCopyBytes := s.copyBytes p.length d
    txPacket := some (s.headed p)
    tsoPktHasHeader := true
    tsoDescBytesUsed := s.tsoDescBytesUsed + s.copyBytes p.length d
    pktWaiting := true
    dma := some (.packet (d.getBuf + s.tsoDescBytesUsed) (s.copyBytes p.length d)) }

theorem getPacketData_ok (hu : s.cache.unusedCache = c :: rest) (htso : s.useTso = true)
    (hload : s.tsoLoadedHeader = true) (hdata : c.desc.isData = true) (hne : c.desc.getLen ≠ 0)
    (hbuf : (s.headed p).length + s.tsoCopyBytes ≤ (s.headed p).bufLength)
    (hused : s.tsoDescBytesUsed + s.tsoCopyBytes ≤ c.desc.getLen) :
    s.getPacketData p = .ok { s with
      txPacket := some (s.headed p)
      tsoPktHasHeader := true
      tsoDescBytesUsed := s.tsoDescBytesUsed + s.tsoCopyBytes
      pktWaiting := true
      dma := some (.packet (c.desc.getBuf + s.tsoDescBytesUsed) s.tsoCopyBytes) } := by
  unfold getPacketData
  rw [hu]
  refine bind_ok.2 ⟨(), require_ok.2 ⟨.inr hdata, hne⟩, ?_⟩
  rw [if_pos htso]
  exact bind_ok.2 ⟨(), require_ok.2 hload, bind_ok.2 ⟨(), inBounds_ok.2 hbuf,
    bind_ok.2 ⟨(), require_ok.2 hused, rfl⟩⟩⟩

theorem reserveNext_ends (hu : s.cache.unusedCache = c :: rest)
    (htso : s.useTso = true) (hload : s.tsoLoadedHeader = true) (hdata : c.desc.isData = true)
    (hpos : 0 < s.copyLen p c.desc) (hlt : s.copyLen p c.desc < 2 ^ 32)
    (hbuf : (s.headed p).length + s.copyBytes p.length c.desc ≤ (s.headed p).bufLength)
    (hused : s.tsoDescBytesUsed + s.copyBytes p.length c.desc ≤ c.desc.getLen)
    (hne : c.desc.getLen ≠ 0)
    (hfit : s.copyLen p c.desc < s.txFifo.avail.toNat → ∀ q,
      s.txFifo.reserve (BitVec.ofNat 32 (s.copyLen p c.desc)) = .ok q → Q (s.fetching p c.desc q))
    (hfull : s.txFifo.avail.toNat ≤ s.copyLen p c.desc →
      Q { s with tsoCopyBytes := s.copyBytes p.length c.desc, txTick := false }) :
    Ends (s.reserveNext p) Q := by
  have hsize : s.getPacketSize p = .ok (BitVec.ofNat 32 (s.copyLen p c.desc),
      { s with tsoCopyBytes := s.copyBytes p.length c.desc }) := by
    unfold getPacketSize
    rw [hu]
    simp only [require, if_pos (show s.useTso = true → s.tsoLoadedHeader = true from fun _ => hload),
      if_pos htso]
    rfl
  have hnat : (BitVec.ofNat 32 (s.copyLen p c.desc)).toNat = s.copyLen p c.desc := by
    rw [BitVec.toNat_ofNat, Nat.mod_eq_of_lt hlt]
  have hzero : (0 : BitVec 32).toNat = 0 := rfl
  unfold reserveNext
  rw [hsize]
  show Ends (if 0 < BitVec.ofNat 32 (s.copyLen p c.desc) ∧ _ < s.txFifo.avail then _ else _) Q
  split
  · rename_i h
    have hlt' := BitVec.lt_def.1 h.2
    rw [hnat] at hlt'
    obtain ⟨q, hq⟩ := PacketFifo.Accounted.reserve_ok (BitVec.le_of_lt h.2)
    refine Ends.of_ok (bind_ok.2 ⟨q, hq, ?_⟩) (hfit hlt' q hq)
    exact getPacketData_ok (s := { s with
      txFifo := q, tsoCopyBytes := s.copyBytes p.length c.desc }) hu htso hload hdata hne hbuf hused
  · rename_i h
    have hle : s.txFifo.avail.toNat ≤ s.copyLen p c.desc := by
      by_contra hlt'
      refine h ⟨?_, ?_⟩
      · rwa [BitVec.lt_def, hnat, hzero]
      · rw [BitVec.lt_def, hnat]
        omega
    rw [if_neg]
    · exact hfull hle
    · intro h0
      rw [h0, hzero] at hnat
      omega

def handedOver (s : TxPath) (q : PacketFifo) : TxPath :=
  { s with
    txFifo := q
    pktDone := false
    txFifoTick := s.drainState ≠ .draining
    txPacket := none }

theorem pushPacket_ends {q : PacketFifo} (hs : s.cache.Phases)
    (hq : s.txFifo.push p = .ok (some q)) :
    Ends (TxPath.pushPacket P { s with pktDone := false } p) (Quiet (s.handedOver q)) := by
  obtain ⟨s', h, -⟩ := pushPacket_ok (P := P) (s := { s with pktDone := false }) hs hq
  obtain ⟨q', hq', hquiet⟩ := pushPacket_cases h
  obtain rfl := Option.some.inj (Except.ok.inj (hq.symm.trans hq'))
  exact .of_ok h hquiet

theorem useDesc_ok (hu : s.cache.unusedCache = c :: rest) (f : TxDesc → TxDesc) :
    s.useDesc f = .ok (s.usedDesc c rest f) := by
  unfold useDesc DescCache.useDesc
  rw [hu]
  rfl

theorem headerComplete_ends {data : List Byte} {a : ℕ}
    (hd : s.dma = some (.header a data.length)) (hu : s.cache.unusedCache = c :: rest) :
    Ends (s.headerComplete data) fun s' =>
      (c.desc.getLen = s.tsoHeaderLen
        ∧ Woken { (s.headerLoaded data).usedDesc c rest id with tsoDescBytesUsed := 0 } s')
      ∨ (c.desc.getLen ≠ s.tsoHeaderLen
        ∧ Woken { s.headerLoaded data with tsoDescBytesUsed := s.tsoHeaderLen } s') := by
  have hok : ∃ s', s.headerComplete data = .ok s' := by
    unfold headerComplete
    rw [hd]
    simp only [if_pos]
    rw [show (s.headerLoaded data).cache.unusedCache = c :: rest from hu]
    simp only []
    split_ifs
    · exact ⟨_, bind_ok.2 ⟨_, useDesc_ok
        (s := { s.headerLoaded data with tsoDescBytesUsed := 0 }) hu id, rfl⟩⟩
    · exact ⟨_, rfl⟩
  obtain ⟨s', h⟩ := hok
  obtain ⟨_, _, c', rest', -, -, hu', hcases⟩ := headerComplete_cases h
  obtain ⟨rfl, rfl⟩ := List.cons.inj (hu.symm.trans hu')
  exact .of_ok h hcases

theorem partialPacket_ends (hu : s.cache.unusedCache = c :: rest)
    (hused : s.tsoDescBytesUsed = c.desc.getLen) :
    Ends (s.partialPacket p c.desc) (Woken { s.usedDesc c rest id with
      txPacket := some p
      tsoDescBytesUsed := 0
      pktDone := true
      pktMultiDesc := true }) := by
  have h : s.partialPacket p c.desc = .ok _ :=
    bind_ok.2 ⟨(), require_ok.2 fun _ => hused, bind_ok.2 ⟨_, useDesc_ok hu id, rfl⟩⟩
  exact .of_ok h (partialPacket_cases hu h).2

theorem releaseDesc_ok (hu : s.cache.unusedCache = c :: rest) :
    s.releaseDesc c.desc = .ok (s.released c rest) := by
  unfold releaseDesc released
  split_ifs
  · exact useDesc_ok (s := { s with tsoDescBytesUsed := 0 }) hu TxDesc.report
  · unfold DescCache.modifyDesc
    rw [hu]
    rfl

theorem finishPacket_ends {d d' : List Byte} (hs : s.cache.Phases)
    (hu : s.cache.unusedCache = c :: rest) (hv : c.desc.vle = false)
    (hd : s.segmentData p.data = .ok d) (hd' : offloadChecksums c.desc d = .ok d') :
    Ends (s.finishPacket P p c.desc) (Woken ((s.released c rest).completed p d')) := by
  obtain ⟨i, hi⟩ := startTimers_ok (P := P) (s := s) c.desc
  have hrel := releaseDesc_ok (s := { s with intr := i }) hu
  have hph : ((({ s with intr := i } : TxPath).released c rest).completed p d').cache.Phases :=
    Reaches.inv (fun _ _ _ hs h => hs.step h) hs (reaches_released (s := { s with intr := i }) hu)
  obtain ⟨t, ht, -⟩ := (wbFinished_ends (P := P) hph).exists
  have h : s.finishPacket P p c.desc = .ok t.enableSm.checkDrain :=
    bind_ok.2 ⟨(), require_ok.2 hv, bind_ok.2 ⟨d, hd, bind_ok.2 ⟨d', hd', bind_ok.2 ⟨_, hi,
      bind_ok.2 ⟨_, hrel, bind_ok.2 ⟨t, ht, rfl⟩⟩⟩⟩⟩⟩
  obtain ⟨e, e', he, he', hwoken⟩ := finishPacket_cases hu h
  obtain rfl := Except.ok.inj (hd.symm.trans he)
  obtain rfl := Except.ok.inj (hd'.symm.trans he')
  exact .of_ok h hwoken

theorem pktComplete_ends {data : List Byte} {a : ℕ}
    (hd : s.dma = some (.packet a data.length)) (hp : s.txPacket = some p)
    (hu : s.cache.unusedCache = c :: rest) (hdata : c.desc.isLegacy = true ∨ c.desc.isData = true)
    (hne : c.desc.getLen ≠ 0)
    (hmore : s.arrived.NeedsMore (received p data) c.desc →
      Ends (s.arrived.partialPacket (received p data) c.desc) Q)
    (hlast : ¬ s.arrived.NeedsMore (received p data) c.desc →
      Ends (s.arrived.finishPacket P (received p data) c.desc) Q) :
    Ends (s.pktComplete P data) Q := by
  unfold pktComplete
  rw [hd, hp]
  simp only [if_pos]
  rw [hu]
  simp only [require, if_pos (show (c.desc.isLegacy = true ∨ c.desc.isData = true)
    ∧ c.desc.getLen ≠ 0 from ⟨hdata, hne⟩), bind, Except.bind]
  split
  · rename_i h
    exact hmore h
  · rename_i h
    exact hlast h

theorem processContextDesc_ends (hne : s.cache.unusedCache ≠ [])
    (hnil : (s.takeContexts s.cache.unusedCache).cache.unusedCache = [] →
      Q (s.takeContexts s.cache.unusedCache))
    (hcons : ∀ c rest, (s.takeContexts s.cache.unusedCache).cache.unusedCache = c :: rest →
      Ends (((s.takeContexts s.cache.unusedCache).advTso c.desc).fetchHeader c.desc) Q) :
    Ends s.processContextDesc Q := by
  unfold processContextDesc
  rw [require, if_pos hne]
  simp only [bind, Except.bind]
  split
  · rename_i h
    exact hnil h
  · rename_i c rest h
    exact hcons c rest h

theorem takeContexts_of_useTso (h : s.useTso = true) (u : List (Cached TxDesc)) :
    s.takeContexts u = s := by
  cases u with
  | nil => rfl
  | cons c rest => exact if_neg fun h' => by simp [h] at h'

theorem advTso_of_useTso (h : s.useTso = true) (d : TxDesc) : s.advTso d = s :=
  if_neg fun h' => by simp [h] at h'

/-! ### The link -/

theorem txWire_nil {w : Wire} (hq : s.txFifo.Accounted) (hf : s.txFifo.fifo = []) :
    s.txWire w = .ok { s with txFifoTick := false } :=
  if_pos (hq.empty_iff.2 hf)

theorem txWire_cons {e : PacketFifoEntry} {l : List PacketFifoEntry} (hq : s.txFifo.Accounted)
    (hf : s.txFifo.fifo = e :: l) : ∃ q, s.txFifo.pop = .ok q ∧ q.Accounted ∧ q.fifo = l
      ∧ q.maxsize = s.txFifo.maxsize
      ∧ (s.onWire ≠ 0 → s.txWire .refuses = .ok { s with txFifoTick := false })
      ∧ (s.onWire = 0 → s.txWire .refuses = .error .notScheduled)
      ∧ s.txWire .takes = .ok { s with
          txFifoTick := false
          txFifo := q
          sent := s.sent ++ [e.packet]
          onWire := s.onWire + 1 }
      ∧ s.txWire .takesAtOnce = .ok { s.ethTxDone with
          txFifo := q, sent := s.sent ++ [e.packet] } := by
  have hne : ¬ s.txFifo.empty = true := by simp [hq.empty_eq_false hf]
  have hfront : s.txFifo.front = .ok e.packet := by
    unfold PacketFifo.front
    rw [hf]
  obtain ⟨q, hpop, hacc, hl, -, hmax, -⟩ := hq.pop hf
  refine ⟨q, hpop, hacc, hl, hmax, fun hw => ?_, fun hw => ?_, ?_, ?_⟩ <;>
    refine (if_neg hne).trans ?_ <;> change s.txFifo.front >>= _ = _ <;> rw [hfront, ok_bind]
  · exact if_neg hw
  · exact if_pos hw
  · change s.txFifo.pop >>= _ = _
    rw [hpop]
    rfl
  · change s.txFifo.pop >>= _ = _
    rw [hpop]
    rfl

theorem txWire_error {w : Wire} {e : Halt} (hq : s.txFifo.Accounted) (h : s.txWire w = .error e) :
    e = .notScheduled := by
  cases hf : s.txFifo.fifo with
  | nil =>
    simp [txWire_nil hq hf] at h
  | cons x l =>
    obtain ⟨q, -, -, -, -, hbusy, hfree, htakes, hatOnce⟩ := txWire_cons hq hf
    cases w with
    | refuses =>
      by_cases hw : s.onWire = 0
      · rw [hfree hw] at h
        exact (Except.error.inj h).symm
      · simp [hbusy hw] at h
    | takes =>
      simp [htakes] at h
    | takesAtOnce =>
      simp [hatOnce] at h

theorem wireLoop_error {e : Halt} : ∀ (ws : List Wire) {s : TxPath} {u : List (Cached TxDesc)},
    Reserved s.toTxEngine u → s.wireLoop ws = .error e → e = .notScheduled
  | [], s, u, hs, h => by
    unfold wireLoop at h
    split_ifs at h
    exact (Except.error.inj h).symm
  | w :: ws, s, u, hs, h => by
    unfold wireLoop at h
    split_ifs at h
    · cases ht : s.txWire w with
      | error e' =>
        rw [ht] at h
        obtain rfl := Except.error.inj h
        exact txWire_error hs.fifo ht
      | ok t =>
        rw [ht] at h
        exact wireLoop_error ws (hs.txWire ht) h
    · exact (Except.error.inj h).symm

/-- The path once the link took all of the FIFO, done with each packet at once. -/
structure Flushed (s u : TxPath) : Prop where
  sent : u.sent = s.pushed
  fifo : u.txFifo.fifo = []
  onWire : u.onWire = s.onWire
  txTick : s.txFifo.fifo = [] → u.txTick = s.txTick

theorem flush : ∀ (l : List PacketFifoEntry) {s : TxPath}, s.txFifo.fifo = l →
    s.txFifo.Accounted → s.drainState = .running → s.txFifoTick = true →
    ∃ ws u, s.wireLoop ws = .ok u ∧ Flushed s u
  | [], s, hf, hq, _, ht => by
    refine ⟨[.refuses], { s with txFifoTick := false }, ?_, ?_, hf, rfl, fun _ => rfl⟩
    · rw [wireLoop, if_pos ht, txWire_nil hq hf]
      rfl
    · simp [pushed, PacketFifo.packets, hf]
  | e :: l, s, hf, hq, hd, ht => by
    obtain ⟨q, -, hacc, hl, -, -, -, -, hatOnce⟩ := txWire_cons hq hf
    obtain ⟨ws, u, hu, hflush⟩ := flush l
      (s := { s.ethTxDone with txFifo := q, sent := s.sent ++ [e.packet] }) hl hacc hd
      (by simp [ethTxDone, hd])
    refine ⟨.takesAtOnce :: ws, u, ?_, ?_, hflush.fifo, hflush.onWire, fun h => ?_⟩
    · rwa [wireLoop, if_pos ht, hatOnce]
    · rw [hflush.sent]
      simp [pushed, PacketFifo.packets, hf, hl]
    · simp [hf] at h

end TxPath

end Gem5
