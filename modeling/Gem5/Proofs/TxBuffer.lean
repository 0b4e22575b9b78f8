import Gem5.Proofs.TxPackets

/-!
# The buffer of the packet under construction

What keeps the data inside of the packet's buffer is the space reserved in the FIFO: data is fetched
only if it is less than what the FIFO has left. So the capacity of the FIFO bounds the packet, and a
capacity of more than one byte above the buffer does not.
-/

namespace Gem5

open Bytes Machine

namespace TxPath

variable {P : NicParams} {s s' t : TxPath} {p : EthPacket} {c : Cached TxDesc}
  {rest : List (Cached TxDesc)} {max : BitVec 32}

/-- The DMA of packet data would run over the end of the packet's buffer. -/
def overrun : Halt := .outOfBounds "p->data + p->length"

def NotOverrun (e : Halt) : Prop := e ≠ overrun

theorem failsOnly_assertion {α : Type} (cond : String) :
    FailsOnly NotOverrun (.error (.assertion cond) : Except Halt α) := by
  rintro e ⟨⟩ ⟨⟩

theorem failsOnly_require {d : Prop} [Decidable d] {cond : String} :
    FailsOnly NotOverrun (require d cond) := by
  unfold require
  split_ifs
  · exact .of_ok rfl
  · exact failsOnly_assertion cond

theorem failsOnly_inBounds {d : Prop} [Decidable d] {access : String} (h : d) :
    FailsOnly NotOverrun (inBounds d access) :=
  .of_ok (a := ()) (inBounds_ok.2 h)

theorem failsOnly_notScheduled {α : Type} :
    FailsOnly NotOverrun (.error .notScheduled : Except Halt α) := by
  rintro e ⟨⟩ ⟨⟩

theorem failsOnly_processContextDesc : FailsOnly NotOverrun s.processContextDesc := by
  refine failsOnly_require.bind fun _ _ => ?_
  dsimp only
  split
  · exact .of_ok rfl
  · unfold fetchHeader
    split_ifs
    · exact failsOnly_require.bind fun _ _ => failsOnly_require.bind fun _ _ => .of_ok rfl
    · exact .of_ok rfl

theorem failsOnly_getPacketSize : FailsOnly NotOverrun (s.getPacketSize p) := by
  unfold getPacketSize
  split
  · exact .of_ok rfl
  · refine failsOnly_require.bind fun _ _ => ?_
    split_ifs <;> exact .of_ok rfl

theorem failsOnly_getPacketData (hu : s.cache.unusedCache = c :: rest)
    (htso : s.useTso = true → (s.headed p).length + s.tsoCopyBytes ≤ (s.headed p).bufLength)
    (hplain : s.useTso = false → p.length + c.desc.getLen ≤ p.bufLength) :
    FailsOnly NotOverrun (s.getPacketData p) := by
  unfold getPacketData
  rw [hu]
  refine failsOnly_require.bind fun _ _ => ?_
  split
  · rename_i ht
    refine failsOnly_require.bind fun _ _ => ?_
    refine (failsOnly_inBounds (htso ht)).bind fun _ _ => ?_
    exact failsOnly_require.bind fun _ _ => .of_ok rfl
  · rename_i ht
    exact (failsOnly_inBounds (hplain (Bool.eq_false_iff.2 ht))).bind fun _ _ => .of_ok rfl

theorem bufLength_headed : (s.headed p).bufLength = p.bufLength := by
  unfold headed
  split_ifs <;> rfl

theorem failsOnly_reserveNext (hs : Reserved s.toTxEngine s.cache.unusedCache)
    (hph : s.cache.Phases) (hd : s.dma = none) (hp : s.txPacket = some p)
    (hbuf : s.txFifo.maxsize.toNat ≤ p.bufLength + 1) :
    FailsOnly NotOverrun (s.reserveNext p) := by
  have hr := hs.reserved
  simp only [TxEngine.pktLength, TxEngine.inFlight, hp, hd, Option.elim_some, Nat.add_zero] at hr
  have hroom : ∀ n < 2 ^ 32, BitVec.ofNat 32 n < s.txFifo.avail → p.length + n ≤ p.bufLength := by
    intro n hn hlt
    rw [BitVec.lt_def, BitVec.toNat_ofNat, Nat.mod_eq_of_lt hn, hs.fifo.avail_toNat] at hlt
    omega
  -- The data is fetched only if its size is less than what the FIFO has left.
  have hrule : ∀ {size : BitVec 32} {t : TxPath}, t.cache.Phases →
      (size < t.txFifo.avail → ∀ q, FailsOnly NotOverrun (getPacketData { t with txFifo := q } p)) →
      FailsOnly NotOverrun (if 0 < size ∧ size < t.txFifo.avail then
          t.txFifo.reserve size >>= fun q => getPacketData { t with txFifo := q } p
        else if size = 0 then t.writeback 0 else .ok { t with txTick := false }) := by
    intro size t hph hdata
    split_ifs with hfit
    · obtain ⟨q, hq⟩ := PacketFifo.Accounted.reserve_ok (BitVec.le_of_lt hfit.2)
      exact FailsOnly.bind (.of_ok hq) fun q _ => hdata hfit.2 q
    · exact .of_ends (writeback_ends hph 0)
    · exact .of_ok rfl
  refine failsOnly_getPacketSize.bind ?_
  rintro ⟨size, t⟩ hsize
  rcases getPacketSize_cases hsize with ⟨hnil, rfl, rfl⟩ | ⟨c, rest, hu, h⟩
  · exact .of_ends (writeback_ends hph 0)
  have hlen := c.desc.getLen_lt
  rcases h with ⟨htso, hload, rfl, rfl⟩ | ⟨htso, rfl, rfl⟩
  · have hused := hs.descUsed htso
    rw [hu] at hused
    have hcopy := copyBytes_le hused p.length
    have hhdr := hs.headerLen htso hload
    refine hrule hph fun hlt q => failsOnly_getPacketData hu (fun _ => ?_) fun h => ?_
    · show (s.headed p).length + s.copyBytes p.length c.desc ≤ (s.headed p).bufLength
      have hfit := hroom _ (by split_ifs <;> omega) hlt
      rw [length_headed (by rw [hs.header]; exact hhdr), bufLength_headed]
      omega
    · exact absurd (htso.symm.trans h) Bool.noConfusion
  · refine hrule hph fun hlt q => failsOnly_getPacketData hu (fun h => ?_) fun _ => ?_
    · exact absurd (htso.symm.trans h) Bool.noConfusion
    · exact hroom _ (by omega) hlt

theorem failsOnly_nextPacket (hs : Reserved s.toTxEngine s.cache.unusedCache)
    (hph : s.cache.Phases)
    (hbuf : s.txFifo.maxsize.toNat ≤ (s.txPacket.getD (.alloc P.txPacketSize)).bufLength + 1) :
    FailsOnly NotOverrun (s.nextPacket P) := by
  refine (FailsOnly.of_ends checkLow_ends).bind fun t ht => ?_
  have hq := checkLow_quiet ht
  have hst : Reserved t.toTxEngine t.cache.unusedCache := hs.framed hq.toFramed
  set p := t.txPacket.getD (.alloc P.txPacketSize) with hp
  have hpht : (t.withPacket p).cache.Phases := hq.phases hph
  rw [← hq.engine, ← hp] at hbuf
  show FailsOnly NotOverrun (if t.pktWaiting then _ else _)
  split
  · exact .of_ok rfl
  rename_i hwait
  split
  · refine (FailsOnly.of_ends (postInterrupt_ends (by decide))).bind fun u₁ h₁ => ?_
    have hph₁ := (Quiet.postInterrupt h₁).phases hpht
    refine (FailsOnly.of_ends (writeback_ends hph₁ 0)).bind fun u₂ h₂ => ?_
    have hph₂ := (Quiet.writeback h₂).phases hph₁
    exact (FailsOnly.of_ends (fetchDescriptors_ends hph₂)).bind fun _ _ => .of_ok rfl
  split
  · exact (FailsOnly.of_ends (fetchDescriptors_ends hpht)).bind fun _ _ => .of_ok rfl
  · refine failsOnly_processContextDesc.bind fun u hu => ?_
    have hd : t.dma = none := hst.dma_of_not_waiting (Bool.eq_false_iff.2 hwait)
    have hru := (hst.withPacket P.txPacketSize).processContextDesc hd hu
    split_ifs with hwait'
    · exact .of_ok rfl
    · refine failsOnly_reserveNext hru ?_ (hru.dma_of_not_waiting (Bool.eq_false_iff.2 hwait'))
        (processContextDesc_packet hu).1 ?_
      · exact Reaches.inv (fun _ _ _ hs h => hs.step h) hpht (reaches_processContextDesc hu)
      · rwa [(Still.processContextDesc hu).maxsize]

theorem failsOnly_txStateMachine (hs : Reserved s.toTxEngine s.cache.unusedCache)
    (hph : s.cache.Phases)
    (hbuf : s.txFifo.maxsize.toNat ≤ (s.txPacket.getD (.alloc P.txPacketSize)).bufLength + 1) :
    FailsOnly NotOverrun (s.txStateMachine P) := by
  obtain ⟨hask, -⟩ := hs.askAvailable
  unfold txStateMachine
  split_ifs
  · exact .of_ok rfl
  split
  · rename_i p hp
    obtain ⟨hpkt, hne, hres⟩ := hs.of_ready hp
    obtain ⟨q, hq, -⟩ := hs.fifo.push hne hres
    have haskeq : s.askAvailable = { s with pktDone := false } := by
      unfold askAvailable
      rw [hpkt]
      rfl
    rw [haskeq]
    exact .of_ends (pushPacket_ends hph hq)
  · rw [← askAvailable_cache] at hask hph
    refine failsOnly_nextPacket hask hph ?_
    unfold askAvailable
    split_ifs <;> exact hbuf

theorem failsOnly_tick {rx : Bool} {ws : List Wire}
    (hs : Reserved s.toTxEngine s.cache.unusedCache) (hph : s.cache.Phases)
    (hbuf : s.txFifo.maxsize.toNat ≤ (s.txPacket.getD (.alloc P.txPacketSize)).bufLength + 1) :
    FailsOnly NotOverrun (s.tick P rx ws) := by
  unfold tick
  split_ifs
  swap
  · exact failsOnly_notScheduled
  have hs' : Reserved ({ s with tickEvent := false, rxTick := rx } : TxPath).toTxEngine
      s.cache.unusedCache := { hs with }
  refine FailsOnly.bind ?_ fun t ht => FailsOnly.bind ?_ fun _ _ => .of_ok rfl
  · unfold smTick
    split_ifs
    · exact failsOnly_txStateMachine hs' hph hbuf
    · exact .of_ok rfl
  · have htr : Reserved t.toTxEngine t.cache.unusedCache := by
      unfold smTick at ht
      split_ifs at ht
      · exact Reserved.txStateMachine hs' ht
      · cases ht
        exact hs'
    intro e he
    rw [wireLoop_error ws htr he]
    rintro ⟨⟩

theorem bufLength_run {base len size : ℕ} {max : BitVec 32} {ops : List Op}
    (h : run (step P) (init base len size max) ops = .ok s) :
    EachPacket (fun p => p.bufLength = P.txPacketSize) s := by
  have hQ : Lasting P fun p => p.bufLength = P.txPacketSize := ⟨rfl, fun _ hp => hp, fun hp _ => hp⟩
  refine run_inv (fun s o s' hs h => hs.step hQ (fun _ _ p hp => ?_) h) (.init base len size max) h
  rwa [bufLength_headed]

theorem not_overrun {base len size : ℕ} {max : BitVec 32} {ops : List Op} {rx : Bool}
    {ws : List Wire} (hmax : max.toNat ≤ P.txPacketSize + 1)
    (h : run (step P) (init base len size max) ops = .ok s) :
    s.step P (.tick rx ws) ≠ .error overrun := by
  have hs : Sound max s := run_inv (fun _ _ _ hs h => hs.step h) (Sound.init base len size max) h
  refine fun hov => failsOnly_tick hs.reserved hs.phases ?_ overrun hov rfl
  rw [hs.maxsize]
  cases hp : s.txPacket with
  | none => exact hmax
  | some p =>
    have hbuf : p.bufLength = P.txPacketSize := (bufLength_run h).packet p hp
    show max.toNat ≤ p.bufLength + 1
    rwa [hbuf]

/-- A legacy descriptor of one byte more than a packet's buffer has. -/
def longDesc : TxDesc := ⟨0x1000, 0x01004001⟩

/-- The descriptor is posted and fetched, then the transmitter is enabled. -/
def longOps : List Op := [.writeTdt 1, .fetchDelayEvent, .fetchEvent [longDesc], .writeTctl 2]

theorem reserveNext_overrun (hu : s.cache.unusedCache = c :: rest) (htso : s.useTso = false)
    (hlegacy : c.desc.isLegacy = true) (hne : c.desc.getLen ≠ 0)
    (hfit : c.desc.getLen < s.txFifo.avail.toNat) (hover : p.bufLength < p.length + c.desc.getLen) :
    s.reserveNext p = .error overrun := by
  have hlen := c.desc.getLen_lt
  have hnat : (BitVec.ofNat 32 c.desc.getLen).toNat = c.desc.getLen := by
    rw [BitVec.toNat_ofNat, Nat.mod_eq_of_lt (by omega)]
  have hsize : s.getPacketSize p = .ok (BitVec.ofNat 32 c.desc.getLen, s) := by
    unfold getPacketSize
    rw [hu]
    simp [htso, require]
  have hlt : BitVec.ofNat 32 c.desc.getLen < s.txFifo.avail := by
    rwa [BitVec.lt_def, hnat]
  have hpos : 0 < BitVec.ofNat 32 c.desc.getLen := by
    rw [BitVec.lt_def, hnat]
    exact Nat.pos_of_ne_zero hne
  obtain ⟨q, hq⟩ := PacketFifo.Accounted.reserve_ok (BitVec.le_of_lt hlt)
  unfold reserveNext
  rw [hsize]
  show (if _ then _ else _) = _
  rw [if_pos ⟨hpos, hlt⟩, hq]
  show getPacketData { s with txFifo := q } p = _
  have hout : inBounds (p.length + c.desc.getLen ≤ p.bufLength) "p->data + p->length"
      = .error overrun := if_neg (by omega)
  unfold getPacketData
  simp only [hu, htso]
  rw [require_of ⟨.inl hlegacy, hne⟩, hout]
  rfl

theorem longOps_run (P : NicParams) (max : BitVec 32) :
    ∃ s c, run (step P) (init 4096 8 8 max) longOps = .ok s
      ∧ s.toTxEngine = (init 4096 8 8 max).toTxEngine ∧ s.cache.unusedCache = [c]
      ∧ c.desc = longDesc ∧ s.tickEvent = true ∧ s.txTick = true ∧ s.en = true := by
  obtain ⟨c₁, c₂, c₃, c, h₁, h₂, h₃, hu, hc⟩ : ∃ c₁ c₂ c₃ c,
      (DescCache.init 4096 8 8).step (.writeTail 1 true) = .ok c₁
      ∧ c₁.step (.fetchDelayEvent true) = .ok c₂ ∧ c₂.step (.fetchEvent [longDesc]) = .ok c₃
      ∧ c₃.unusedCache = [c] ∧ c.desc = longDesc := ⟨_, _, _, _, rfl, rfl, rfl, rfl, rfl⟩
  have hrun : decide ((init 4096 8 8 max).drainState = .running) = true := decide_eq_true rfl
  set s₁ : TxPath := { init 4096 8 8 max with cache := c₁ }
  set s₂ : TxPath := { init 4096 8 8 max with cache := c₂ }
  set s₃ : TxPath := (enableSm { init 4096 8 8 max with cache := c₃ }).checkDrain with hs₃
  have hw : Woken { init 4096 8 8 max with cache := c₃ } s₃ := .enableSm_checkDrain _
  have hlast : s₃.writeTctl 2 = { s₃ with tctl := 2, txTick := true, tickEvent := true } := by
    rw [writeTctl_eq]
    have htick : (s₃.txTick || (2 : BitVec 32).getLsbD 1) = true := Bool.or_true _
    rw [htick]
    exact if_pos ⟨.inr (.inl rfl), hw.drainState⟩
  refine ⟨s₃.writeTctl 2, c, ?_, ?_, ?_, hc, ?_, ?_, ?_⟩
  · refine run_cons.2 ⟨s₁, bind_ok.2 ⟨c₁, by rw [hrun]; exact h₁, rfl⟩, ?_⟩
    refine run_cons.2 ⟨s₂, bind_ok.2 ⟨c₂, ?_, rfl⟩, ?_⟩
    · show c₁.fetchDescriptors1 (decide ((init 4096 8 8 max).drainState = .running)) = .ok c₂
      rwa [hrun]
    · exact run_cons.2 ⟨s₃, bind_ok.2 ⟨c₃, h₃, rfl⟩, rfl⟩
  · rw [hlast]
    exact hw.engine
  · rw [hlast]
    exact hw.cache.unused.trans hu
  · rw [hlast]
  · rw [hlast]
  · rw [hlast]
    show (2 : BitVec 32).getLsbD 1 = true
    decide

theorem processContextDesc_longDesc (hu : s.cache.unusedCache = c :: rest) (hc : c.desc = longDesc)
    (htso : s.useTso = false) : s.processContextDesc = .ok s := by
  have htake : s.takeContexts (c :: rest) = s :=
    if_neg fun h => absurd h.2 (by rw [hc]; decide)
  have hadv : s.advTso c.desc = s := if_neg fun h => absurd h.2.1 (by rw [hc]; decide)
  have hfetch : s.fetchHeader c.desc = .ok s := if_neg fun h => by simp [htso] at h
  unfold processContextDesc
  rw [require_of (by simp [hu]), hu, htake]
  simp only [hu, hadv]
  exact hfetch

theorem nextPacket_overrun (hengine : s.toTxEngine = (init 4096 8 8 max).toTxEngine)
    (hu : s.cache.unusedCache = [c]) (hc : c.desc = longDesc) (hP : P.txPacketSize = 16384)
    (hmax : 16385 < max.toNat) : s.nextPacket P = .error overrun := by
  obtain ⟨t, ht, hq⟩ := (checkLow_ends (P := P) (s := s)).exists
  have hte : t.toTxEngine = (init 4096 8 8 max).toTxEngine := hq.engine.trans hengine
  have htu : t.cache.unusedCache = [c] := hq.cache.unused.trans hu
  have hpkt : t.txPacket.getD (.alloc P.txPacketSize) = .alloc P.txPacketSize := by rw [hte]; rfl
  have hwait : ¬ t.pktWaiting = true := by rw [hte]; exact Bool.false_ne_true
  have htso : t.useTso = false := by rw [hte]; rfl
  have hleft : ¬ t.cache.descLeft = 0 := fun h => by
    simp [unusedCache_of_descLeft h] at htu
  have hlen : c.desc.getLen = 16385 := by rw [hc]; decide
  have hover : (t.withPacket (.alloc P.txPacketSize)).reserveNext (.alloc P.txPacketSize)
      = .error overrun := by
    refine reserveNext_overrun htu htso (by rw [hc]; decide) (by rw [hlen]; decide) ?_ ?_
    · have havail : t.txFifo.avail = max := by
        rw [hte]
        show max - 0 - 0 = max
        simp
      show c.desc.getLen < t.txFifo.avail.toNat
      rwa [hlen, havail]
    · show P.txPacketSize < 0 + c.desc.getLen
      omega
  unfold nextPacket
  rw [ht]
  show (if t.pktWaiting then _ else _) = _
  rw [if_neg hwait, hpkt]
  show (if t.cache.descLeft = 0 then _ else _) = _
  rw [if_neg hleft]
  show (if t.cache.unusedCache = [] then _ else _) = _
  rw [if_neg (by simp [htu])]
  show ((t.withPacket (.alloc P.txPacketSize)).processContextDesc >>= _) = _
  rw [processContextDesc_longDesc (s := t.withPacket _) htu hc htso]
  show (if t.pktWaiting then _ else _) = _
  rwa [if_neg hwait]

theorem tick_overrun (hengine : s.toTxEngine = (init 4096 8 8 max).toTxEngine)
    (hu : s.cache.unusedCache = [c]) (hc : c.desc = longDesc) (htick : s.tickEvent = true)
    (htx : s.txTick = true) (hen : s.en = true) (hP : P.txPacketSize = 16384)
    (hmax : 16385 < max.toNat) : s.step P (.tick false []) = .error overrun := by
  set s₁ : TxPath := { s with tickEvent := false, rxTick := false } with hs₁
  have hnone : s₁.txPacket = none := (congrArg TxEngine.txPacket hengine : s.txPacket = _)
  have hsm : s₁.txStateMachine P = s₁.nextPacket P := by
    have hready : s₁.ready = none := by
      unfold ready
      rw [hnone]
    have hask : s₁.askAvailable = s₁ := by
      unfold askAvailable
      rw [hnone]
      rfl
    unfold txStateMachine
    rw [if_neg (by rw [show s₁.en = true from hen]; exact Bool.noConfusion), hready]
    simp only [hask]
  show (if s.tickEvent then _ else _) = _
  rw [if_pos htick]
  show ((if s.txTick then s₁.txStateMachine P else _) >>= _) = _
  rw [if_pos htx, hsm, nextPacket_overrun (s := s₁) hengine hu hc hP hmax]
  rfl

/-- With the buffers of the source, no data ever runs over the end of a packet's buffer exactly if
the FIFO holds at most one byte more than a buffer. -/
theorem never_overruns_iff (hP : P.txPacketSize = 16384) (max : BitVec 32) :
    (∀ base len size ops s, run (step P) (init base len size max) ops = .ok s →
      ∀ rx ws, s.step P (.tick rx ws) ≠ .error overrun) ↔ max.toNat ≤ 16385 := by
  constructor
  · intro hall
    by_contra hmax
    obtain ⟨s, c, hs, hengine, hu, hc, htick, htx, hen⟩ := longOps_run P max
    exact hall 4096 8 8 longOps s hs false []
      (tick_overrun hengine hu hc htick htx hen hP (by omega))
  · intro hmax base len size ops s h rx ws
    exact not_overrun (by omega) h

/-- A FIFO of the size of a packet's buffer. -/
theorem never_overruns_iff_equal : (16384 : BitVec 32).toNat ≤ 16385 ∧ ∀ base len size ops s,
    run (step ⟨1, 64, 16384⟩) (init base len size 16384) ops = .ok s →
      ∀ rx ws, s.step ⟨1, 64, 16384⟩ (.tick rx ws) ≠ .error overrun :=
  ⟨by decide, (never_overruns_iff rfl 16384).2 (by decide)⟩

/-- The default FIFO, of 384 KiB. -/
theorem overruns_default : Ends (run (step ⟨1, 64, 16384⟩) (init 4096 8 8 393216) longOps)
    fun s => s.step ⟨1, 64, 16384⟩ (.tick false []) = .error overrun := by
  decide +kernel

end TxPath

end Gem5
