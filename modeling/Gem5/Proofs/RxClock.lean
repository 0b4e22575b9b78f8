import Gem5.Proofs.HeaderSplit
import Gem5.Proofs.Interrupt

/-!
# When the receive path ticks

While the device runs and receives, the state machine ticks whenever it has something to do: a
descriptor is done with, or a packet and a descriptor for it are there and nothing is on the bus.
Each of its steps then goes through, if the registers are set as its assertions ask for.
-/

namespace Gem5

namespace RxPath

open Bytes Machine

variable {P : NicParams} {s s' t : RxPath} {p : EthPacket}

def HasWork (s : RxPath) : Prop :=
  s.pktDone = true ∨ s.dma = [] ∧ s.rxFifo.fifo ≠ [] ∧ s.cache.unusedCache ≠ []

theorem restartClock_rxTick : s.restartClock.rxTick = s.rxTick := by
  unfold restartClock
  split_ifs <;> rfl

theorem Wrote.ne_nil {c : Cached RxDesc} {ws : List RxWrite} {n : ℕ} (h : Wrote s p c ws n) :
    ws ≠ [] := by
  cases h <;> exact List.cons_ne_nil _ _

structure Clocked (s : RxPath) : Prop where
  clock : s.drainState = .running → s.rxTick = true → s.tickEvent = true
  work : s.drainState = .running → s.en = true → s.HasWork → s.rxTick = true

namespace Clocked

theorem init (base len size : ℕ) (max : BitVec 32) : Clocked (RxPath.init base len size max) where
  clock _ h := absurd h Bool.false_ne_true
  work _ h := absurd h (by simp [RxRegs.en, RxPath.init])

theorem woken (h : Woken t s') : Clocked s' where
  clock hd _ := h.tickEvent (h.drainState.symm.trans hd)
  work hd _ _ := h.rxTick (by rw [← h.drainState, hd]; exact DrainState.noConfusion)

theorem frame (hs : Clocked s) (he : s'.toRxEngine = s.toRxEngine) (hen : s'.en = s.en)
    (hu : s'.cache.unusedCache = s.cache.unusedCache ∨ s'.cache.unusedCache = [])
    (hd : s'.drainState = s.drainState) (hrx : s'.rxTick = s.rxTick)
    (htick : s'.tickEvent = s.tickEvent) : Clocked s' where
  clock hrun h := by
    rw [htick]
    rw [hd] at hrun
    rw [hrx] at h
    exact hs.clock hrun h
  work hrun h hw := by
    rw [hrx]
    rw [hd] at hrun
    rw [hen] at h
    refine hs.work hrun h ?_
    rcases hw with hdone | ⟨hdma, hf, hne⟩
    · rw [he] at hdone
      exact .inl hdone
    · rw [he] at hdma hf
      rcases hu with hu | hu
      · rw [hu] at hne
        exact .inr ⟨hdma, hf, hne⟩
      · exact absurd hu hne

theorem quiet (hs : Clocked s) (h : Quiet s s') : Clocked s' :=
  hs.frame h.engine (congrArg RxRegs.en h.regs) (.inl h.cache.unused) h.drainState h.rxTick
    h.tickEvent

theorem restarted (h : s.drainState = .running → s.en = true → s.HasWork → s.rxTick = true) :
    Clocked s.restartClock := by
  unfold RxPath.restartClock
  split_ifs with hc
  · exact ⟨fun _ _ => rfl, h⟩
  · exact ⟨fun hd ht => absurd ⟨.inl ht, hd⟩ hc, h⟩

theorem ethRxPkt (hs : Clocked s) (h : s.ethRxPkt P p = .ok s') : Clocked s' := by
  have htick : s.drainState = .running → decide (s.drainState ≠ .draining) = true := fun hd => by
    simp [hd]
  have hr : Clocked (restartClock { s with rxTick := s.drainState ≠ .draining }) :=
    restarted fun hd _ _ => htick hd
  obtain ⟨-, rfl⟩ | ⟨-, i, q, ⟨-, -, rfl⟩ | ⟨hq, rfl⟩⟩ := ethRxPkt_cases h
  · exact hs
  · exact { hr with }
  · refine { hr with work := fun hd _ _ => ?_ }
    show (restartClock _).rxTick = true
    have hd : (restartClock { s with rxTick := s.drainState ≠ .draining }).drainState = _ := hd
    rw [(Framed.restartClock _).drainState] at hd
    rw [restartClock_rxTick]
    exact htick hd

theorem rxStateMachine (ht : Tracked s.toRxEngine) (hq : s.rxFifo.Accounted)
    (hrx : s.rxTick = true) (h : s.rxStateMachine P = .ok s') :
    s'.en = true → s'.HasWork → s'.rxTick = true := by
  intro hen hw
  obtain ⟨hoff, rfl⟩ | ⟨-, hdone, h⟩ | ⟨-, hdone, hdma, rfl⟩ | ⟨-, hdone, -, hnil, h⟩ |
    ⟨-, hdone, -, -, hempty, rfl⟩ | ⟨-, hdone, hdma, -, -, h⟩ := rxStateMachine_cases h
  · simp [show s.en = true from hen] at hoff
  · rcases h.rxTick with hsame | ⟨-, hnil⟩
    · exact hsame.trans hrx
    · rcases hw with hdone' | ⟨-, -, hne⟩
      · simp [h.engine] at hdone'
      · exact absurd (h.cache.unused.trans hnil) hne
  · rcases hw with hdone' | ⟨hd, -⟩
    · exact absurd hdone' (by simp [show s.pktDone = false from hdone])
    · rcases ht.waits hdma with hdone' | hne
      · simp [hdone] at hdone'
      · exact absurd hd hne
  · rcases hw with hdone' | ⟨-, -, hne⟩
    · simp [h.engine, hdone] at hdone'
    · exact absurd (h.cache.unused.trans hnil) hne
  · rcases hw with hdone' | ⟨-, hf, -⟩
    · exact absurd hdone' (by simp [show s.pktDone = false from hdone])
    · exact absurd (hq.empty_iff.1 hempty) hf
  · obtain ⟨p, u, -, hu, h⟩ := sendFront_cases h
    obtain ⟨c, rest, f, ws, n, -, hwrote, rfl⟩ := writePacket_cases hu
    -- The packet is on the bus now.
    have hbusy : s'.pktDone = false ∧ s'.dma = s.dma ++ ws := by
      obtain ⟨-, q, -, rfl⟩ | ⟨-, rfl⟩ := h <;> exact ⟨rfl, rfl⟩
    rcases hw with hdone' | ⟨hd, -⟩
    · simp [hbusy.1] at hdone'
    · rw [hbusy.2] at hd
      exact absurd (List.append_eq_nil_iff.1 hd).2 hwrote.ne_nil

theorem tick {tx : Bool} (hs : Clocked s) (ht : Tracked s.toRxEngine) (hq : s.rxFifo.Accounted)
    (h : s.tick P tx = .ok s') : Clocked s' := by
  obtain ⟨-, t, hsm, rfl⟩ := tick_cases h
  refine ⟨fun _ hrx => ?_, fun hd hen hw => ?_⟩
  · simp [show t.rxTick = true from hrx]
  · show t.rxTick = true
    rcases hsm with ⟨hrx, hsm⟩ | ⟨-, rfl⟩
    · exact rxStateMachine (s := { s with tickEvent := false }) ht hq hrx hsm hen hw
    · exact hs.work hd hen hw

theorem dmaDone {v : RxEvent} (hs : Clocked s) (ht : Tracked s.toRxEngine)
    (h : s.dmaDone P v = .ok s') : Clocked s' := by
  have ht' := ht.dmaDone h
  obtain ⟨u, rfl, ⟨x, hx, -⟩, ⟨-, h⟩ | ⟨-, h⟩⟩ := dmaDone_cases h
  · obtain ⟨c, rest, p, r, type, -, -, -, -, -, -, hw⟩ := pktComplete_cases h
    exact woken hw
  · obtain ⟨-, rfl⟩ | ⟨-, h⟩ := pktSplitDone_cases h
    · refine { hs with work := fun hd hen hw => hs.work hd hen ?_ }
      rcases hw with hdone | ⟨hdma, -⟩
      · exact .inl hdone
      · -- The other DMA is still on the bus.
        have hbus := ht'.bus
        rw [hdma] at hbus
        cases hbus
    · obtain ⟨c, rest, p, r, type, -, -, -, -, -, -, hw⟩ := pktComplete_cases h
      exact woken hw

theorem cacheStep {o : DescCache.Op RxDesc} (hs : Clocked s) (h : s.cacheStep o = .ok s')
    (hu : ∀ c, s.cache.step o = .ok c →
      c.unusedCache = s.cache.unusedCache ∨ c.unusedCache = []) : Clocked s' := by
  obtain ⟨c, hc, rfl⟩ := cacheStep_cases h
  exact hs.frame rfl rfl (hu c hc) rfl rfl rfl

theorem areaWrite {o : DescCache.Op RxDesc} (ho : o.IsAreaWrite) (hs : Clocked s)
    (h : s.cacheStep o = .ok s') : Clocked s' := by
  refine hs.cacheStep h fun c hc => .inr ?_
  obtain ⟨-, -, -, _, _, _, rfl⟩ := DescCache.areaWrite_cases hc ho
  rfl

theorem step {o : Op} (hs : Clocked s) (ht : Tracked s.toRxEngine) (hq : s.rxFifo.Accounted)
    (h : s.step P o = .ok s') : Clocked s' := by
  cases o with
  | ethRxPkt p => exact hs.ethRxPkt h
  | tick tx => exact hs.tick ht hq h
  | dmaDone v => exact hs.dmaDone ht h
  | fetchDelayEvent =>
    exact hs.cacheStep h fun c hc => .inl (DescCache.Untouched.fetchDescriptors1 hc).unused
  | fetchEvent buf =>
    obtain ⟨t, -, rfl⟩ := bind_pure_ok.1 h
    exact woken (.enableSm_checkDrain t)
  | wbDelayEvent =>
    exact hs.cacheStep h fun c hc => .inl (DescCache.Untouched.writeback1 hc).unused
  | wbEvent =>
    obtain ⟨t, ht, rfl⟩ := bind_pure_ok.1 h
    have htc : Clocked t :=
      hs.cacheStep ht fun c hc => .inl (DescCache.Untouched.wbComplete hc).unused
    split_ifs
    · unfold checkDrain
      split_ifs with hd
      · refine ⟨fun _ hrx => absurd hrx Bool.false_ne_true, fun hrun _ _ => ?_⟩
        simp [show t.drainState = .running from hrun] at hd
      · exact htc
    · exact htc
  | writeRdt v =>
    exact hs.cacheStep h fun c hc => .inl (DescCache.Untouched.writeTail hc).unused
  | writeRdh v => exact areaWrite (o := .writeHead v) trivial hs h
  | writeRdlen v => exact areaWrite (o := .writeLen v) trivial hs h
  | writeRdbal v => exact areaWrite (o := .writeBaseLow v) trivial hs h
  | writeRdbah v => exact areaWrite (o := .writeBaseHigh v) trivial hs h
  | writeRctl v =>
    cases h
    refine restarted fun _ hen _ => ?_
    have hen : RxRegs.en _ = true := hen
    simp only [Bool.or_eq_true]
    exact .inr hen
  | writeSrrctl v | writeRxdctl v | writeRxcsum v | writeRdtr v | writeRadv v =>
    cases h
    exact { hs with }
  | timer i => exact hs.quiet (.timer h)
  | intr o =>
    obtain ⟨i, -, rfl⟩ := bind_pure_ok.1 h
    exact { hs with }
  | txTick b =>
    cases h
    exact restarted fun hd hen hw => hs.work hd hen hw
  | drain | drained =>
    cases h
    exact ⟨fun h => DrainState.noConfusion h, fun h => DrainState.noConfusion h⟩
  | drainResume =>
    cases h
    exact restarted fun _ _ _ => rfl

end Clocked

/-! ### What goes through -/

theorem writeback_ends (hs : s.cache.WbHeld) (a : BitVec 64) : Ends (s.writeback a) (Framed s) := by
  obtain ⟨c, hc⟩ := hs.writeback_ok a
  have h : s.writeback a = .ok { s with cache := c } := bind_ok.2 ⟨c, hc, rfl⟩
  exact .of_ok h (Quiet.writeback h).toFramed

theorem writebackIf_ends {b : Prop} [Decidable b] (hs : s.cache.WbHeld) (a : BitVec 64) :
    Ends (s.writebackIf b a) (Framed s) := by
  unfold writebackIf
  split_ifs
  · exact writeback_ends hs a
  · exact Framed.refl s

theorem fetchDescriptors_ends (hs : s.cache.WbHeld) : Ends s.fetchDescriptors (Framed s) := by
  obtain ⟨c, hc⟩ := hs.fetchDescriptors_ok
  have h : s.fetchDescriptors = .ok { s with cache := c } := bind_ok.2 ⟨c, hc, rfl⟩
  exact .of_ok h (Quiet.fetchDescriptors h).toFramed

theorem prefetch_ends (hs : s.cache.WbHeld) : Ends s.prefetch (Framed s) := by
  unfold prefetch
  split_ifs
  · exact fetchDescriptors_ends hs
  · exact Framed.refl s

theorem fetchAndStop_ends (hs : s.cache.WbHeld) : Ends s.fetchAndStop (Framed s) :=
  (fetchDescriptors_ends hs).bind fun _ h => show Framed s _ from { h with }

theorem stopIfNone_ends (hs : s.cache.WbHeld) (n : ℕ) : Ends (s.stopIfNone n) (Framed s) := by
  unfold stopIfNone
  split_ifs
  · exact (writeback_ends hs 0).bind fun _ h => show Framed s _ from { h with }
  · exact Framed.refl s

theorem writebackThresh_ends (hs : s.cache.WbHeld) (hg : s.gran = true) :
    Ends (s.writebackThresh P) (Framed s) := by
  unfold writebackThresh
  rw [require, if_pos hg, ok_bind]
  split_ifs
  · exact writeback_ends hs _
  · exact writeback_ends hs _
  · exact Framed.refl s

theorem afterPacket_ends (hs : s.cache.WbHeld) (hg : s.gran = true) :
    Ends (s.afterPacket P) (Framed s) := by
  refine (writebackIf_ends hs 0).bind fun t₁ h₁ => ?_
  refine (writebackIf_ends (h₁.cache.held hs) 0).bind fun t₂ h₂ => ?_
  replace h₂ := h₁.trans h₂
  refine (writebackIf_ends (h₂.cache.held hs) 0).bind fun t₃ h₃ => ?_
  replace h₃ := h₂.trans h₃
  refine (stopIfNone_ends (h₃.cache.held hs) _).bind fun t₄ h₄ => ?_
  replace h₄ := h₃.trans h₄
  have hg₄ : t₄.gran = true := (congrArg RxRegs.gran h₄.regs).trans hg
  refine (writebackThresh_ends (h₄.cache.held hs) hg₄).bind fun t₅ h₅ => ?_
  replace h₅ := h₄.trans h₅
  refine (prefetch_ends (h₅.cache.held hs)).bind fun t₆ h₆ => ?_
  replace h₆ := h₅.trans h₆
  split_ifs
  · exact (fetchAndStop_ends (h₆.cache.held hs)).mono fun _ h => h₆.trans h
  · exact h₆

theorem postIf_ok {b : Prop} [Decidable b] {i : BitVec 32} (hi : i ≠ 0) :
    ∃ s', s.postIf P b i = .ok s' := by
  unfold postIf
  split_ifs
  · obtain ⟨intr, h⟩ : ∃ t, s.intr.postInterrupt P.ns i false = .ok t :=
      Intr.postInterrupt_ok hi false
    exact ⟨_, bind_ok.2 ⟨intr, h, rfl⟩⟩
  · exact ⟨s, rfl⟩

theorem packetInterrupts_ok (hr : TxPath.idv s.rdtr = 0) :
    ∃ s', s.packetInterrupts P p = .ok s' := by
  obtain ⟨i₁, h₁⟩ := Intr.startTimerIf_ok (s := s.intr) (b := TxPath.idv s.rdtr ≠ 0)
    (TxPath.idv s.rdtr * P.intClock) (t := .rdtr) fun h => absurd hr h
  obtain ⟨i₂, h₂⟩ := Intr.startTimerIf_ok (s := i₁) (b := TxPath.idv s.radv ≠ 0)
    (TxPath.idv s.radv * P.intClock) (t := .radv) fun _ => Intr.Timer.noConfusion
  obtain ⟨t, ht⟩ := postIf_ok (P := P) (s := { s with intr := i₂ })
    (b := TxPath.idv s.rdtr = 0 ∧ TxPath.idv s.radv = 0) (i := Intr.rxt0) (by decide)
  obtain ⟨s', h⟩ := postIf_ok (P := P) (s := t)
    (b := p.length ≤ (t.rsrpd.extractLsb' 0 12).toNat) (i := Intr.srpd) (by decide)
  exact ⟨s', bind_ok.2 ⟨i₁, h₁, bind_ok.2 ⟨i₂, h₂, bind_ok.2 ⟨t, ht, h⟩⟩⟩⟩

theorem finishPacket_ok (hr : TxPath.idv s.rdtr = 0) : ∃ s', s.finishPacket P p = .ok s' := by
  unfold finishPacket
  split_ifs
  · obtain ⟨t, ht⟩ := packetInterrupts_ok (P := P) (p := p) hr
    exact ⟨_, bind_ok.2 ⟨t, ht, rfl⟩⟩
  · exact ⟨s, rfl⟩

/-- The extension headers of the packet can be walked, if it has some. -/
def Walkable (p : EthPacket) : Prop :=
  Inet.IsIp6 p.data → Ends (Inet.Ip6.extensions p.data) fun _ => True

theorem transport_ok (hp : Walkable p) (n : ℕ) : ∃ r, Inet.transport p.data n = .ok r := by
  by_cases h₄ : Inet.IsIp p.data
  · exact ⟨_, if_pos h₄⟩
  by_cases h₆ : Inet.IsIp6 p.data
  · obtain ⟨⟨nxt, len⟩, hx, -⟩ := (hp h₆).exists
    have hproto : Inet.Ip6.proto p.data = .ok nxt := bind_ok.2 ⟨_, hx, rfl⟩
    have hstart : Inet.Ip6.pstart p.data = .ok (Inet.ethSize p.data + 40 + len) :=
      bind_ok.2 ⟨len, bind_ok.2 ⟨_, hx, rfl⟩, rfl⟩
    rw [Inet.transport, if_neg h₄, if_pos h₆, hproto, ok_bind]
    split_ifs
    · rw [hstart]
      exact ⟨_, rfl⟩
    · exact ⟨_, rfl⟩
  · exact ⟨none, by rw [Inet.transport, if_neg h₄, if_neg h₆]⟩

theorem cksum_ok (hp : Walkable p) (hip : Inet.IsIp p.data ∨ Inet.IsIp6 p.data) :
    ∃ n, Inet.cksum p.data = .ok n := by
  unfold Inet.cksum
  split_ifs with h₄ h₆
  · exact ⟨_, rfl⟩
  · obtain ⟨⟨nxt, len⟩, hx, -⟩ := (hp h₆).exists
    exact ⟨_, bind_ok.2 ⟨_, hx, rfl⟩⟩
  · exact absurd hip (not_or.2 ⟨h₄, h₆⟩)

theorem checkTu_ok (hp : Walkable p) (hip : Inet.IsIp p.data ∨ Inet.IsIp6 p.data) (r : Report)
    (ptr : Option ℕ) (valid ptype : ℕ) : ∃ r', s.checkTu p r ptr valid ptype = .ok r' := by
  unfold checkTu
  split_ifs
  · obtain ⟨n, hn⟩ := cksum_ok hp hip
    exact ⟨_, bind_ok.2 ⟨n, hn, rfl⟩⟩
  · exact ⟨r, rfl⟩

theorem report_ok (hp : Walkable p) : ∃ r, s.report p = .ok r := by
  by_cases hip : Inet.IsIp p.data ∨ Inet.IsIp6 p.data
  · obtain ⟨tcp, htcp⟩ := transport_ok hp 6
    obtain ⟨udp, hudp⟩ := transport_ok hp 17
    obtain ⟨r₁, h₁⟩ := checkTu_ok (s := s) hp hip
      (s.reportIp p ⟨if s.bytesCopied = p.length then 0x3 else 0x1, 0, 0, 0, 0, 0⟩) tcp 0x20 0x10
    obtain ⟨r₂, h₂⟩ := checkTu_ok (s := s) hp hip r₁ udp 0x10 0x20
    refine ⟨r₂, (if_pos hip).trans ?_⟩
    exact bind_ok.2 ⟨tcp, htcp, bind_ok.2 ⟨r₁, h₁, bind_ok.2 ⟨udp, hudp, h₂⟩⟩⟩
  · exact ⟨_, if_neg hip⟩

theorem pktComplete_ok {c : Cached RxDesc} {rest : List (Cached RxDesc)} {type : RxType}
    (hu : s.cache.unusedCache = c :: rest) (hp : s.pktPtr = some p) (hpcss : s.pcss = 0)
    (hle : s.bytesCopied ≤ p.length) (hw : Walkable p) (htype : s.rxType = some type)
    (hr : TxPath.idv s.rdtr = 0) : ∃ s', s.pktComplete P = .ok s' := by
  obtain ⟨r, hreport⟩ := report_ok (s := s) hw
  obtain ⟨t, ht⟩ := finishPacket_ok (P := P) (p := p) hr
  obtain ⟨i, rfl⟩ := finishPacket_cases ht
  have hwoken := Woken.checkDrain_enableSm { s with
    intr := i
    bytesCopied := if s.bytesCopied = p.length then 0 else s.bytesCopied
    pktPtr := none }
  unfold pktComplete
  rw [hu, hp]
  simp only [require, if_pos hpcss, if_pos hle, hreport, htype, ht, bind, Except.bind]
  have hunused := (congrArg DescCache.unusedCache hwoken.cache).trans hu
  simp only [DescCache.useDesc, hunused]
  exact ⟨_, rfl⟩

end RxPath

end Gem5
