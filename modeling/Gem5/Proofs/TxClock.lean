import Gem5.Proofs.TxReserve

/-!
# When the transmit path ticks

While the device runs, the clock ticks whenever one of the state machines is to tick, and a packet
in the FIFO is given to the link at the next tick or waits for the link to be done with another one.
-/

namespace Gem5

namespace TxPath

open Bytes Machine

variable {P : NicParams} {s s' t : TxPath} {p : EthPacket}

/-- Nothing enters or leaves the FIFO. -/
structure Still (s s' : TxPath) : Prop where
  fifo : s'.txFifo.fifo = s.txFifo.fifo
  maxsize : s'.txFifo.maxsize = s.txFifo.maxsize
  sent : s'.sent = s.sent
  onWire : s'.onWire = s.onWire
  txFifoTick : s'.txFifoTick = s.txFifoTick
  tctl : s'.tctl = s.tctl
  drainState : s'.drainState = s.drainState

namespace Still

theorem refl (s : TxPath) : Still s s := ⟨rfl, rfl, rfl, rfl, rfl, rfl, rfl⟩

theorem trans (h : Still s s') (h' : Still s' t) : Still s t where
  fifo := h'.fifo.trans h.fifo
  maxsize := h'.maxsize.trans h.maxsize
  sent := h'.sent.trans h.sent
  onWire := h'.onWire.trans h.onWire
  txFifoTick := h'.txFifoTick.trans h.txFifoTick
  tctl := h'.tctl.trans h.tctl
  drainState := h'.drainState.trans h.drainState

theorem of_quiet (h : Quiet s s') : Still s s' :=
  { h with
    fifo := by rw [h.engine]
    maxsize := by rw [h.engine] }

theorem loadContext (s : TxPath) (d : TxDesc) : Still s (s.loadContext d) := by
  unfold TxPath.loadContext
  split_ifs <;> exact ⟨rfl, rfl, rfl, rfl, rfl, rfl, rfl⟩

theorem takeContexts : ∀ (u : List (Cached TxDesc)) (s : TxPath), Still s (s.takeContexts u)
  | [], s => .refl s
  | c :: rest, s => by
    rw [TxPath.takeContexts]
    split_ifs
    · have h := takeContexts rest ((s.loadContext c.desc).usedDesc c rest TxDesc.setDd)
      exact (loadContext s c.desc).trans { h with }
    · exact .refl s

theorem processContextDesc (h : s.processContextDesc = .ok s') : Still s s' := by
  have hc := takeContexts s.cache.unusedCache s
  rcases processContextDesc_cases h with ⟨-, rfl⟩ | ⟨c, rest, -, h⟩
  · exact hc
  · have ha : Still s ((s.takeContexts s.cache.unusedCache).advTso c.desc) := by
      unfold advTso
      split_ifs
      · exact { hc with }
      · exact hc
    rcases fetchHeader_cases h with ⟨-, -, -, -, -, rfl⟩ | ⟨-, rfl⟩
    · exact { ha with }
    · exact ha

theorem reserveNext (h : s.reserveNext p = .ok s') : Still s s' := by
  obtain ⟨size, t, hsize, h⟩ := reserveNext_cases h
  have ht : Still s t := by
    rcases getPacketSize_cases hsize with ⟨-, -, rfl⟩ | ⟨c, rest, -, ⟨-, -, -, rfl⟩ | ⟨-, -, rfl⟩⟩
    · exact .refl _
    · exact ⟨rfl, rfl, rfl, rfl, rfl, rfl, rfl⟩
    · exact .refl _
  rcases h with ⟨-, -, q, hq, h⟩ | ⟨-, h⟩ | ⟨-, -, rfl⟩
  · obtain ⟨_, -, rfl⟩ := bind_pure_ok.1 hq
    obtain ⟨c, rest, -, -, -, ⟨-, -, -, -, rfl⟩ | ⟨-, -, rfl⟩⟩ := getPacketData_cases h
      <;> exact { ht with }
  · exact ht.trans (.of_quiet (.writeback h))
  · exact { ht with }

theorem nextPacket (h : s.nextPacket P = .ok s') : Still s s' := by
  obtain ⟨t, p, ht, -, ⟨-, u, hu, rfl⟩ | ⟨-, -, u, hu, h⟩⟩ := nextPacket_cases h
  · exact (of_quiet ht).trans { of_quiet hu with }
  · have hu := (of_quiet ht).trans { processContextDesc hu with }
    rcases h with ⟨-, rfl⟩ | ⟨-, h⟩
    · exact { hu with }
    · exact hu.trans (reserveNext h)

end Still

/-- A packet in the FIFO is given to the link, or the link has another one. -/
def Attended (s : TxPath) : Prop :=
  s.drainState = .running → s.txFifo.fifo ≠ [] → s.txFifoTick = true ∨ s.onWire ≠ 0

/-- And the clock ticks for what is to tick. -/
structure Clocked (s : TxPath) : Prop where
  clock : s.drainState = .running → s.txTick = true ∨ s.txFifoTick = true → s.tickEvent = true
  fifo : Attended s

namespace Clocked

theorem init (base len size : ℕ) (max : BitVec 32) : Clocked (TxPath.init base len size max) where
  clock _ h := by
    rcases h with h | h <;> exact absurd h Bool.false_ne_true
  fifo _ h := absurd rfl h

theorem quiet (hs : Clocked s) (h : Quiet s s') : Clocked s' where
  clock hd ht := by
    rw [h.tickEvent]
    rw [h.drainState] at hd
    rw [h.txTick, h.txFifoTick] at ht
    exact hs.clock hd ht
  fifo hd hf := by
    rw [h.txFifoTick, h.onWire]
    rw [h.drainState] at hd
    rw [h.engine] at hf
    exact hs.fifo hd hf

theorem woken (hs : Clocked s) (h : Woken t s') (hd : t.drainState = s.drainState)
    (hfifo : t.txFifo = s.txFifo) (htick : t.txFifoTick = s.txFifoTick) (hwire : t.onWire = s.onWire) :
    Clocked s' where
  clock hrun _ := h.tickEvent (h.drainState.symm.trans hrun)
  fifo hrun hf := by
    rw [h.drainState] at hrun
    rw [h.engine, hfifo] at hf
    rw [h.txFifoTick (by rw [hrun]; exact DrainState.noConfusion), h.onWire, htick, hwire]
    exact hs.fifo (hd.symm.trans hrun) hf

theorem restartClock (h : Attended s) : Clocked s.restartClock := by
  unfold TxPath.restartClock
  split_ifs with hc
  · exact ⟨fun _ _ => rfl, h⟩
  · exact ⟨fun hd ht => absurd ⟨.inr ht, hd⟩ hc, h⟩

theorem checkDrain (hs : Clocked s) : Clocked s.checkDrain := by
  unfold TxPath.checkDrain
  split_ifs with hd
  · exact ⟨fun hr => absurd (hd.symm.trans hr) DrainState.noConfusion,
      fun hr => absurd (hd.symm.trans hr) DrainState.noConfusion⟩
  · exact hs

end Clocked

namespace Attended

theorem txStateMachine (hs : Attended s) (h : s.txStateMachine P = .ok s') : Attended s' := by
  have hask : Still s s.askAvailable := by
    unfold askAvailable
    split_ifs <;> exact ⟨rfl, rfl, rfl, rfl, rfl, rfl, rfl⟩
  intro hd hf
  unfold TxPath.txStateMachine at h
  split_ifs at h
  · cases h
    exact hs hd hf
  · split at h
    · obtain ⟨q, -, hq⟩ := pushPacket_cases h
      refine .inl ?_
      rw [hq.txFifoTick]
      have hrun : s.askAvailable.drainState = .running := hq.drainState.symm.trans hd
      simp [hrun]
    · have hst := hask.trans (Still.nextPacket h)
      rw [hst.fifo] at hf
      rw [hst.drainState] at hd
      rw [hst.txFifoTick, hst.onWire]
      exact hs hd hf

theorem txWire {w : Wire} (hr : s.txFifo.Accounted) (h : s.txWire w = .ok s') : Attended s' := by
  intro hd hf
  rcases txWire_cases h with ⟨he, rfl⟩ | ⟨-, -, hw, rfl⟩ | ⟨p, q, -, -, -, ⟨-, rfl⟩ | ⟨-, rfl⟩⟩
  · exact absurd (hr.empty_iff.1 he) hf
  · exact .inr hw
  · exact .inr (Nat.succ_ne_zero _)
  · refine .inl ?_
    have hrun : s.drainState = .running := hd
    simp [TxPath.ethTxDone, hrun]

end Attended

namespace Clocked

theorem tick {rx : Bool} {ws : List Wire} (hs : Clocked s)
    (hr : Reserved s.toTxEngine s.cache.unusedCache) (h : s.tick P rx ws = .ok s') : Clocked s' := by
  obtain ⟨-, t, u, hsm, hu, rfl⟩ := tick_cases h
  have ht : Reserved t.toTxEngine t.cache.unusedCache ∧ Attended t := by
    rcases hsm with ⟨-, hsm⟩ | ⟨-, rfl⟩
    · exact ⟨Reserved.txStateMachine (s := { s with tickEvent := false, rxTick := rx })
        { hr with } hsm, Attended.txStateMachine
          (s := { s with tickEvent := false, rxTick := rx }) hs.fifo hsm⟩
    · exact ⟨{ hr with }, hs.fifo⟩
  obtain ⟨-, hatt⟩ := (wireLoop_inv (I := fun t => Reserved t.toTxEngine t.cache.unusedCache
      ∧ Attended t)
    (fun s w s' hs _ h => ⟨txWire_cache h ▸ hs.1.txWire h, .txWire hs.1.fifo h⟩) ws ht hu).1
  refine ⟨fun _ h => ?_, hatt⟩
  rcases h with h | h
  · simp [show u.txTick = true from h]
  · simp [show u.txFifoTick = true from h]

theorem step {o : Op} (hs : Clocked s) (hr : Reserved s.toTxEngine s.cache.unusedCache)
    (h : s.step P o = .ok s') : Clocked s' := by
  cases o with
  | tick rx ws => exact hs.tick hr h
  | headerEvent data =>
    obtain ⟨a, len, c, rest, -, -, -, ⟨-, h⟩ | ⟨-, h⟩⟩ := headerComplete_cases h
      <;> exact hs.woken h rfl rfl rfl rfl
  | pktEvent data =>
    obtain ⟨a, len, p, c, rest, -, -, -, hu, -, ⟨-, h⟩ | ⟨-, h⟩⟩ := pktComplete_cases h
    · obtain ⟨-, h⟩ := partialPacket_cases (s := s.arrived) hu h
      exact hs.woken h rfl rfl rfl rfl
    · obtain ⟨d, d', -, -, h⟩ := finishPacket_cases (s := s.arrived) hu h
      have hrel : Still s (s.arrived.released c rest) := by
        unfold released
        split_ifs <;> exact ⟨rfl, rfl, rfl, rfl, rfl, rfl, rfl⟩
      refine hs.woken h hrel.drainState ?_ hrel.txFifoTick hrel.onWire
      unfold released
      split_ifs <;> rfl
  | ethTxDone =>
    unfold TxPath.step at h
    split_ifs at h
    cases h
    refine restartClock fun hd _ => .inl ?_
    have hrun : s.drainState = .running := hd
    simp [TxPath.ethTxDone, hrun]
  | fetchEvent buf =>
    obtain ⟨c, -, rfl⟩ := bind_pure_ok.1 h
    exact hs.woken (.enableSm_checkDrain { s with cache := c }) rfl rfl rfl rfl
  | wbEvent =>
    obtain ⟨t, ht, h⟩ := bind_ok.1 h
    obtain ⟨c, -, rfl⟩ := bind_pure_ok.1 h
    have ht : Clocked { t with cache := c } := { hs.quiet (.postInterrupt ht) with }
    split_ifs
    · exact ht.checkDrain
    · exact ht
  | writeTctl val =>
    cases h
    rw [writeTctl_eq]
    exact restartClock hs.fifo
  | rxTick b =>
    cases h
    exact restartClock hs.fifo
  | drain | drained =>
    cases h
    exact ⟨fun h => DrainState.noConfusion h, fun h => DrainState.noConfusion h⟩
  | drainResume =>
    cases h
    exact restartClock fun _ _ => .inl rfl
  | _ => exact hs.quiet (step_quiet rfl h)

end Clocked

theorem restartClock_txTick : s.restartClock.txTick = s.txTick := by
  unfold restartClock
  split_ifs <;> rfl

/-- What is not about the packet being gathered does not stop the state machine from ticking for
it, and starts it when there is a new descriptor. -/
theorem ticks_step {o : Op} (ho : ¬ o.IsEngine) (h : s.step P o = .ok s')
    (hd : s'.drainState = .running) (hen : s'.en = true) :
    s'.txTick = true ∨ (s.drainState = .running ∧ s.en = true
      ∧ s'.cache.unusedCache = s.cache.unusedCache ∧ (s.txTick = true → s'.txTick = true)
      ∧ (s'.onWire = s.onWire ∨ s'.cache.unusedCache = [])) := by
  have hsame : ∀ {u}, Quiet s u → u.drainState = .running → u.en = true →
      s.drainState = .running ∧ s.en = true ∧ u.cache.unusedCache = s.cache.unusedCache
        ∧ (s.txTick = true → u.txTick = true)
        ∧ (u.onWire = s.onWire ∨ u.cache.unusedCache = []) := fun {u} hq hd hen => by
    refine ⟨hq.drainState.symm.trans hd, ?_, hq.cache.unused, fun h => hq.txTick.trans h,
      .inl hq.onWire⟩
    rwa [en, ← hq.tctl]
  cases o with
  | tick rx ws | headerEvent data | pktEvent data => exact absurd trivial ho
  | ethTxDone =>
    unfold TxPath.step at h
    split_ifs at h
    cases h
    have hf := Framed.restartClock (TxPath.ethTxDone { s with onWire := s.onWire - 1 })
    have hrun : s.drainState = .running := hf.drainState.symm.trans hd
    have hen' : s.en = true := by
      rw [en] at hen
      rwa [hf.tctl] at hen
    by_cases hu : s.cache.unusedCache = []
    · refine .inr ⟨hrun, hen', hf.cache.unused, fun ht => ?_, .inr (hf.cache.unused.trans hu)⟩
      rw [restartClock_txTick]
      simp [TxPath.ethTxDone, ht]
    · refine .inl ?_
      have hleft : s.cache.descLeft ≠ 0 := fun h => hu (unusedCache_of_descLeft h)
      rw [restartClock_txTick]
      simp [TxPath.ethTxDone, hleft, hrun]
  | fetchEvent buf =>
    obtain ⟨c, -, rfl⟩ := bind_pure_ok.1 h
    have hw := Woken.enableSm_checkDrain { s with cache := c }
    refine .inl (hw.txTick ?_)
    rw [← hw.drainState, hd]
    exact DrainState.noConfusion
  | wbEvent =>
    obtain ⟨t, ht, h⟩ := bind_ok.1 h
    obtain ⟨c, hc, rfl⟩ := bind_pure_ok.1 h
    have hq := Quiet.postInterrupt ht
    have hu := (hq.cache.trans (.wbComplete hc)).unused
    have hdr : ∀ {u : TxPath}, u.checkDrain.drainState = .running → u.checkDrain = u := fun {u} h => by
      refine if_neg fun hdrain => ?_
      simp [(Framed.checkDrain u).drainState, hdrain] at h
    have hc : (if c.wbOut = 0 then TxPath.checkDrain { t with cache := c } else { t with cache := c })
        = { t with cache := c } := by
      split_ifs at hd ⊢
      · exact hdr hd
      · rfl
    rw [hc] at hd hen ⊢
    have hen' : s.en = true := by
      rwa [en, ← hq.tctl]
    exact .inr ⟨hq.drainState.symm.trans hd, hen', hu, fun h => hq.txTick.trans h, .inl hq.onWire⟩
  | writeTctl val =>
    cases h
    rw [writeTctl_eq] at hen ⊢
    have hf := Framed.restartClock { s with tctl := val, txTick := s.txTick || val.getLsbD 1 }
    rw [en, hf.tctl] at hen
    refine .inl ?_
    rw [restartClock_txTick]
    simp only [hen, Bool.or_true]
  | rxTick b =>
    cases h
    have hf := Framed.restartClock { s with rxTick := b }
    refine .inr ⟨hf.drainState.symm.trans hd, ?_, hf.cache.unused, fun ht => ?_, .inl hf.onWire⟩
    · rwa [en, hf.tctl] at hen
    · rwa [restartClock_txTick]
  | drain | drained =>
    cases h
    cases hd
  | drainResume =>
    cases h
    exact .inl restartClock_txTick
  | _ => exact .inr (hsame (step_quiet rfl h) hd hen)

end TxPath

end Gem5
