import Gem5.LoadGenerator

/-!
# How the load generator adapts its rate

Without a loss the increment is added to the rate in 32 bits, with one it is taken off unless the
rate is smaller. So the rate is exact and stays positive as long as no sum passes 32 bits and no
loss finds the rate equal to the increment (`RateKept`).
-/

namespace Gem5

namespace LoadGenerator

open Machine

variable {s s' : LoadGenerator}

def RateKept (s : LoadGenerator) : Op → Prop
  | .checkLossEvent =>
    (s.NoLoss → s.packetRate.toNat + s.incrementInterval.toNat < 2 ^ 32)
      ∧ (¬ s.NoLoss → s.packetRate.toNat ≠ s.incrementInterval.toNat)
  | _ => True

theorem adaptedRate_of_noLoss (h : s.NoLoss) : s.adaptedRate.toNat
    = (s.packetRate.toNat + s.incrementInterval.toNat) % 2 ^ 32 := by
  have hr := s.packetRate.isLt
  simp only [adaptedRate, if_pos h, BitVec.toNat_setWidth, BitVec.toNat_add]
  omega

theorem adaptedRate_of_loss (h : ¬ s.NoLoss) : s.adaptedRate.toNat
    = if s.incrementInterval.toNat ≤ s.packetRate.toNat
      then s.packetRate.toNat - s.incrementInterval.toNat else s.packetRate.toNat := by
  have hr := s.packetRate.isLt
  have hi := s.incrementInterval.isLt
  simp only [adaptedRate, if_neg h]
  split_ifs with hlt hle hle <;>
    simp only [BitVec.lt_def, BitVec.toNat_sub, BitVec.toNat_setWidth] at hlt ⊢ <;> omega

/-- The rate a check leaves: positive, and the old one plus or minus the increment, or the old one
where a loss finds it below the increment. -/
structure RateStep (s : LoadGenerator) (rate : BitVec 32) : Prop where
  pos : 0 < rate.toNat
  raised : s.NoLoss → rate.toNat = s.packetRate.toNat + s.incrementInterval.toNat
  lowered : ¬ s.NoLoss →
    rate.toNat + s.incrementInterval.toNat = s.packetRate.toNat ∨ rate = s.packetRate

theorem rateStep_iff (hr : 0 < s.packetRate.toNat) :
    RateStep s s.adaptedRate ↔ s.RateKept .checkLossEvent := by
  by_cases hl : s.NoLoss
  · have ha := adaptedRate_of_noLoss hl
    constructor
    · intro h
      refine ⟨fun _ => ?_, fun hn => absurd hl hn⟩
      have hraise := h.raised hl
      have hlt := s.adaptedRate.isLt
      omega
    · rintro ⟨hsum, -⟩
      have := hsum hl
      exact ⟨by omega, fun _ => by omega, fun hn => absurd hl hn⟩
  · have ha := adaptedRate_of_loss hl
    constructor
    · intro h
      refine ⟨fun hn => absurd hn hl, fun _ he => ?_⟩
      have hpos := h.pos
      rw [ha, if_pos he.ge] at hpos
      omega
    · rintro ⟨-, hne⟩
      have hne := hne hl
      refine ⟨?_, fun hn => absurd hn hl, fun _ => ?_⟩
      · split_ifs at ha <;> omega
      · split_ifs at ha
        · exact .inl (by omega)
        · exact .inr (BitVec.eq_of_toNat_eq ha)

theorem frequency_ok (h : 0 < s.packetRate.toNat) : ∃ f, s.frequency = .ok f := by
  have hne : s.packetRate ≠ 0 := fun h0 => by simp [h0] at h
  exact ⟨_, if_neg hne⟩

def SameRate (s s' : LoadGenerator) : Prop :=
  s'.packetRate = s.packetRate ∧ s'.incrementInterval = s.incrementInterval

theorem schedSend_same {tick : ℕ} (h : s.schedSend tick = .ok s') : SameRate s s' := by
  simp only [schedSend, bind_ok] at h
  obtain ⟨e, -, h⟩ := h
  cases h
  exact ⟨rfl, rfl⟩

theorem schedNext_same (h : s.schedNext = .ok s') : SameRate s s' := by
  simp only [schedNext, bind_ok] at h
  obtain ⟨f, -, h⟩ := h
  exact schedSend_same h

theorem startup_same (h : s.startup = .ok s') : SameRate s s' := by
  unfold startup at h
  split_ifs at h
  · cases h
    exact ⟨rfl, rfl⟩
  · exact schedSend_same h
  · exact schedSend_same h

theorem afterSend_same (h : s.afterSend = .ok s') : SameRate s s' := by
  unfold afterSend at h
  split at h
  · split at h
    · split_ifs at h
      · simp only [bind_ok] at h
        obtain ⟨e, -, h⟩ := h
        cases h
        exact ⟨rfl, rfl⟩
      · exact schedNext_same h
    · exact schedNext_same h
    · split_ifs at h
      · obtain ⟨hrate, hinc⟩ := schedSend_same h
        exact ⟨hrate, hinc⟩
      · exact schedNext_same h
  · cases h
    exact ⟨rfl, rfl⟩

theorem checkLoss_rate (h : s.checkLoss = .ok s') :
    s'.packetRate = s.adaptedRate ∧ s'.incrementInterval = s.incrementInterval := by
  simp only [checkLoss, bind_ok] at h
  obtain ⟨f, -, h⟩ := h
  exact schedSend_same h

theorem step_same {o : Op} (ho : o ≠ .checkLossEvent) (h : s.step o = .ok s') : SameRate s s' := by
  cases o with
  | startup => exact startup_same h
  | sendPacketEvent buf =>
    simp only [step] at h
    split_ifs at h
    simp only [sendPacket, bind_ok] at h
    obtain ⟨p, -, h⟩ := h
    obtain ⟨hrate, hinc⟩ := afterSend_same h
    exact ⟨hrate, hinc⟩
  | checkLossEvent => exact absurd rfl ho
  | recvPacket p =>
    simp only [step, processRxPkt, bind_ok] at h
    obtain ⟨_, -, h⟩ := h
    cases h
    exact ⟨rfl, rfl⟩
  | advance tick =>
    simp only [step] at h
    split_ifs at h
    cases h
    exact ⟨rfl, rfl⟩

theorem step_check {s' : LoadGenerator} (h : s.step .checkLossEvent = .ok s') :
    s'.packetRate = s.adaptedRate := by
  simp only [step] at h
  split_ifs at h
  exact (checkLoss_rate h).1

theorem pos_step {o : Op} (hs : 0 < s.packetRate.toNat) (hk : s.RateKept o)
    (h : s.step o = .ok s') : 0 < s'.packetRate.toNat := by
  by_cases ho : o = .checkLossEvent
  · subst ho
    rw [step_check h]
    exact ((rateStep_iff hs).2 hk).pos
  · rwa [(step_same ho h).1]

theorem init_rate {p : Params} (h : init p = .ok s) : s.packetRate = p.packetRate := by
  unfold init at h
  split_ifs at h
  cases h
  rfl

/-- From a positive rate, in every run whose checks keep the rate exact and positive, the rate is
positive and the time between packets defined in every state, the next check that keeps it so
leaves a positive rate that is exactly the increment higher without a loss, exactly the increment
lower or the same with one, and nothing else changes the rate. -/
theorem rate_sound {p : Params} (hp : 0 < p.packetRate.toNat) {s₀ s : LoadGenerator}
    (hinit : init p = .ok s₀) {ops : List Op} (hadm : Admits step RateKept s₀ ops)
    (hrun : run step s₀ ops = .ok s) :
    0 < s.packetRate.toNat ∧ (∃ f, s.frequency = .ok f)
      ∧ (s.RateKept .checkLossEvent →
        RateStep s s.adaptedRate ∧ ∃ f, frequency { s with packetRate := s.adaptedRate } = .ok f)
      ∧ (∀ o s', s.step o = .ok s' →
        s'.packetRate = if o = .checkLossEvent then s.adaptedRate else s.packetRate) := by
  have h₀ : 0 < s₀.packetRate.toNat := by
    rwa [init_rate hinit]
  have hpos : 0 < s.packetRate.toNat :=
    Admits.inv (I := fun s => 0 < s.packetRate.toNat) (fun _ _ _ hi hk hst => pos_step hi hk hst)
      hadm h₀ hrun
  refine ⟨hpos, frequency_ok hpos, fun hk => ?_, fun o s' hst => ?_⟩
  · have hstep := (rateStep_iff hpos).2 hk
    exact ⟨hstep, frequency_ok hstep.pos⟩
  · split_ifs with ho
    · subst ho
      exact step_check hst
    · exact (step_same ho hst).1

/-- A generator of 22-byte packets whose rate is the increment for that size. -/
def edgeParams : Params where
  loadgenId := 0
  packetSize := 22
  packetRate := 2840909
  startTick := 0
  stopTick := 1000000000000
  burstWidth := 0
  burstGap := 0
  mode := .increment

theorem rate_sound_edgeParams : ∃ s₀ s, init edgeParams = .ok s₀
    ∧ Machine.run step s₀ [.startup, .advance 1, .sendPacketEvent (List.replicate 22 0)] = .ok s
    ∧ s.RateKept .checkLossEvent
    ∧ (0 < s.packetRate.toNat ∧ (∃ f, s.frequency = .ok f)
      ∧ (s.RateKept .checkLossEvent →
        RateStep s s.adaptedRate ∧ ∃ f, frequency { s with packetRate := s.adaptedRate } = .ok f)
      ∧ (∀ o s', s.step o = .ok s' →
        s'.packetRate = if o = .checkLossEvent then s.adaptedRate else s.packetRate)) := by
  refine ⟨_, _, rfl, rfl, ⟨by decide, by decide⟩, ?_⟩
  exact @rate_sound edgeParams (by decide) _ _ rfl
    [.startup, .advance 1, .sendPacketEvent (List.replicate 22 0)]
    ⟨trivial, fun _ _ => ⟨trivial, fun _ _ => ⟨trivial, fun _ _ => trivial⟩⟩⟩ rfl

/-- Sends `n` packets, the next one `spacing` ticks after the last. -/
def sendOps (buf : List Bytes.Byte) (spacing : ℕ) : ℕ → ℕ → List Op
  | _, 0 => []
  | tick, n + 1 =>
    .advance tick :: .sendPacketEvent buf :: sendOps buf spacing (tick + spacing) n

/-- The next packet is due at `tick` and `n` more follow it in the interval. -/
structure Sending (s : LoadGenerator) (buf : List Bytes.Byte) (spacing tick n : ℕ) : Prop where
  mode : s.mode = .increment
  size : buf.length = s.packetSize.toNat
  size_le : 22 ≤ buf.length
  freq : s.frequency = .ok spacing
  due : s.sendPacketEvent = some tick
  check : s.checkLossEvent = none
  tick_le : s.curTick ≤ tick
  count : s.lastTxCount.toNat + n + 1 = 1000
  stop : tick + n * spacing < s.stopTick

theorem buildPacket_ok {p : EthPacket} (hp : 22 ≤ p.length) : ∃ p', s.buildPacket p = .ok p' := by
  refine ⟨_, bind_ok.2 ⟨(), inBounds_ok.2 ?_, bind_ok.2 ⟨(), inBounds_ok.2 hp, rfl⟩⟩⟩
  exact (show macHeaderSize ≤ 22 by decide).trans hp

variable {buf : List Bytes.Byte} {spacing tick n : ℕ}

/-- The generator once the packet of `tick` is sent, before it schedules the next event. -/
def sentAt (s : LoadGenerator) (tick : ℕ) (p : EthPacket) : LoadGenerator :=
  { s with
    sendPacketEvent := none
    curTick := tick
    lastTxCount := s.lastTxCount + 1
    sent := s.sent ++ [p] }

theorem Sending.run_send (hs : Sending s buf spacing tick n) :
    ∃ p, ∀ os t, run step s (.advance tick :: .sendPacketEvent buf :: os) = .ok t ↔
      ∃ s', (s.sentAt tick p).afterSend = .ok s' ∧ run step s' os = .ok t := by
  have hadv : s.step (.advance tick) = .ok { s with curTick := tick } := by
    refine if_pos ⟨hs.tick_le, ?_⟩
    simp [hs.due, hs.check]
  obtain ⟨p, hp⟩ := buildPacket_ok (p := { EthPacket.alloc buf.length with data := buf })
    (s := { s with curTick := tick, sendPacketEvent := none }) hs.size_le
  have hsend : step { s with curTick := tick } (.sendPacketEvent buf)
      = (s.sentAt tick p).afterSend := by
    rw [step, if_pos ⟨hs.due, hs.size⟩, sendPacket, hp]
    rfl
  refine ⟨p, fun os t => ?_⟩
  rw [run_cons]
  simp only [hadv, Except.ok.injEq, exists_eq_left', run_cons, hsend]

theorem afterSend_next (hm : s.mode = .increment) (hlt : s.curTick < s.stopTick)
    (hne : s.lastTxCount ≠ checkLossInterval) : s.afterSend = s.schedNext := by
  simp [afterSend, hm, hlt, hne]

theorem afterSend_check (hm : s.mode = .increment) (hlt : s.curTick < s.stopTick)
    (he : s.lastTxCount = checkLossInterval) : s.afterSend
      = schedule s.curTick s.checkLossEvent (s.curTick + checkLossDelay) >>= fun e =>
        .ok { s with checkLossEvent := e } := by
  simp only [afterSend, if_pos hlt, hm, if_pos he]
  rfl

theorem Sending.next (hs : Sending s buf spacing tick (n + 1)) (p : EthPacket) :
    ∃ s', (s.sentAt tick p).afterSend = .ok s' ∧ Sending s' buf spacing (tick + spacing) n
      ∧ SameRate s s' ∧ s'.lastRxCount = s.lastRxCount := by
  have hcount := hs.count
  have hstop := hs.stop
  rw [Nat.add_mul] at hstop
  have htx : (s.lastTxCount + 1).toNat = s.lastTxCount.toNat + 1 := by bv_omega
  have hne : s.lastTxCount + 1 ≠ checkLossInterval := by
    intro he
    rw [he] at htx
    have : checkLossInterval.toNat = 1000 := rfl
    omega
  have hlt : tick < s.stopTick := by omega
  refine ⟨{ s.sentAt tick p with sendPacketEvent := some (tick + spacing) }, ?_, ?_, ?_, rfl⟩
  · have hfreq : (s.sentAt tick p).frequency = .ok spacing := hs.freq
    have hsched : schedule tick none (tick + spacing) = .ok (some (tick + spacing)) :=
      schedule_ok.2 ⟨Nat.le_add_right _ _, rfl, rfl⟩
    rw [afterSend_next (s := s.sentAt tick p) hs.mode hlt hne]
    exact bind_ok.2 ⟨spacing, hfreq, bind_ok.2 ⟨_, hsched, rfl⟩⟩
  · exact {
      mode := hs.mode
      size := hs.size
      size_le := hs.size_le
      freq := hs.freq
      due := rfl
      check := hs.check
      tick_le := Nat.le_add_right _ _
      count := by
        show (s.lastTxCount + 1).toNat + n + 1 = 1000
        omega
      stop := by
        show tick + spacing + n * spacing < s.stopTick
        omega }
  · exact ⟨rfl, rfl⟩

theorem Sending.last (hs : Sending s buf spacing tick 0) (p : EthPacket) :
    ∃ s', (s.sentAt tick p).afterSend = .ok s' ∧ s'.checkLossEvent = some (tick + checkLossDelay)
      ∧ s'.sendPacketEvent = none ∧ s'.curTick = tick ∧ s'.lastTxCount = checkLossInterval
      ∧ SameRate s s' ∧ s'.lastRxCount = s.lastRxCount := by
  have hcount := hs.count
  have hstop := hs.stop
  have htx : s.lastTxCount + 1 = checkLossInterval := by
    refine BitVec.eq_of_toNat_eq ?_
    have : checkLossInterval.toNat = 1000 := rfl
    bv_omega
  have hlt : tick < s.stopTick := by omega
  refine ⟨{ s.sentAt tick p with checkLossEvent := some (tick + checkLossDelay) }, ?_, rfl, rfl,
    rfl, htx, ⟨rfl, rfl⟩, rfl⟩
  have hsched : schedule tick s.checkLossEvent (tick + checkLossDelay)
      = .ok (some (tick + checkLossDelay)) :=
    schedule_ok.2 ⟨Nat.le_add_right _ _, hs.check, rfl⟩
  rw [afterSend_check (s := s.sentAt tick p) hs.mode hlt htx]
  exact bind_ok.2 ⟨_, hsched, rfl⟩

theorem Sending.run : ∀ {n tick : ℕ} {s : LoadGenerator}, Sending s buf spacing tick n →
    ∃ s', Machine.run step s (sendOps buf spacing tick (n + 1)) = .ok s'
      ∧ s'.checkLossEvent = some (tick + n * spacing + checkLossDelay)
      ∧ s'.sendPacketEvent = none ∧ s'.curTick = tick + n * spacing
      ∧ s'.lastTxCount = checkLossInterval ∧ SameRate s s' ∧ s'.lastRxCount = s.lastRxCount
  | 0, tick, s, hs => by
    obtain ⟨p, hp⟩ := hs.run_send
    obtain ⟨s', h, hc, hse, hcur, htx, hsame, hrx⟩ := hs.last p
    exact ⟨s', (hp _ _).2 ⟨s', h, rfl⟩, by rw [hc]; simp, hse, by rw [hcur]; simp, htx, hsame, hrx⟩
  | n + 1, tick, s, hs => by
    obtain ⟨p, hp⟩ := hs.run_send
    obtain ⟨u, hu, hnext, hsame, hrx⟩ := hs.next p
    obtain ⟨s', h, hc, hse, hcur, htx, hsame', hrx'⟩ := hnext.run
    refine ⟨s', (hp _ _).2 ⟨u, hu, h⟩, ?_, hse, ?_, htx, ?_, hrx'.trans hrx⟩
    · rw [hc]
      ring_nf
    · rw [hcur]
      ring
    · exact ⟨hsame'.1.trans hsame.1, hsame'.2.trans hsame.2⟩

/-- The packets of the first interval of that generator, and the time to their check. -/
def edgeOps : List Op :=
  [.startup] ++ sendOps (List.replicate 22 0) 352000 1 1000 ++ [.advance 451648001]

theorem simulate_append {p : Params} {os os' : List Op} {t : LoadGenerator} :
    simulate p (os ++ os') = .ok t ↔
      ∃ u, simulate p os = .ok u ∧ Machine.run step u os' = .ok t := by
  simp only [simulate, bind_ok, run_append]
  constructor
  · rintro ⟨s₀, h₀, u, hu, ht⟩
    exact ⟨u, ⟨s₀, h₀, hu⟩, ht⟩
  · rintro ⟨u, ⟨s₀, h₀, hu⟩, ht⟩
    exact ⟨s₀, h₀, u, hu, ht⟩

theorem checkLoss_undefined (hd : s.checkLossEvent = some s.curTick) (h : s.adaptedRate = 0) :
    s.step .checkLossEvent = .error (.undefined "1e12/packetRate") := by
  have h' : adaptedRate { s with checkLossEvent := none } = 0 := h
  rw [step, if_pos hd, checkLoss, h']
  rfl

/-- All packets of the first interval are lost. The rate becomes 0, and the time to the next packet
is not defined. -/
theorem rate_zero : ∃ s, simulate edgeParams edgeOps = .ok s
    ∧ 0 < s.packetRate.toNat ∧ s.adaptedRate = 0
    ∧ s.step .checkLossEvent = .error (.undefined "1e12/packetRate") := by
  obtain ⟨s₁, h₁, hs₁, hr₁, hi₁, hrx₁⟩ : ∃ s₁, simulate edgeParams [.startup] = .ok s₁
      ∧ Sending s₁ (List.replicate 22 0) 352000 1 999 ∧ s₁.packetRate = 2840909
      ∧ s₁.incrementInterval = 2840909 ∧ s₁.lastRxCount = 0 := by
    refine ⟨_, rfl, ?_, rfl, rfl, rfl⟩
    exact ⟨rfl, rfl, by decide, rfl, rfl, rfl, by decide, rfl, by decide⟩
  obtain ⟨s₂, h₂, hc, hse, hcur, htx, hsame, hrx⟩ := hs₁.run
  have hadv : s₂.step (.advance 451648001) = .ok { s₂ with curTick := 451648001 } := by
    refine if_pos ⟨?_, ?_⟩
    · rw [hcur]
      decide
    · simp [hse, hc, checkLossDelay]
  have hloss : ¬ NoLoss { s₂ with curTick := 451648001 } := by
    simp only [NoLoss, htx, hrx, hrx₁]
    decide
  have hzero : adaptedRate { s₂ with curTick := 451648001 } = 0 := by
    refine BitVec.eq_of_toNat_eq ?_
    rw [adaptedRate_of_loss hloss]
    simp [hsame.1, hsame.2, hr₁, hi₁]
  refine ⟨{ s₂ with curTick := 451648001 }, ?_, ?_, hzero, checkLoss_undefined ?_ hzero⟩
  · rw [edgeOps]
    refine simulate_append.2 ⟨s₂, ?_, run_cons.2 ⟨_, hadv, rfl⟩⟩
    exact simulate_append.2 ⟨s₁, h₁, h₂⟩
  · simp [hsame.1, hr₁]
  · simp [hc, checkLossDelay]

end LoadGenerator

end Gem5
