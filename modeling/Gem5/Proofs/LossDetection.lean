import Gem5.Proofs.LoadEvents
import Gem5.Proofs.RateAdaptation

/-!
# How the load generator detects losses

A check compares the difference of two 64-bit counters with 10. Packets that come back after the
check of their own interval are counted in the next one, and if more come back than are sent the
difference wraps around and the check sees a loss that is none.
-/

namespace Gem5

namespace LoadGenerator

open Machine

variable {s s' : LoadGenerator} {ops : List Op} {p : Params}

theorem lowered_iff (hi : s.incrementInterval.toNat < 2 ^ 32) :
    s.adaptedRate.toNat < s.packetRate.toNat ↔
      if s.NoLoss then 2 ^ 32 ≤ s.packetRate.toNat + s.incrementInterval.toNat
      else 0 < s.incrementInterval.toNat ∧ s.incrementInterval.toNat ≤ s.packetRate.toNat := by
  have hr := s.packetRate.isLt
  split_ifs with hl
  · rw [adaptedRate_of_noLoss hl]
    omega
  · rw [adaptedRate_of_loss hl]
    split_ifs with hle <;> omega

theorem increment_lt (hs : Configured p s) : s.incrementInterval.toNat < 2 ^ 32 := by
  rw [hs.increment, BitVec.toNat_ofNat]
  calc 500000000 / (p.packetSize * 8).toNat % 2 ^ 64
      ≤ 500000000 / (p.packetSize * 8).toNat := Nat.mod_le _ _
    _ ≤ 500000000 := Nat.div_le_self _ _
    _ < 2 ^ 32 := by norm_num

theorem not_noLoss {started : Prop} {l : Log} (hs : Discipline started l s)
    (hm : s.mode = .increment) (h : 10 + l.rx ≤ l.tx) : ¬ s.NoLoss := by
  have hle := hs.le hm
  have hten : (10 : BitVec 64).toNat = 10 := rfl
  simp only [NoLoss, hs.tx, hs.rx, BitVec.lt_def, BitVec.toNat_sub, BitVec.toNat_ofNat, hten]
  omega

/-- In every run in `increment` mode of a generator that is started once, a check stores a rate that
is lower than the one before it just when at least 10 of the packets sent since the last check have
not come back, if and only if the counters measure that. -/
theorem lowered_iff_lost {s₀ : LoadGenerator} (hm : p.mode = .increment)
    (hinit : init p = .ok s₀) (hone : ops.count .startup ≤ 1) (hrun : run step s₀ ops = .ok s) :
    ((s.adaptedRate.toNat < s.packetRate.toNat ↔ 10 ≤ ((log ops).tx : ℤ) - (log ops).rx) ↔
        MeasuresLoss (log ops) s)
      ∧ ∀ s', s.step .checkLossEvent = .ok s' → s'.packetRate = s.adaptedRate := by
  have hs := Discipline.of_run hinit hone hrun
  have hp := Configured.of_run hinit hrun
  refine ⟨?_, fun _ h => step_check h⟩
  rw [lowered_iff (increment_lt hp), MeasuresLoss]
  by_cases hlost : 10 + (log ops).rx ≤ (log ops).tx
  · rw [if_pos hlost, if_neg (not_noLoss hs (hp.mode.trans hm) hlost)]
    have : 10 ≤ ((log ops).tx : ℤ) - (log ops).rx := by omega
    simp only [this, iff_true]
  · have : ¬ 10 ≤ ((log ops).tx : ℤ) - (log ops).rx := by omega
    rw [if_neg hlost]
    simp only [this, iff_false]
    split_ifs <;> omega

theorem lowered_iff_lost_edgeParams : ∃ s₀ s, init edgeParams = .ok s₀
    ∧ run step s₀ [.startup, .advance 1, .sendPacketEvent (List.replicate 22 0)] = .ok s
    ∧ (s.adaptedRate.toNat < s.packetRate.toNat ↔ 10 ≤ ((1 : ℕ) : ℤ) - (0 : ℕ)) := by
  refine ⟨_, _, rfl, rfl, ?_⟩
  exact ((@lowered_iff_lost _ [.startup, .advance 1, .sendPacketEvent (List.replicate 22 0)]
    edgeParams _ rfl rfl (by decide) rfl).1).2 (by decide)

theorem run_recv {q : EthPacket} (hq : 16 ≤ q.length) : ∀ (n : ℕ) (s : LoadGenerator),
    ∃ latency, run step s (List.replicate n (.recvPacket q))
      = .ok { s with lastRxCount := s.lastRxCount + BitVec.ofNat 64 n, latency := latency }
  | 0, s => ⟨s.latency, by simp [run]⟩
  | n + 1, s => by
    have hrecv : s.step (.recvPacket q) = .ok { s with
        lastRxCount := s.lastRxCount + 1
        latency := s.latency ++ [tickSub s.curTick (readStamp q)] } :=
      bind_ok.2 ⟨(), inBounds_ok.2 hq, rfl⟩
    have hsum : s.lastRxCount + 1 + BitVec.ofNat 64 n
        = s.lastRxCount + BitVec.ofNat 64 (n + 1) := by
      rw [Nat.add_comm n 1, BitVec.ofNat_add, BitVec.add_assoc]
      rfl
    obtain ⟨latency, h⟩ := run_recv hq n _
    exact ⟨latency, run_cons.2 ⟨_, hrecv, h.trans (by rw [hsum])⟩⟩

theorem sending_of_check (buf : List Bytes.Byte) (spacing tick : ℕ) (hp : Configured p s)
    (hm : p.mode = .increment) (hsize : buf.length = p.packetSize.toNat) (hbuf : 22 ≤ buf.length)
    (hn : s.sendPacketEvent = none) (hc : s.checkLossEvent = some tick) (ht : s.curTick ≤ tick)
    (hl : ¬ s.NoLoss) (hr : s.adaptedRate ≠ 0)
    (hspacing : spacing = 1000000000000 / s.adaptedRate.toNat)
    (hstop : tick + spacing + checkLossDelay + 999 * spacing < p.stopTick) :
    ∃ s', run step s [.advance tick, .checkLossEvent] = .ok s'
      ∧ Sending s' buf spacing (tick + spacing + checkLossDelay) 999
      ∧ s'.packetRate = s.adaptedRate ∧ s'.incrementInterval = s.incrementInterval
      ∧ s'.lastRxCount = 0 := by
  have hrun := run_check hn hc ht hr
  rw [if_neg hl, ← hspacing] at hrun
  refine ⟨_, hrun, ?_, rfl, rfl, rfl⟩
  exact {
    mode := hp.mode.trans hm
    size := hsize.trans (by rw [← hp.size]; rfl)
    size_le := hbuf
    freq := by
      rw [hspacing]
      exact if_neg hr
    due := rfl
    check := rfl
    tick_le := by
      show tick ≤ _
      omega
    count := rfl
    stop := by
      rw [← hp.stop] at hstop
      exact hstop }

theorem Sending.recv {buf : List Bytes.Byte} {spacing tick n : ℕ}
    (hs : Sending s buf spacing tick n) (rx : BitVec 64) (latency : List (BitVec 64)) :
    Sending { s with lastRxCount := rx, latency := latency } buf spacing tick n :=
  { hs with }

theorem note_sendOps (buf : List Bytes.Byte) (spacing : ℕ) : ∀ (n tick : ℕ) (l : Log),
    ((sendOps buf spacing tick n).foldl Log.note l).tx = l.tx + n
      ∧ ((sendOps buf spacing tick n).foldl Log.note l).rx = l.rx
  | 0, tick, l => ⟨rfl, rfl⟩
  | n + 1, tick, l => by
    obtain ⟨htx, hrx⟩ := note_sendOps buf spacing n (tick + spacing)
      ((l.note (.advance tick)).note (.sendPacketEvent buf))
    exact ⟨htx.trans (by simp only [Log.note]; omega), hrx⟩

theorem note_recv (q : EthPacket) : ∀ (n : ℕ) (l : Log),
    ((List.replicate n (.recvPacket q)).foldl Log.note l).tx = l.tx
      ∧ ((List.replicate n (.recvPacket q)).foldl Log.note l).rx = l.rx + n
  | 0, l => ⟨rfl, rfl⟩
  | n + 1, l => by
    obtain ⟨htx, hrx⟩ := note_recv q n (l.note (.recvPacket q))
    exact ⟨htx, hrx.trans (by simp only [Log.note]; omega)⟩

def fastParams : Params where
  loadgenId := 0
  packetSize := 22
  packetRate := 10000000
  startTick := 0
  stopTick := 1000000000000
  burstWidth := 0
  burstGap := 0
  mode := .increment

def frame : List Bytes.Byte := List.replicate 22 0

/-- The packets of the first interval all come back after its check, and ten of the second one before
its own. -/
def lateReceipts : List Op :=
  [.startup] ++ (sendOps frame 100000 1 1000 ++ ([.advance 199900001, .checkLossEvent]
    ++ (List.replicate 1000 (.recvPacket ⟨frame, 22, 22⟩) ++ (sendOps frame 139682 300039683 1000
      ++ (List.replicate 10 (.recvPacket ⟨frame, 22, 22⟩) ++ [.advance 539582001])))))

theorem log_lateReceipts : (log lateReceipts).tx = 1000 ∧ (log lateReceipts).rx = 1010 := by
  simp only [log, lateReceipts, List.foldl_append, List.foldl_cons, List.foldl_nil, note_sendOps,
    note_recv, Log.note]
  exact ⟨trivial, trivial⟩

/-- Ten packets more came back in the second interval than were sent in it, and its check lowers the
rate. -/
theorem late_receipts_lower : ∃ s, simulate fastParams lateReceipts = .ok s
    ∧ s.checkLossEvent = some s.curTick
    ∧ ((log lateReceipts).tx : ℤ) - (log lateReceipts).rx = -10
    ∧ s.adaptedRate.toNat < s.packetRate.toNat := by
  obtain ⟨s₁, h₁, hs₁, hr₁, hi₁, hrx₁⟩ : ∃ s₁, simulate fastParams [.startup] = .ok s₁
      ∧ Sending s₁ frame 100000 1 999 ∧ s₁.packetRate = 10000000
      ∧ s₁.incrementInterval = 2840909 ∧ s₁.lastRxCount = 0 := by
    refine ⟨_, rfl, ?_, rfl, rfl, rfl⟩
    exact ⟨rfl, rfl, by decide, rfl, rfl, rfl, by decide, rfl, by decide⟩
  -- The first interval: nothing comes back, and its check takes the increment off.
  obtain ⟨s₂, h₂, hc, hse, hcur, htx, hsame, hrx⟩ := hs₁.run
  have hloss : ¬ s₂.NoLoss := by
    simp only [NoLoss, htx, hrx, hrx₁]
    decide
  have hrate : s₂.adaptedRate = 7159091 := by
    refine BitVec.eq_of_toNat_eq ?_
    rw [adaptedRate_of_loss hloss]
    simp [hsame.1, hsame.2, hr₁, hi₁]
  have h₁₂ := simulate_append.2 ⟨s₁, h₁, h₂⟩
  obtain ⟨s₀, hinit, hrun⟩ := bind_ok.1 h₁₂
  have hp := Configured.of_run hinit hrun
  obtain ⟨s₃, h₃, hs₃, hr₃, hi₃, hrx₃⟩ := sending_of_check frame 139682 199900001
    hp rfl (by decide) (by decide) hse hc (by rw [hcur]; decide) hloss
    (by rw [hrate]; decide) (by rw [hrate]; decide) (by decide)
  -- The second interval: the packets of the first come back, and ten of its own.
  obtain ⟨lat₃, hrecv₃⟩ := run_recv (q := ⟨frame, 22, 22⟩) (by decide) 1000 s₃
  obtain ⟨s₄, h₄, hc₄, hse₄, hcur₄, htx₄, hsame₄, hrx₄⟩ :=
    (hs₃.recv (s₃.lastRxCount + BitVec.ofNat 64 1000) lat₃).run
  obtain ⟨lat₄, hrecv₄⟩ := run_recv (q := ⟨frame, 22, 22⟩) (by decide) 10 s₄
  have hadv : step { s₄ with
      lastRxCount := s₄.lastRxCount + BitVec.ofNat 64 10, latency := lat₄ } (.advance 539582001)
      = .ok { s₄ with
        lastRxCount := s₄.lastRxCount + BitVec.ofNat 64 10, latency := lat₄, curTick := 539582001 } := by
    refine if_pos ⟨?_, ?_⟩
    · rw [hcur₄]
      decide
    · simp [hse₄, hc₄, checkLossDelay]
  refine ⟨{ s₄ with
    lastRxCount := s₄.lastRxCount + BitVec.ofNat 64 10, latency := lat₄, curTick := 539582001 },
    ?_, ?_, ?_, ?_⟩
  · refine simulate_append.2 ⟨s₁, h₁, (run_append _ _).2 ⟨s₂, h₂, (run_append _ _).2 ⟨s₃, h₃, ?_⟩⟩⟩
    exact (run_append _ _).2 ⟨_, hrecv₃, (run_append _ _).2 ⟨s₄, h₄, (run_append _ _).2
      ⟨_, hrecv₄, run_cons.2 ⟨_, hadv, rfl⟩⟩⟩⟩
  · simp [hc₄, checkLossDelay]
  · rw [log_lateReceipts.1, log_lateReceipts.2]
    rfl
  · have hloss₄ : ¬ NoLoss { s₄ with
        lastRxCount := s₄.lastRxCount + BitVec.ofNat 64 10, latency := lat₄, curTick := 539582001 } := by
      simp only [NoLoss, htx₄, hrx₄, hrx₃]
      decide
    rw [adaptedRate_of_loss hloss₄]
    simp [hsame₄.1, hsame₄.2, hr₃, hi₃, hrate, hsame.2, hi₁]

end LoadGenerator

end Gem5
