import Gem5.LoadGenerator

/-!
# The events of the load generator

Each packet schedules at most one event and each check schedules a packet, so the generator waits for
a packet or for a check, never for both (`Discipline`). The checks are those of every 1000th packet.
A packet at or after the stop tick schedules nothing.
-/

namespace Gem5

open List

namespace LoadGenerator

variable {tick : ℕ} {p : Params}

open Machine

variable {α : Type} {s s' : LoadGenerator} {ops : List Op} {o : Op}

theorem log_snoc (ops : List Op) (o : Op) : log (ops ++ [o]) = (log ops).note o :=
  foldl_append

theorem schedSend_ok : s.schedSend tick = .ok s' ↔
    s.curTick ≤ tick ∧ s.sendPacketEvent = none
      ∧ s' = { s with sendPacketEvent := some tick } := by
  simp only [schedSend, bind_ok, schedule_ok]
  constructor
  · rintro ⟨e, ⟨hle, hn, rfl⟩, h⟩
    exact ⟨hle, hn, (Except.ok.inj h).symm⟩
  · rintro ⟨hle, hn, rfl⟩
    exact ⟨_, ⟨hle, hn, rfl⟩, rfl⟩

theorem startup_cases (h : s.startup = .ok s') : s' = s
    ∨ ∃ tick, s.curTick ≤ tick ∧ s.sendPacketEvent = none
      ∧ s' = { s with sendPacketEvent := some tick } := by
  unfold startup at h
  split_ifs at h
  · exact .inl (Except.ok.inj h).symm
  · exact .inr ⟨_, schedSend_ok.1 h⟩
  · exact .inr ⟨_, schedSend_ok.1 h⟩

def BurstOver (s : LoadGenerator) : Prop :=
  tickSub s.curTick s.burstStartTick > BitVec.ofNat 64 s.burstWidth

instance (s : LoadGenerator) : Decidable s.BurstOver := inferInstanceAs (Decidable (_ > _))

/-- What a packet is followed by. -/
inductive Follows (s : LoadGenerator) : LoadGenerator → Prop
  | stop (h : s.stopTick ≤ s.curTick) : Follows s s
  | check (h : s.curTick < s.stopTick) (mode : s.mode = .increment)
      (full : s.lastTxCount = checkLossInterval) (idle : s.checkLossEvent = none) :
      Follows s { s with checkLossEvent := some (s.curTick + checkLossDelay) }
  | next (h : s.curTick < s.stopTick)
      (more : s.mode = .increment → s.lastTxCount ≠ checkLossInterval) (burst : s.mode = .burst → ¬ s.BurstOver) (idle : s.sendPacketEvent = none) {f : ℕ}
      (freq : s.frequency = .ok f) : Follows s { s with sendPacketEvent := some (s.curTick + f) }
  | gap (h : s.curTick < s.stopTick) (mode : s.mode = .burst) (ended : s.BurstOver)
      (idle : s.sendPacketEvent = none) : Follows s { s with
        burstStartTick := s.curTick + s.burstGap
        sendPacketEvent := some (s.curTick + s.burstGap) }

theorem schedNext_cases (h : s.schedNext = .ok s') : ∃ f, s.frequency = .ok f
    ∧ s.sendPacketEvent = none ∧ s' = { s with sendPacketEvent := some (s.curTick + f) } := by
  simp only [schedNext, bind_ok, schedSend_ok] at h
  obtain ⟨f, hf, -, hn, rfl⟩ := h
  exact ⟨f, hf, hn, rfl⟩

theorem afterSend_cases (h : s.afterSend = .ok s') : Follows s s' := by
  unfold afterSend at h
  split at h
  · rename_i hlt
    split at h
    · rename_i hm
      split_ifs at h with hfull
      · simp only [bind_ok, schedule_ok] at h
        obtain ⟨e, ⟨-, hidle, rfl⟩, h⟩ := h
        cases h
        exact .check hlt hm hfull hidle
      · obtain ⟨f, hf, hidle, rfl⟩ := schedNext_cases h
        exact .next hlt (fun _ => hfull) (by simp [hm]) hidle hf
    · rename_i hm
      obtain ⟨f, hf, hidle, rfl⟩ := schedNext_cases h
      exact .next hlt (by simp [hm]) (by simp [hm]) hidle hf
    · rename_i hm
      split_ifs at h with hover
      · obtain ⟨-, hidle, rfl⟩ := schedSend_ok.1 h
        exact .gap hlt hm hover hidle
      · obtain ⟨f, hf, hidle, rfl⟩ := schedNext_cases h
        exact .next hlt (by simp [hm]) (fun _ => hover) hidle hf
  · rename_i hle
    cases h
    exact .stop (not_lt.1 hle)

def handOver (s : LoadGenerator) (p : EthPacket) : LoadGenerator :=
  { s with sendPacketEvent := none, lastTxCount := s.lastTxCount + 1, sent := s.sent ++ [p] }

theorem step_send {buf : List Bytes.Byte} (h : s.step (.sendPacketEvent buf) = .ok s') :
    s.sendPacketEvent = some s.curTick ∧ ∃ p, Follows (s.handOver p) s' := by
  simp only [step] at h
  split_ifs at h with hdue
  simp only [sendPacket, bind_ok] at h
  obtain ⟨p, -, h⟩ := h
  exact ⟨hdue.1, p, afterSend_cases h⟩

def adapted (s : LoadGenerator) : LoadGenerator :=
  { s with checkLossEvent := none, packetRate := s.adaptedRate, lastTxCount := 0, lastRxCount := 0 }

theorem step_checkLoss (h : s.step .checkLossEvent = .ok s') :
    s.checkLossEvent = some s.curTick ∧ s.sendPacketEvent = none ∧ ∃ f, s.adapted.frequency = .ok f
      ∧ s' = { s.adapted with
          sendPacketEvent := some (s.curTick + f + if s.NoLoss then 0 else checkLossDelay) } := by
  simp only [step] at h
  split_ifs at h with hdue
  simp only [checkLoss, bind_ok] at h
  obtain ⟨f, hf, h⟩ := h
  obtain ⟨-, hidle, rfl⟩ := schedSend_ok.1 h
  exact ⟨hdue, hidle, f, hf, rfl⟩

theorem step_recv {p : EthPacket} (h : s.step (.recvPacket p) = .ok s') :
    ∃ latency, s' = { s with lastRxCount := s.lastRxCount + 1, latency := latency } := by
  simp only [step, processRxPkt, bind_ok] at h
  obtain ⟨_, -, h⟩ := h
  exact ⟨_, (Except.ok.inj h).symm⟩

theorem step_advance (h : s.step (.advance tick) = .ok s') :
    (s.curTick ≤ tick ∧ ∀ e ∈ [s.sendPacketEvent, s.checkLossEvent], ∀ t ∈ e, tick ≤ t)
      ∧ s' = { s with curTick := tick } := by
  simp only [step] at h
  split_ifs at h with hle
  exact ⟨hle, (Except.ok.inj h).symm⟩

theorem Follows.curTick : Follows s s' → s'.curTick = s.curTick
  | .stop _ | .check .. | .next .. | .gap .. => rfl

theorem step_curTick (h : s.step o = .ok s') : s.curTick ≤ s'.curTick := by
  cases o with
  | startup =>
    obtain rfl | ⟨tick, -, -, rfl⟩ := startup_cases h <;> exact le_rfl
  | sendPacketEvent buf =>
    obtain ⟨-, p, hf⟩ := step_send h
    exact hf.curTick.ge
  | checkLossEvent =>
    obtain ⟨-, -, f, -, rfl⟩ := step_checkLoss h
    exact le_rfl
  | recvPacket p =>
    obtain ⟨latency, rfl⟩ := step_recv h
    exact le_rfl
  | advance tick =>
    obtain ⟨hle, rfl⟩ := step_advance h
    exact hle.1

theorem count_startup_snoc (h : (ops ++ [o]).count .startup ≤ 1) :
    ops.count .startup ≤ 1 ∧ (o = .startup → .startup ∉ ops) := by
  rw [count_append, count_singleton] at h
  refine ⟨by omega, fun ho hmem => ?_⟩
  have := count_pos_iff.2 hmem
  simp [ho] at h
  omega

/-! ## The checks that are due -/

variable {stop t : ℕ} {sends : List ℕ}

theorem dueChecks_late (ht : stop ≤ t) : dueChecks stop (sends ++ [t]) = dueChecks stop sends := by
  simp [dueChecks, filter_append, not_lt.2 ht]

theorem filter_before (h : ∀ u ∈ sends, u < stop) : sends.filter (· < stop) = sends :=
  filter_eq_self.2 fun u hu => by simpa using h u hu

theorem dueChecks_map {n : ℕ} (hn : 1000 * n ≤ sends.length) :
    (List.range n).map (fun k => (sends ++ [t]).getD (1000 * k + 999) 0 + checkLossDelay)
      = (List.range n).map fun k => sends.getD (1000 * k + 999) 0 + checkLossDelay := by
  refine map_congr_left fun k hk => ?_
  have hk := mem_range.1 hk
  rw [getD_append _ _ _ _ (by omega)]

theorem dueChecks_more (h : ∀ u ∈ sends, u < stop) (ht : t < stop)
    (hm : (sends.length + 1) % 1000 ≠ 0) :
    dueChecks stop (sends ++ [t]) = dueChecks stop sends := by
  have h' : ∀ u ∈ sends ++ [t], u < stop := by simpa [or_imp, forall_and] using ⟨h, ht⟩
  simp only [dueChecks, filter_before h, filter_before h', length_append, length_singleton]
  have hq : (sends.length + 1) / 1000 = sends.length / 1000 := by omega
  rw [hq]
  exact dueChecks_map (by omega)

theorem dueChecks_full (h : ∀ u ∈ sends, u < stop) (ht : t < stop)
    (hm : (sends.length + 1) % 1000 = 0) :
    dueChecks stop (sends ++ [t]) = dueChecks stop sends ++ [t + checkLossDelay] := by
  have h' : ∀ u ∈ sends ++ [t], u < stop := by simpa [or_imp, forall_and] using ⟨h, ht⟩
  simp only [dueChecks, filter_before h, filter_before h', length_append, length_singleton]
  have hq : (sends.length + 1) / 1000 = sends.length / 1000 + 1 := by omega
  have hlast : 1000 * (sends.length / 1000) + 999 = sends.length := by omega
  rw [hq, range_succ, map_append, dueChecks_map (by omega)]
  simp [hlast]

/-! ## The discipline -/

/-- What holds of a generator and of what has been seen of it. -/
structure Discipline (started : Prop) (l : Log) (s : LoadGenerator) : Prop where
  now : s.curTick = l.now
  tx : s.lastTxCount = BitVec.ofNat 64 l.tx
  rx : s.lastRxCount = BitVec.ofNat 64 l.rx
  fresh : ¬ started → s.sendPacketEvent = none ∧ s.checkLossEvent = none ∧ l.sends = []
  one : s.sendPacketEvent = none ∨ s.checkLossEvent = none
  sendDue : ∀ t ∈ s.sendPacketEvent, s.curTick ≤ t
  checkDue : ∀ t ∈ s.checkLossEvent, s.curTick ≤ t
  before : s.sendPacketEvent ≠ none ∨ s.checkLossEvent ≠ none → ∀ t ∈ l.sends, t < s.stopTick
  late : (l.sends.filter (s.stopTick ≤ ·)).length ≤ 1
  other : s.mode ≠ .increment → s.checkLossEvent = none
  sent : s.mode = .increment → l.sends.length = 1000 * l.checks.length + l.tx
  pending : s.mode = .increment → s.sendPacketEvent ≠ none → l.tx < 1000
  full : s.mode = .increment → s.checkLossEvent ≠ none → l.tx = 1000
  le : s.mode = .increment → l.tx ≤ 1000
  checks : s.mode = .increment →
    l.checks ++ s.checkLossEvent.toList = dueChecks s.stopTick l.sends

namespace Discipline

variable {started : Prop} {l : Log}

theorem init (h : init p = .ok s) : Discipline False (log []) s := by
  unfold LoadGenerator.init at h
  split_ifs at h
  cases h
  constructor <;> simp [log, dueChecks]

theorem startup (hs : Discipline False l s) (h : s.startup = .ok s') :
    Discipline True (l.note .startup) s' := by
  obtain ⟨-, hcheck, hsends⟩ := hs.fresh id
  obtain rfl | ⟨tick, htick, -, rfl⟩ := startup_cases h
  · exact { hs with fresh := fun h => absurd trivial h }
  · have hsent := hs.sent
    exact { hs with
      fresh := fun h => absurd trivial h
      one := .inr hcheck
      sendDue := by simpa using htick
      before := fun _ => by simp [Log.note, hsends]
      pending := fun hm _ => by
        have := hsent hm
        rw [hsends, length_nil] at this
        show l.tx < 1000
        omega }

theorem advance (hs : Discipline started l s)
    (h : ∀ e ∈ [s.sendPacketEvent, s.checkLossEvent], ∀ t ∈ e, tick ≤ t) :
    Discipline started (l.note (.advance tick)) { s with curTick := tick } :=
  { hs with
    now := rfl
    sendDue := h _ (by simp)
    checkDue := h _ (by simp) }

theorem recv (hs : Discipline started l s) (p : EthPacket) (latency : List (BitVec 64)) :
    Discipline started (l.note (.recvPacket p))
      { s with lastRxCount := s.lastRxCount + 1, latency := latency } :=
  { hs with
    rx := by
      simp only [hs.rx, Log.note, BitVec.ofNat_add]
      rfl }

theorem check (hs : Discipline started l s) (hdue : s.checkLossEvent = some s.curTick)
    (htick : s.curTick ≤ tick) : Discipline started (l.note .checkLossEvent) { s.adapted with sendPacketEvent := some tick } := by
  have hbefore := hs.before (.inr (by simp [hdue]))
  have hm : s.mode = .increment := by
    by_contra hm
    simp [hs.other hm] at hdue
  have htx := hs.full hm (by simp [hdue])
  exact {
    now := hs.now
    tx := rfl
    rx := rfl
    fresh := fun h => by simpa [hdue] using hs.fresh h
    one := .inr rfl
    sendDue := fun t ht => by
      cases ht
      exact htick
    checkDue := fun _ h => by cases h
    before := fun _ => hbefore
    late := hs.late
    other := fun _ => rfl
    sent := fun hm => by
      have := hs.sent hm
      simp only [Log.note, length_append, length_singleton]
      omega
    pending := fun _ _ => by simp [Log.note]
    full := fun _ h => absurd rfl h
    le := fun _ => Nat.zero_le _
    checks := fun hm => by
      have := hs.checks hm
      rw [hdue] at this
      simpa [Log.note, adapted, hs.now] using this }

theorem tx_succ (hs : Discipline started l s) :
    s.lastTxCount + 1 = BitVec.ofNat 64 (l.tx + 1) := by
  rw [hs.tx, BitVec.ofNat_add]
  rfl

theorem sent_succ (hs : Discipline started l s) (hm : s.mode = .increment) :
    (l.sends ++ [l.now]).length = 1000 * l.checks.length + (l.tx + 1) := by
  have := hs.sent hm
  simp only [length_append, length_singleton]
  omega

section Send

variable (hs : Discipline started l s) (hdue : s.sendPacketEvent = some s.curTick)
include hs hdue

theorem idle : s.checkLossEvent = none :=
  hs.one.resolve_left (by simp [hdue])

theorem has_started : started := by
  by_contra h
  simpa [hdue] using (hs.fresh h).1

theorem sends_before : ∀ t ∈ l.sends, t < s.stopTick := hs.before (.inl (by simp [hdue]))

theorem sends_before_succ (hlt : s.curTick < s.stopTick) :
    ∀ t ∈ l.sends ++ [l.now], t < s.stopTick := by
  simp only [mem_append, mem_singleton, or_imp, forall_and, forall_eq]
  exact ⟨hs.sends_before hdue, hs.now ▸ hlt⟩

theorem late_le : ((l.sends ++ [l.now]).filter (s.stopTick ≤ ·)).length ≤ 1 := by
  have hnil : l.sends.filter (s.stopTick ≤ ·) = [] := by
    simpa [filter_eq_nil_iff] using hs.sends_before hdue
  rw [filter_append, hnil, nil_append]
  exact length_filter_le _ _

theorem checks_eq (hm : s.mode = .increment) : l.checks = dueChecks s.stopTick l.sends := by
  simpa [hs.idle hdue] using hs.checks hm

theorem handOver (buf : List Bytes.Byte) (p : EthPacket)
    (hne : s.curTick < s.stopTick → s.mode = .increment → l.tx + 1 ≠ 1000) :
    Discipline started (l.note (.sendPacketEvent buf)) (s.handOver p) where
  now := hs.now
  tx := hs.tx_succ
  rx := hs.rx
  fresh := fun h => absurd (hs.has_started hdue) h
  one := .inl rfl
  sendDue := fun _ h => by cases h
  checkDue := hs.checkDue
  before := by
    rintro (h | h)
    · exact absurd rfl h
    · exact absurd (hs.idle hdue) h
  late := hs.late_le hdue
  other := hs.other
  sent := hs.sent_succ
  pending := fun _ h => absurd rfl h
  full := fun _ h => absurd (hs.idle hdue) h
  le := fun hm => hs.pending hm (by simp [hdue])
  checks := fun hm => by
    have hidle : (s.handOver p).checkLossEvent = none := hs.idle hdue
    rw [hidle, Option.toList_none, append_nil]
    show l.checks = dueChecks s.stopTick (l.sends ++ [l.now])
    rw [hs.checks_eq hdue hm]
    rcases lt_or_ge l.now s.stopTick with hlt | hge
    · have htx := hs.pending hm (by simp [hdue])
      have hsent := hs.sent hm
      have hne := hne (hs.now ▸ hlt) hm
      rw [dueChecks_more (hs.sends_before hdue) hlt (by omega)]
    · rw [dueChecks_late hge]

theorem send {buf : List Bytes.Byte} {p : EthPacket} (h : Follows (s.handOver p) s') :
    Discipline started (l.note (.sendPacketEvent buf)) s' := by
  have htx : ∀ {n}, (s.handOver p).lastTxCount = BitVec.ofNat 64 n → s.mode = .increment →
      n < 2 ^ 64 → l.tx + 1 = n := fun hn hm hlt => by
    have hle := hs.pending hm (by simp [hdue])
    have := congrArg BitVec.toNat (hs.tx_succ.symm.trans hn)
    simp only [BitVec.toNat_ofNat] at this
    omega
  cases h with
  | stop hge => exact hs.handOver hdue buf p fun hlt => absurd hlt (not_lt.2 hge)
  | check hlt hm hfull hidle =>
    have hfull := htx (n := 1000) hfull hm (by norm_num)
    have hsent := hs.sent hm
    exact {
      now := hs.now
      tx := hs.tx_succ
      rx := hs.rx
      fresh := fun h => absurd (hs.has_started hdue) h
      one := .inl rfl
      sendDue := fun _ h => by cases h
      checkDue := by simp [LoadGenerator.handOver]
      before := fun _ => hs.sends_before_succ hdue hlt
      late := hs.late_le hdue
      other := fun h => absurd hm h
      sent := hs.sent_succ
      pending := fun _ h => absurd rfl h
      full := fun _ _ => hfull
      le := fun _ => hfull.le
      checks := fun _ => by
        show l.checks ++ [s.curTick + checkLossDelay] = dueChecks s.stopTick (l.sends ++ [l.now])
        have hlt : l.now < s.stopTick := hs.now ▸ hlt
        rw [hs.checks_eq hdue hm, dueChecks_full (hs.sends_before hdue) hlt (by omega), hs.now] }
  | next hlt hmore _ _ hf =>
    have hne : s.mode = .increment → l.tx + 1 ≠ 1000 := fun hm h1000 =>
      hmore hm (hs.tx_succ.trans (by rw [h1000]; rfl))
    have hu := hs.handOver hdue buf p fun _ => hne
    exact { hu with
      fresh := fun h => absurd (hs.has_started hdue) h
      one := .inr (hs.idle hdue)
      sendDue := by simp [LoadGenerator.handOver]
      before := fun _ => hs.sends_before_succ hdue hlt
      pending := fun hm _ => lt_of_le_of_ne (hu.le hm) (hne hm) }
  | gap hlt hm _ _ =>
    have hne : s.mode ≠ .increment := by
      have : s.mode = .burst := hm
      simp [this]
    have hu := hs.handOver hdue buf p fun _ h => absurd h hne
    exact { hu with
      fresh := fun h => absurd (hs.has_started hdue) h
      one := .inr (hs.idle hdue)
      sendDue := by simp [LoadGenerator.handOver]
      before := fun _ => hs.sends_before_succ hdue hlt
      pending := fun hm' _ => absurd hm' hne }

end Send

theorem step (hs : Discipline started l s) (ho : o = .startup → ¬ started)
    (h : s.step o = .ok s') : Discipline (started ∨ o = .startup) (l.note o) s' := by
  cases o with
  | startup =>
    obtain rfl : started = False := eq_false (ho rfl)
    simpa using hs.startup h
  | sendPacketEvent buf =>
    obtain ⟨hdue, p, hf⟩ := step_send h
    simpa using hs.send hdue hf
  | checkLossEvent =>
    obtain ⟨hdue, -, f, -, rfl⟩ := step_checkLoss h
    simpa using hs.check hdue (by omega)
  | recvPacket p =>
    obtain ⟨latency, rfl⟩ := step_recv h
    simpa using hs.recv p latency
  | advance tick =>
    obtain ⟨hle, rfl⟩ := step_advance h
    simpa using hs.advance hle.2

theorem of_run {s₀ : LoadGenerator} (hinit : LoadGenerator.init p = .ok s₀)
    (hone : ops.count .startup ≤ 1) (hrun : run LoadGenerator.step s₀ ops = .ok s) :
    Discipline (.startup ∈ ops) (log ops) s := by
  refine run_hist (I := fun os u => os.count .startup ≤ 1 → Discipline (.startup ∈ os) (log os) u)
    (fun _ => ?_) (fun os u o u' _ hu hst hcount => ?_) hrun hone
  · simpa using init hinit
  · obtain ⟨hcount, ho⟩ := count_startup_snoc hcount
    rw [log_snoc]
    simpa [eq_comm] using (hu hcount).step ho hst

end Discipline

/-! ## No assertion fires -/

/-- Not an assertion of the source. -/
def NotAssertion (e : Halt) : Prop := ∀ c, e ≠ .assertion c

theorem failsOnly_inBounds {c : Prop} [Decidable c] {access : String} :
    FailsOnly NotAssertion (inBounds c access) := by
  intro e he c' hc'
  unfold inBounds at he
  split_ifs at he
  cases he
  cases hc'

theorem failsOnly_frequency : FailsOnly NotAssertion s.frequency := by
  intro e he c hc
  unfold frequency at he
  split_ifs at he
  cases he
  cases hc

theorem failsOnly_schedSend (hn : s.sendPacketEvent = none) (ht : s.curTick ≤ tick) :
    FailsOnly NotAssertion (s.schedSend tick) :=
  .of_ok (schedSend_ok.2 ⟨ht, hn, rfl⟩)

theorem failsOnly_schedNext (hn : s.sendPacketEvent = none) :
    FailsOnly NotAssertion s.schedNext :=
  failsOnly_frequency.bind fun f _ => failsOnly_schedSend hn (Nat.le_add_right _ f)

theorem failsOnly_afterSend (hn : s.sendPacketEvent = none) (hc : s.checkLossEvent = none) :
    FailsOnly NotAssertion s.afterSend := by
  unfold afterSend
  split
  · split
    · split_ifs
      · exact .of_ok (bind_ok.2 ⟨_, schedule_ok.2 ⟨Nat.le_add_right _ _, hc, rfl⟩, rfl⟩)
      · exact failsOnly_schedNext hn
    · exact failsOnly_schedNext hn
    · split_ifs
      · exact failsOnly_schedSend hn (Nat.le_add_right _ _)
      · exact failsOnly_schedNext hn
  · exact .of_ok rfl

theorem failsOnly_notScheduled : FailsOnly NotAssertion (.error .notScheduled : Except Halt α) := by
  rintro e he c rfl
  cases he

theorem failsOnly_step {started : Prop} {l : Log} (hs : Discipline started l s)
    (ho : o = .startup → ¬ started) : FailsOnly NotAssertion (s.step o) := by
  cases o with
  | startup =>
    obtain ⟨hn, -, -⟩ := hs.fresh (ho rfl)
    simp only [step, startup]
    split_ifs
    · exact .of_ok rfl
    · exact failsOnly_schedSend hn (Nat.le_succ _)
    · exact failsOnly_schedSend hn (by omega)
  | sendPacketEvent buf =>
    simp only [step]
    split_ifs with hdue
    · refine FailsOnly.bind ?_ fun p _ => failsOnly_afterSend rfl (hs.idle hdue.1)
      exact failsOnly_inBounds.bind fun _ _ => failsOnly_inBounds.bind fun _ _ => .of_ok rfl
    · exact failsOnly_notScheduled
  | checkLossEvent =>
    simp only [step]
    split_ifs with hdue
    · have hn : s.sendPacketEvent = none := hs.one.resolve_right (by simp [hdue])
      refine failsOnly_frequency.bind fun f _ => failsOnly_schedSend hn ?_
      show s.curTick ≤ s.curTick + f + _
      omega
    · exact failsOnly_notScheduled
  | recvPacket p => exact failsOnly_inBounds.bind fun _ _ => .of_ok rfl
  | advance tick =>
    simp only [step]
    split_ifs
    · exact .of_ok rfl
    · exact failsOnly_notScheduled

/-- What the parameters fix. -/
structure Configured (p : Params) (s : LoadGenerator) : Prop where
  mode : s.mode = p.mode
  size : s.packetSize = p.packetSize
  stop : s.stopTick = p.stopTick
  width : s.burstWidth = p.burstWidth
  gap : s.burstGap = p.burstGap
  increment : s.incrementInterval = BitVec.ofNat 64 (500000000 / (p.packetSize * 8).toNat)

theorem Follows.configured (hs : Configured p s) : Follows s s' → Configured p s'
  | .stop _ => hs
  | .check .. | .next .. | .gap .. => { hs with }

theorem Configured.step (hs : Configured p s) (h : s.step o = .ok s') :
    Configured p s' := by
  have hs' := hs
  obtain ⟨hm, hsize, hstop, hw, hg, hi⟩ := hs
  cases o with
  | startup =>
    obtain rfl | ⟨tick, -, -, rfl⟩ := startup_cases h
    · exact hs'
    · exact ⟨hm, hsize, hstop, hw, hg, hi⟩
  | sendPacketEvent buf =>
    obtain ⟨-, q, hf⟩ := step_send h
    exact Follows.configured (s := s.handOver q) ⟨hm, hsize, hstop, hw, hg, hi⟩ hf
  | checkLossEvent =>
    obtain ⟨-, -, f, -, rfl⟩ := step_checkLoss h
    exact ⟨hm, hsize, hstop, hw, hg, hi⟩
  | recvPacket q =>
    obtain ⟨latency, rfl⟩ := step_recv h
    exact ⟨hm, hsize, hstop, hw, hg, hi⟩
  | advance tick =>
    obtain ⟨-, rfl⟩ := step_advance h
    exact ⟨hm, hsize, hstop, hw, hg, hi⟩

theorem Configured.of_run {s₀ : LoadGenerator} (hinit : init p = .ok s₀)
    (hrun : run LoadGenerator.step s₀ ops = .ok s) : Configured p s := by
  refine run_inv (I := Configured p) (fun _ _ _ hi hst => hi.step hst) ?_ hrun
  unfold init at hinit
  split_ifs at hinit
  cases hinit
  exact ⟨rfl, rfl, rfl, rfl, rfl, rfl⟩

theorem run_check (hn : s.sendPacketEvent = none) (hc : s.checkLossEvent = some tick)
    (ht : s.curTick ≤ tick) (hr : s.adaptedRate ≠ 0) :
    run step s [.advance tick, .checkLossEvent] = .ok { s.adapted with
      curTick := tick
      sendPacketEvent := some (tick + 1000000000000 / s.adaptedRate.toNat
        + if s.NoLoss then 0 else checkLossDelay) } := by
  have hadv : s.step (.advance tick) = .ok { s with curTick := tick } := by
    refine if_pos ⟨ht, ?_⟩
    simp [hn, hc]
  have hfreq : frequency { s with curTick := tick }.adapted
      = .ok (1000000000000 / s.adaptedRate.toNat) := if_neg hr
  refine run_cons.2 ⟨_, hadv, run_cons.2 ⟨_, ?_, rfl⟩⟩
  rw [step, if_pos hc]
  exact bind_ok.2 ⟨_, hfreq, schedSend_ok.2
    ⟨(Nat.le_add_right _ _).trans (Nat.le_add_right _ _), hn, rfl⟩⟩

/-- In every run of a generator that is started once, at most one of its two events is scheduled,
the next operation does not schedule one that is, and at most one packet is sent at or after the
stop tick. In `increment` mode the checks made and the one scheduled are those of every 1000th
packet sent before the stop tick, each before the packet after it, and a scheduled one is made
unless it leaves no rate. -/
theorem events_disciplined {p : Params} {s₀ s : LoadGenerator} {ops : List Op}
    (hinit : init p = .ok s₀) (hone : ops.count .startup ≤ 1)
    (hrun : run step s₀ ops = .ok s) :
    (s.sendPacketEvent = none ∨ s.checkLossEvent = none)
      ∧ (∀ o, (o = .startup → .startup ∉ ops) → ∀ c, s.step o ≠ .error (.assertion c))
      ∧ ((log ops).sends.filter (p.stopTick ≤ ·)).length ≤ 1
      ∧ (p.mode = .increment →
        (log ops).checks ++ s.checkLossEvent.toList = dueChecks p.stopTick (log ops).sends
          ∧ (log ops).sends.length ≤ 1000 * ((log ops).checks.length + 1)
          ∧ ∀ tick, s.checkLossEvent = some tick → s.adaptedRate ≠ 0 →
            ∃ s', run step s [.advance tick, .checkLossEvent] = .ok s') := by
  have hs := Discipline.of_run hinit hone hrun
  have hp := Configured.of_run hinit hrun
  refine ⟨hs.one, fun o ho c hc => failsOnly_step hs ho _ hc c rfl, hp.stop ▸ hs.late, fun hm => ?_⟩
  have hm := hp.mode.trans hm
  refine ⟨hp.stop ▸ hs.checks hm, ?_, fun tick hc hr => ?_⟩
  · have hsent := hs.sent hm
    have hle := hs.le hm
    omega
  · exact ⟨_, run_check (hs.one.resolve_right (by simp [hc])) hc (hs.checkDue _ hc) hr⟩

def lateParams : Params where
  loadgenId := 0
  packetSize := 22
  packetRate := 1000000
  startTick := 4
  stopTick := 5
  burstWidth := 0
  burstGap := 0
  mode := .increment

def lateOps : List Op := [.startup, .advance 5, .sendPacketEvent (List.replicate 22 0)]

theorem events_disciplined_lateOps : ∃ s₀ s, init lateParams = .ok s₀
    ∧ run step s₀ lateOps = .ok s ∧ (log lateOps).sends = [5]
    ∧ (s.sendPacketEvent = none ∨ s.checkLossEvent = none)
    ∧ ((log lateOps).sends.filter (lateParams.stopTick ≤ ·)).length ≤ 1 := by
  refine ⟨_, _, rfl, rfl, by decide, ?_⟩
  have h := @events_disciplined lateParams _ _ lateOps rfl (by decide) rfl
  exact ⟨h.1, h.2.2.1⟩

end LoadGenerator

end Gem5
