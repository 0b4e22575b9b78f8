import Gem5.Proofs.LoadEvents

/-!
# The bursts of the load generator

The generator measures its first burst from tick 0 and every later one from its first packet
(`Bursting`). These are bursts all measured from their first packet if and only if the two measures
of the first burst agree at each of its packets, or the gap is the packet spacing.
-/

namespace Gem5

open List Function

namespace LoadGenerator

open Machine

section Ticks

variable {spacing width gap start first n : ℕ}

theorem burstTicks_succ : burstTicks spacing width gap start first (n + 1)
    = burstTicks spacing width gap start first n
      ++ [((burstNext spacing width gap)^[n] (start, first)).2] := by
  simp [burstTicks, range_succ]

theorem burstTicks_headD : (burstTicks spacing width gap start first (n + 1)).headD 0 = first := by
  simp [burstTicks, range_succ_eq_map]

theorem burstTicks_inj {start' first' : ℕ} :
    burstTicks spacing width gap start first n = burstTicks spacing width gap start' first' n ↔
      ∀ k < n, ((burstNext spacing width gap)^[k] (start, first)).2
        = ((burstNext spacing width gap)^[k] (start', first')).2 := by
  simp [burstTicks, map_inj_left]

variable (spacing width gap first) in
/-- The two measures of the first burst agree at this packet, or it does not matter. -/
def SameNext (t : ℕ) : Prop := t ≤ width ∨ width < t - first ∨ gap = spacing

variable (width first) in
/-- The two measures are still those of the first burst, or have become the same after it. -/
def Sync (x y : ℕ × ℕ) : Prop :=
  (x = y ∧ width < x.2 - first) ∨ (x.1 = 0 ∧ y = (first, x.2))

theorem Sync.tick_eq {x y : ℕ × ℕ} : Sync width first x y → x.2 = y.2
  | .inl ⟨h, _⟩ => congrArg Prod.snd h
  | .inr ⟨_, h⟩ => by rw [h]

theorem Sync.next {x y : ℕ × ℕ} (h : Sync width first x y) (hne : gap ≠ spacing) :
    ((burstNext spacing width gap x).2 = (burstNext spacing width gap y).2 ↔
        SameNext spacing width gap first x.2)
      ∧ (SameNext spacing width gap first x.2 →
        Sync width first (burstNext spacing width gap x) (burstNext spacing width gap y)) := by
  obtain ⟨a, t⟩ := x
  rcases h with ⟨rfl, hlt⟩ | ⟨ha, rfl⟩
  · refine ⟨iff_of_true rfl (.inr (.inl hlt)), fun _ => .inl ⟨rfl, ?_⟩⟩
    simp only at hlt
    unfold burstNext
    split_ifs
    · simp only
      omega
    · simp only
      omega
  · obtain rfl : a = 0 := ha
    simp only [burstNext, SameNext, Sync, Nat.sub_zero]
    split_ifs with h₁ h₂ h₂
    · simp only [true_and]
      exact ⟨iff_of_true trivial (.inr (.inl h₂)), fun _ => .inl (by omega)⟩
    · refine ⟨iff_of_false ?_ ?_, fun h => absurd h ?_⟩ <;> omega
    · omega
    · exact ⟨iff_of_true rfl (.inl (by omega)), fun _ => .inr ⟨rfl, rfl⟩⟩

theorem sync_of_sameNext (hne : gap ≠ spacing)
    (h : ∀ k < n, SameNext spacing width gap first
      ((burstNext spacing width gap)^[k] (0, first)).2) :
    Sync width first ((burstNext spacing width gap)^[n] (0, first))
      ((burstNext spacing width gap)^[n] (first, first)) := by
  induction n with
  | zero => exact .inr ⟨rfl, rfl⟩
  | succ n ih =>
    rw [iterate_succ_apply', iterate_succ_apply']
    have hs := ih fun k hk => h k (hk.trans n.lt_succ_self)
    exact (hs.next hne).2 (h n n.lt_succ_self)

theorem burstTicks_evenly (heq : gap = spacing) :
    ((burstNext spacing width gap)^[n] (start, first)).2 = first + n * spacing := by
  induction n with
  | zero => simp
  | succ n ih =>
    rw [iterate_succ_apply', burstNext]
    split_ifs
    · rw [ih, heq]
      ring
    · rw [ih]
      ring

/-- Bursts measured from tick 0 at first are bursts if and only if the measures agree at each packet
that another one follows. -/
theorem burstTicks_eq_iff :
    burstTicks spacing width gap 0 first (n + 1) = burstTicks spacing width gap first first (n + 1) ↔
      ∀ t ∈ burstTicks spacing width gap 0 first n, SameNext spacing width gap first t := by
  have hmem : (∀ t ∈ burstTicks spacing width gap 0 first n, SameNext spacing width gap first t) ↔
      ∀ k < n, SameNext spacing width gap first
        ((burstNext spacing width gap)^[k] (0, first)).2 := by
    simp [burstTicks]
  rw [burstTicks_inj, hmem]
  by_cases hne : gap = spacing
  · refine iff_of_true (fun k _ => ?_) fun k _ => .inr (.inr hne)
    rw [burstTicks_evenly hne, burstTicks_evenly hne]
  constructor
  · intro h k
    induction k using Nat.strong_induction_on with
    | _ k ih =>
      intro hk
      have hs := sync_of_sameNext hne fun j hj => ih j hj (hj.trans hk)
      have heq := h (k + 1) (Nat.succ_lt_succ hk)
      rw [iterate_succ_apply', iterate_succ_apply'] at heq
      exact (hs.next hne).1.1 heq
  · intro h k hk
    have hs := sync_of_sameNext (n := k) hne fun j hj => h j (by omega)
    exact hs.tick_eq

end Ticks

variable {s s' : LoadGenerator} {ops : List Op} {o : Op} {p : Params} {started : Prop} {l : Log}

/-- What holds of a generator in `burst` mode and of what has been seen of it. -/
structure Bursting (p : Params) (started : Prop) (l : Log) (s : LoadGenerator) : Prop where
  disc : Discipline started l s
  conf : Configured p s
  rate : s.packetRate = p.packetRate
  fresh : ¬ started → s.burstStartTick = 0
  measured : ∀ t ∈ s.sendPacketEvent, s.burstStartTick ≤ t
  ticks : ∃ first,
    packetTicks l s
      = burstTicks p.spacing p.burstWidth p.burstGap 0 first (packetTicks l s).length
    ∧ ∀ t ∈ s.sendPacketEvent, (burstNext p.spacing p.burstWidth p.burstGap)^[l.sends.length] (0, first)
      = (s.burstStartTick, t)
  followed : (packetTicks l s).dropLast = l.sends.filter (· < s.stopTick)

theorem burstOver_iff (ht : s.curTick < 2 ^ 64) (hw : s.burstWidth < 2 ^ 64)
    (hb : s.burstStartTick ≤ s.curTick) :
    s.BurstOver ↔ s.burstWidth < s.curTick - s.burstStartTick := by
  have hsub : (tickSub s.curTick s.burstStartTick).toNat = s.curTick - s.burstStartTick := by
    simp only [tickSub, BitVec.toNat_sub, BitVec.toNat_ofNat]
    omega
  simp only [BurstOver, gt_iff_lt, BitVec.lt_def, hsub, BitVec.toNat_ofNat, Nat.mod_eq_of_lt hw]

namespace Bursting

theorem init (h : init p = .ok s) : Bursting p False (log []) s := by
  have hdisc := Discipline.init h
  have hrun : run LoadGenerator.step s [] = .ok s := rfl
  have hconf := Configured.of_run h hrun
  unfold LoadGenerator.init at h
  split_ifs at h
  cases h
  exact ⟨hdisc, hconf, rfl, fun _ => rfl, fun _ ht => (by cases ht),
    ⟨0, rfl, fun _ ht => (by cases ht)⟩, rfl⟩

theorem startup (hs : Bursting p False l s) (h : s.startup = .ok s') :
    Bursting p True (l.note .startup) s' := by
  have hconf := hs.conf.step (o := .startup) h
  have hdisc := hs.disc.startup h
  obtain ⟨-, -, hsends⟩ := hs.disc.fresh id
  have hb := hs.fresh id
  obtain rfl | ⟨tick, -, -, rfl⟩ := startup_cases h
  · exact { hs with disc := hdisc, fresh := fun h => absurd trivial h }
  · refine {
      disc := hdisc
      conf := hconf
      rate := hs.rate
      fresh := fun h => absurd trivial h
      measured := fun t _ => ?_
      ticks := ⟨tick, ?_, ?_⟩
      followed := ?_ }
    · show s.burstStartTick ≤ t
      rw [hb]
      exact Nat.zero_le t
    · simp [packetTicks, Log.note, hsends, burstTicks]
    · simp [Log.note, hsends, hb]
    · simp [packetTicks, Log.note, hsends]

theorem recv (hs : Bursting p started l s) (q : EthPacket) (latency : List (BitVec 64)) :
    Bursting p started (l.note (.recvPacket q))
      { s with lastRxCount := s.lastRxCount + 1, latency := latency } :=
  { hs with
    disc := hs.disc.recv q latency
    conf := { hs.conf with } }

theorem advance (hs : Bursting p started l s) {tick : ℕ}
    (h : ∀ e ∈ [s.sendPacketEvent, s.checkLossEvent], ∀ t ∈ e, tick ≤ t) :
    Bursting p started (l.note (.advance tick)) { s with curTick := tick } :=
  { hs with
    disc := hs.disc.advance h
    conf := { hs.conf with } }

section Send

variable (hs : Bursting p started l s) (hdue : s.sendPacketEvent = some s.curTick)
include hs hdue

theorem packetTicks_eq : packetTicks l s = l.sends ++ [l.now] := by
  rw [packetTicks, hdue, hs.disc.now]
  rfl

theorem sends_followed (hlt : s.curTick < s.stopTick) :
    (l.sends ++ [l.now]).filter (· < s.stopTick) = l.sends ++ [l.now] :=
  filter_before (hs.disc.sends_before_succ hdue hlt)

theorem ticks_snoc {b t : ℕ}
    (hnext : burstNext p.spacing p.burstWidth p.burstGap (s.burstStartTick, s.curTick) = (b, t)) :
    ∃ first, l.sends ++ [l.now] ++ [t]
        = burstTicks p.spacing p.burstWidth p.burstGap 0 first (l.sends ++ [l.now] ++ [t]).length
      ∧ (burstNext p.spacing p.burstWidth p.burstGap)^[(l.sends ++ [l.now]).length] (0, first)
        = (b, t) := by
  obtain ⟨first, hticks, hlast⟩ := hs.ticks
  rw [hs.packetTicks_eq hdue] at hticks
  have hiter : (burstNext p.spacing p.burstWidth p.burstGap)^[(l.sends ++ [l.now]).length] (0, first)
      = (b, t) := by
    rw [length_append, length_singleton, iterate_succ_apply',
      hlast _ hdue, hnext]
  refine ⟨first, ?_, hiter⟩
  rw [length_append, length_singleton, burstTicks_succ, ← hticks, hiter]

theorem send {buf : List Bytes.Byte} {q : EthPacket} (hm : p.mode = .burst)
    (hw : p.burstWidth < 2 ^ 64) (ht : s.curTick < 2 ^ 64) (h : Follows (s.handOver q) s') :
    Bursting p started (l.note (.sendPacketEvent buf)) s' := by
  have hdisc : Discipline started (l.note (.sendPacketEvent buf)) s' := hs.disc.send hdue h
  have hconf := Follows.configured (s := s.handOver q)
    { hs.conf with } h
  have hfresh : ¬ started → s'.burstStartTick = 0 := fun h => absurd (hs.disc.has_started hdue) h
  have hover := burstOver_iff (s := s) ht (hs.conf.width ▸ hw) (hs.measured _ hdue)
  rw [hs.conf.width] at hover
  cases h with
  | stop hge =>
    obtain ⟨first, hticks, -⟩ := hs.ticks
    have hfollowed := hs.followed
    rw [hs.packetTicks_eq hdue] at hticks hfollowed
    have heq : packetTicks (l.note (.sendPacketEvent buf)) (s.handOver q) = l.sends ++ [l.now] := by
      simp [packetTicks, Log.note, LoadGenerator.handOver]
    refine ⟨hdisc, hconf, hs.rate, hfresh, fun _ h => (by cases h),
      ⟨first, heq ▸ hticks, fun _ h => (by cases h)⟩, ?_⟩
    have hge : s.stopTick ≤ l.now := hs.disc.now ▸ hge
    have hlate : (l.sends ++ [l.now]).filter (· < s.stopTick) = l.sends.filter (· < s.stopTick) := by
      simp [not_lt.2 hge]
    rw [heq, hfollowed]
    exact hlate.symm
  | check _ hinc => simp [LoadGenerator.handOver, hs.conf.mode, hm] at hinc
  | next hlt _ hburst _ hfreq =>
    rename_i f
    have hf : f = p.spacing := by
      unfold frequency at hfreq
      split_ifs at hfreq
      rw [← Except.ok.inj hfreq, Params.spacing, ← hs.rate]
      rfl
    have hnot := mt hover.2 (hburst (hs.conf.mode.trans hm))
    obtain ⟨first, hticks, hlast⟩ := hs.ticks_snoc hdue (b := s.burstStartTick) (t := s.curTick + f)
      (by simp only [burstNext, if_neg hnot, hf])
    refine ⟨hdisc, hconf, hs.rate, hfresh, ?_, ⟨first, hticks, ?_⟩, ?_⟩
    · rintro t ht
      cases ht
      exact (hs.measured _ hdue).trans (Nat.le_add_right _ _)
    · rintro t ht
      cases ht
      exact hlast
    · show (l.sends ++ [l.now] ++ [s.curTick + f]).dropLast = _
      rw [dropLast_concat]
      exact (hs.sends_followed hdue hlt).symm
  | gap hlt _ hended _ =>
    have hgap : (s.handOver q).burstGap = p.burstGap := hs.conf.gap
    obtain ⟨first, hticks, hlast⟩ := hs.ticks_snoc hdue (b := s.curTick + p.burstGap)
      (t := s.curTick + p.burstGap) (by simp only [burstNext, if_pos (hover.1 hended)])
    refine ⟨hdisc, hconf, hs.rate, hfresh, ?_, ⟨first, ?_, ?_⟩, ?_⟩
    · rintro t ht
      cases ht
      exact le_rfl
    · show l.sends ++ [l.now] ++ [s.curTick + s.burstGap] = _
      rw [hs.conf.gap]
      simpa [packetTicks, Log.note, hgap] using hticks
    · rintro t ht
      cases ht
      rwa [hgap]
    · show (l.sends ++ [l.now] ++ [s.curTick + s.burstGap]).dropLast = _
      rw [dropLast_concat]
      exact (hs.sends_followed hdue hlt).symm

end Send

theorem step (hs : Bursting p started l s) (hm : p.mode = .burst) (hw : p.burstWidth < 2 ^ 64)
    (ht : s.curTick < 2 ^ 64) (ho : o = .startup → ¬ started) (h : s.step o = .ok s') :
    Bursting p (started ∨ o = .startup) (l.note o) s' := by
  cases o with
  | startup =>
    obtain rfl : started = False := eq_false (ho rfl)
    simpa using hs.startup h
  | sendPacketEvent buf =>
    obtain ⟨hdue, q, hf⟩ := step_send h
    simpa using hs.send hdue hm hw ht hf
  | checkLossEvent =>
    obtain ⟨hdue, -⟩ := step_checkLoss h
    have hidle := hs.disc.other (by simp [hs.conf.mode, hm])
    simp [hidle] at hdue
  | recvPacket q =>
    obtain ⟨latency, rfl⟩ := step_recv h
    simpa using hs.recv q latency
  | advance tick =>
    obtain ⟨hle, rfl⟩ := step_advance h
    simpa using hs.advance hle.2

theorem of_run {s₀ : LoadGenerator} (hm : p.mode = .burst) (hw : p.burstWidth < 2 ^ 64)
    (hinit : LoadGenerator.init p = .ok s₀) (hone : ops.count .startup ≤ 1)
    (hrun : run LoadGenerator.step s₀ ops = .ok s) (ht : s.curTick < 2 ^ 64) :
    Bursting p (.startup ∈ ops) (log ops) s := by
  refine run_hist (I := fun os u => os.count .startup ≤ 1 → u.curTick < 2 ^ 64 →
    Bursting p (.startup ∈ os) (log os) u) (fun _ _ => ?_) (fun os u o u' _ hu hst hcount ht => ?_)
    hrun hone ht
  · simpa using init hinit
  · obtain ⟨hcount, ho⟩ := count_startup_snoc hcount
    have ht := (step_curTick hst).trans_lt ht
    rw [log_snoc]
    simpa [eq_comm] using (hu hcount ht).step hm hw ht ho hst

end Bursting

/-- In every run of a generator in `burst` mode that is started once, the packets sent and the one
scheduled come in bursts that keep the packet spacing until more than the width has passed since their
first packet, each one a gap after the last packet of the one before, if and only if tick 0 gives the
same measure of the first burst as its first packet at every packet sent before the stop tick. -/
theorem inBursts_iff {s₀ : LoadGenerator} (hm : p.mode = .burst) (hw : p.burstWidth < 2 ^ 64)
    (hinit : init p = .ok s₀) (hone : ops.count .startup ≤ 1)
    (hrun : run step s₀ ops = .ok s) (ht : s.curTick < 2 ^ 64) :
    InBursts p (log ops) s ↔
      ∀ t ∈ (log ops).sends, t < p.stopTick → Agrees p ((log ops).sends.headD 0) t := by
  have hs := Bursting.of_run hm hw hinit hone hrun ht
  obtain ⟨first, hticks, -⟩ := hs.ticks
  have hfollowed := hs.followed
  cases hn : (packetTicks (log ops) s).length with
  | zero =>
    have hnil := length_eq_zero_iff.1 hn
    have hsends : (log ops).sends = [] := (append_eq_nil_iff.1 hnil).1
    refine iff_of_true ?_ (by simp [hsends])
    simp [InBursts, hnil, burstTicks]
  | succ n =>
    rw [hn] at hticks
    have hhead : (packetTicks (log ops) s).headD 0 = first := by
      rw [hticks, burstTicks_headD]
    have hdrop : burstTicks p.spacing p.burstWidth p.burstGap 0 first n
        = (log ops).sends.filter (· < p.stopTick) := by
      rw [← hs.conf.stop, ← hfollowed, hticks, burstTicks_succ, dropLast_concat]
    simp only [InBursts, hhead, hn]
    rw [hticks, burstTicks_eq_iff, hdrop]
    simp only [mem_filter, decide_eq_true_eq, and_imp]
    refine forall₃_congr fun t hmem _ => ?_
    have hfirst : (log ops).sends.headD 0 = first := by
      rw [← hhead, packetTicks]
      cases hl : (log ops).sends with
      | nil => simp [hl] at hmem
      | cons => rfl
    rw [hfirst]
    rfl

/-- A generator with packets a microsecond apart, in bursts of ten of them. -/
def burstParams (startTick : ℕ) : Params where
  loadgenId := 0
  packetSize := 22
  packetRate := 1000000
  startTick := startTick
  stopTick := 1000000000
  burstWidth := 10000000
  burstGap := 50000000
  mode := .burst

def burstOps (first : ℕ) : List Op :=
  [.startup, .advance first, .sendPacketEvent (List.replicate 22 0)]

theorem inBursts_iff_burstOps : ∃ s₀ s, init (burstParams 0) = .ok s₀
    ∧ run step s₀ (burstOps 1) = .ok s ∧ InBursts (burstParams 0) (log (burstOps 1)) s := by
  refine ⟨_, _, rfl, rfl, ?_⟩
  refine (@inBursts_iff _ (burstOps 1) (burstParams 0) _ rfl (by decide) rfl (by decide) rfl
    (by decide)).2 ?_
  rintro t ht -
  obtain rfl : t = 1 := by simpa [burstOps, log, Log.note] using ht
  exact .inl (by decide)

/-- A first burst that starts later than its width has only one packet. -/
theorem burst_cut_short : ∃ s, simulate (burstParams 20000000) (burstOps 20000001) = .ok s
    ∧ packetTicks (log (burstOps 20000001)) s = [20000001, 70000001]
    ∧ (burstParams 20000000).spacing = 1000000
    ∧ ¬ InBursts (burstParams 20000000) (log (burstOps 20000001)) s := by
  refine ⟨_, rfl, by decide, by decide, ?_⟩
  decide

end LoadGenerator

end Gem5
