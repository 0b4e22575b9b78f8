import Gem5.Proofs.TsoSteps

/-!
# A segmentation job as a whole

The segments of the job are pushed in order, and nothing else before the last of them. Once the
descriptors have been read the device and the link get all segments onto the wire by themselves: they
can always make the rank of the stage smaller, or else what is between the device and the wire.
-/

namespace Gem5

open Bytes Machine TxPath List

namespace TxPath

variable {P : NicParams} {s s' t : TxPath} {o : Op} {max : BitVec 32}

/-- What holds in every reachable state of the transmit path. -/
structure Sound (max : BitVec 32) (s : TxPath) : Prop where
  reserved : Reserved s.toTxEngine s.cache.unusedCache
  phases : s.cache.Phases
  clocked : Clocked s
  maxsize : s.txFifo.maxsize = max

theorem push_packets {q q' : PacketFifo} {p : EthPacket} (h : q.push p = .ok (some q')) :
    q'.packets = q.packets ++ [p] ∧ q'.maxsize = q.maxsize := by
  obtain ⟨_, -, h⟩ := bind_ok.1 h
  obtain ⟨_, -, h⟩ := bind_ok.1 h
  split_ifs at h
  · cases Except.ok.inj h
  · obtain rfl := Option.some.inj (Except.ok.inj h)
    exact ⟨by simp [PacketFifo.packets], rfl⟩

/-- What the path is told to do, the size of its FIFO, and what was pushed into it. -/
structure Kept (s s' : TxPath) : Prop where
  drainState : s'.drainState = s.drainState
  tctl : s'.tctl = s.tctl
  maxsize : s'.txFifo.maxsize = s.txFifo.maxsize
  pushed : s.pushed <+: s'.pushed

namespace Kept

theorem refl (s : TxPath) : Kept s s := ⟨rfl, rfl, rfl, prefix_rfl⟩

theorem trans (h : Kept s s') (h' : Kept s' t) : Kept s t where
  drainState := h'.drainState.trans h.drainState
  tctl := h'.tctl.trans h.tctl
  maxsize := h'.maxsize.trans h.maxsize
  pushed := h.pushed.trans h'.pushed

theorem of_still (h : Still s s') : Kept s s' :=
  { h with
    pushed := by
      rw [TxPath.pushed, TxPath.pushed, PacketFifo.packets, PacketFifo.packets, h.fifo, h.sent] }

theorem of_framed (h : Framed s s') : Kept s s' :=
  { h with
    maxsize := by rw [h.engine]
    pushed := by
      rw [TxPath.pushed, TxPath.pushed, h.engine, h.sent] }

theorem txStateMachine (h : s.txStateMachine P = .ok s') : Kept s s' := by
  have hask : Still s s.askAvailable := by
    unfold askAvailable
    split_ifs <;> exact ⟨rfl, rfl, rfl, rfl, rfl, rfl, rfl⟩
  unfold TxPath.txStateMachine at h
  split_ifs at h
  · cases h
    exact ⟨rfl, rfl, rfl, prefix_rfl⟩
  · split at h
    · obtain ⟨q, hq, hquiet⟩ := pushPacket_cases h
      obtain ⟨hpackets, hmax⟩ := push_packets hq
      have hk := of_framed hquiet.toFramed
      have hpre : s.askAvailable.pushed <+: s.askAvailable.sent ++ q.packets := by
        rw [hpackets, ← append_assoc]
        exact prefix_append _ _
      exact (of_still hask).trans ⟨hk.drainState, hk.tctl, hk.maxsize.trans hmax,
        hpre.trans hk.pushed⟩
    · exact of_still (hask.trans (.nextPacket h))

theorem txWire {x : Wire} (hq : s.txFifo.Accounted) (h : s.txWire x = .ok s') : Kept s s' := by
  cases hf : s.txFifo.fifo with
  | nil =>
    obtain rfl := Except.ok.inj ((txWire_nil hq hf).symm.trans h)
    exact ⟨rfl, rfl, rfl, prefix_rfl⟩
  | cons e l =>
    obtain ⟨q, -, -, hl, hmax, hbusy, hfree, htakes, hatOnce⟩ := txWire_cons hq hf
    have hpushed : s.pushed = s.sent ++ [e.packet] ++ q.packets := by
      simp [TxPath.pushed, PacketFifo.packets, hf, hl]
    cases x with
    | refuses =>
      by_cases hw : s.onWire = 0
      · simp [hfree hw] at h
      · obtain rfl := Except.ok.inj ((hbusy hw).symm.trans h)
        exact ⟨rfl, rfl, rfl, prefix_rfl⟩
    | takes =>
      obtain rfl := Except.ok.inj (htakes.symm.trans h)
      exact ⟨rfl, rfl, hmax, by rw [hpushed]; exact prefix_rfl⟩
    | takesAtOnce =>
      obtain rfl := Except.ok.inj (hatOnce.symm.trans h)
      exact ⟨rfl, rfl, hmax, by rw [hpushed]; exact prefix_rfl⟩

theorem wireLoop {ws : List Wire} (hr : Reserved s.toTxEngine s.cache.unusedCache)
    (h : s.wireLoop ws = .ok s') : Kept s s' :=
  (wireLoop_inv (I := fun t => Reserved t.toTxEngine t.cache.unusedCache ∧ Kept s t)
    (fun _ _ _ ht _ h => ⟨txWire_cache h ▸ ht.1.txWire h, ht.2.trans (txWire ht.1.fifo h)⟩) ws
    ⟨hr, refl s⟩ h).1.2

theorem engine (ho : o.IsEngine) (hr : Reserved s.toTxEngine s.cache.unusedCache)
    (h : s.step P o = .ok s') : Kept s s' := by
  cases o with
  | tick rx ws =>
    obtain ⟨-, t, u, hsm, hu, rfl⟩ := tick_cases h
    have ht : Reserved t.toTxEngine t.cache.unusedCache ∧ Kept s t := by
      rcases hsm with ⟨-, hsm⟩ | ⟨-, rfl⟩
      · exact ⟨Reserved.txStateMachine (s := { s with tickEvent := false, rxTick := rx })
          { hr with } hsm, { txStateMachine hsm with }⟩
      · exact ⟨{ hr with }, ⟨rfl, rfl, rfl, prefix_rfl⟩⟩
    exact { ht.2.trans (wireLoop ht.1 hu) with }
  | headerEvent data =>
    obtain ⟨a, len, c, rest, -, -, -, ⟨-, h⟩ | ⟨-, h⟩⟩ := headerComplete_cases h
      <;> exact { of_framed h.toFramed with }
  | pktEvent data =>
    obtain ⟨a, len, p, c, rest, -, -, -, hu, -, ⟨-, h⟩ | ⟨-, h⟩⟩ := pktComplete_cases h
    · obtain ⟨-, h⟩ := partialPacket_cases (s := s.arrived) hu h
      exact { of_framed h.toFramed with }
    · obtain ⟨d, d', -, -, h⟩ := finishPacket_cases (s := s.arrived) hu h
      have hrel : Still s ((s.arrived.released c rest).completed (received p data) d') := by
        unfold released
        split_ifs <;> exact ⟨rfl, rfl, rfl, rfl, rfl, rfl, rfl⟩
      exact (of_still hrel).trans (of_framed h.toFramed)
  | _ => exact ho.elim

end Kept

theorem pushed_step (hr : Reserved s.toTxEngine s.cache.unusedCache) (h : s.step P o = .ok s') :
    s.pushed <+: s'.pushed ∧ s'.txFifo.maxsize = s.txFifo.maxsize := by
  by_cases ho : o.IsEngine
  · have hk := Kept.engine ho hr h
    exact ⟨hk.pushed, hk.maxsize⟩
  · obtain ⟨he, hs, -⟩ := Extended.step ho h
    rw [pushed, pushed, he, hs]
    exact ⟨prefix_rfl, rfl⟩

theorem Sound.step (hs : Sound max s) (h : s.step P o = .ok s') : Sound max s' where
  reserved := hs.reserved.step h
  phases := phases_step hs.phases h
  clocked := hs.clocked.step hs.reserved h
  maxsize := (pushed_step hs.reserved h).2.trans hs.maxsize

theorem Sound.init (base len size : ℕ) (max : BitVec 32) :
    Sound max (TxPath.init base len size max) where
  reserved := .init base len size max
  phases := .init base len size
  clocked := .init base len size max
  maxsize := rfl

theorem taken_le (s₀ : TxPath) (h : s.step P o = .ok s') :
    (s₀.taken s).length ≤ (s₀.taken s').length := by
  have hr : s.cache.reads.length ≤ s'.cache.reads.length :=
    Reaches.inv (I := fun c => s.cache.reads.length ≤ c.reads.length)
      (fun _ _ _ hs h => hs.trans (DescCache.reads_le_step h)) le_rfl (cache_reaches h)
  simp only [taken, length_append, length_map, length_drop]
  omega

end TxPath

namespace TsoJob

variable {P : NicParams} {j : TsoJob P} {s₀ s s' : TxPath} {rest : List TxDesc} {w : ℕ}
  {max : BitVec 32} {o : Op}

theorem Stage.wireLoop {ws : List Wire} (h : j.Stage s₀ rest s w)
    (hr : Reserved s.toTxEngine s.cache.unusedCache) (h' : s.wireLoop ws = .ok s') :
    j.Stage s₀ rest s' w :=
  (wireLoop_inv (I := fun t => Reserved t.toTxEngine t.cache.unusedCache ∧ j.Stage s₀ rest t w)
    (fun _ _ _ ht _ h => ⟨txWire_cache h ▸ ht.1.txWire h, ht.2.alike (.txWire ht.1.fifo h)⟩) ws
    ⟨hr, h⟩ h').1.2

theorem Done.mono (h : j.Done s₀ s) (hp : s.pushed <+: s'.pushed) : j.Done s₀ s' := by
  obtain ⟨segs, more, hlen, hseg, hpushed⟩ := h
  obtain ⟨more', hmore⟩ := hp
  exact ⟨segs, more ++ more', hlen, hseg, by rw [← hmore, hpushed, append_assoc]⟩

theorem Stage.clock (h : j.Stage s₀ rest s w) (b r : Bool) :
    j.Stage s₀ rest { s with tickEvent := b, rxTick := r } w :=
  h.alike ⟨⟨s.txFifo, rfl⟩, rfl, id, fun _ hq => { hq with }, fun _ h => h, fun _ h => h⟩

/-- The job is at one of its stages, or all of its segments were pushed. -/
def Going (j : TsoJob P) (s₀ : TxPath) (rest : List TxDesc) (s : TxPath) : Prop :=
  (∃ w, j.Stage s₀ rest s w) ∨ j.Done s₀ s

theorem Going.tick {rx : Bool} {ws : List Wire} (h : j.Stage s₀ rest s w) (hs : Sound max s)
    (h' : s.tick P rx ws = .ok s') : j.Going s₀ rest s' := by
  obtain ⟨-, t, u, hsm, hu, rfl⟩ := tick_cases h'
  have hr : Reserved { s with tickEvent := false, rxTick := rx }.toTxEngine s.cache.unusedCache :=
    { hs.reserved with }
  have ht : Reserved t.toTxEngine t.cache.unusedCache
      ∧ ((∃ w', j.Stage s₀ rest t w') ∨ j.Done s₀ t) := by
    rcases hsm with ⟨-, hsm⟩ | ⟨-, rfl⟩
    · refine ⟨hr.txStateMachine hsm, ?_⟩
      rcases ((h.clock false rx).txStateMachine hr hs.phases).result hsm with
        ⟨w', -, hw⟩ | ⟨hw, -⟩ | ⟨hdone, -⟩
      · exact .inl ⟨w', hw⟩
      · exact .inl ⟨w, hw⟩
      · exact .inr hdone
    · exact ⟨hr, .inl ⟨w, h.clock false rx⟩⟩
  rcases ht.2 with ⟨w', hw⟩ | hdone
  · exact .inl ⟨w', (hw.wireLoop ht.1 hu).clock _ _⟩
  · exact .inr (hdone.mono (Kept.wireLoop ht.1 hu).pushed)

theorem Going.step (hpay : 0 < j.payload.length) (hs : Sound max s) (hg : j.Going s₀ rest s)
    (hfeeds : j.Feeds s₀ rest s o) (h : s.step P o = .ok s') : j.Going s₀ rest s' := by
  rcases hg with ⟨w, hw⟩ | hdone
  · by_cases ho : o.IsEngine
    · cases o with
      | tick rx ws => exact .tick hw hs h
      | headerEvent data =>
        obtain ⟨a, len, -, -, hd, -⟩ := headerComplete_cases h
        obtain ⟨w', -, hw'⟩ :=
          (hw.headerComplete hpay hs.reserved hd (hfeeds a len hd)).result h
        exact .inl ⟨w', hw'⟩
      | pktEvent data =>
        obtain ⟨a, len, -, -, -, hd, -⟩ := pktComplete_cases h
        obtain ⟨w', -, hw'⟩ := (hw.pktComplete hs.phases hd (hfeeds a len hd)).result h
        exact .inl ⟨w', hw'⟩
      | _ => exact ho.elim
    · exact .inl ⟨w, hw.alike (.step ho hfeeds h)⟩
  · exact .inr (hdone.mono (pushed_step hs.reserved h).1)

theorem Stage.error_eq {e : Halt} (h : j.Stage s₀ rest s w) (hpay : 0 < j.payload.length)
    (hs : Sound max s) (ho : o.IsEngine) (hfeeds : j.Feeds s₀ rest s o)
    (herr : s.step P o = .error e) : e = .notScheduled := by
  have hcontra : ∀ {x : Except Halt TxPath} {Q : TxPath → Prop}, Ends x Q → x = .error e →
      e = .notScheduled := fun hends hx => by
    obtain ⟨t, ht, -⟩ := hends.exists
    simp [ht] at hx
  cases o with
  | tick rx ws =>
    have herr : s.tick P rx ws = .error e := herr
    rw [TxPath.tick] at herr
    split at herr
    · have hr : Reserved { s with tickEvent := false, rxTick := rx }.toTxEngine s.cache.unusedCache :=
        { hs.reserved with }
      have hsm : Ends (smTick P { s with tickEvent := false, rxTick := rx })
          fun t => Reserved t.toTxEngine t.cache.unusedCache := by
        unfold smTick
        split_ifs
        · obtain ⟨t, ht, -⟩ := ((h.clock false rx).txStateMachine hr hs.phases).exists
          exact .of_ok ht (hr.txStateMachine ht)
        · exact hr
      obtain ⟨t, ht, htr⟩ := hsm.exists
      cases hu : t.wireLoop ws with
      | ok u =>
        simp only [ht, hu, bind, Except.bind] at herr
        cases herr
      | error e' =>
        simp only [ht, hu, bind, Except.bind] at herr
        obtain rfl := Except.error.inj herr
        exact wireLoop_error ws htr hu
    · exact (Except.error.inj herr).symm
  | headerEvent data =>
    have herr : s.headerComplete data = .error e := herr
    rcases hd : s.dma with _ | ⟨a, len⟩ | ⟨a, len⟩
    · simp only [TxPath.headerComplete, hd] at herr
      exact (Except.error.inj herr).symm
    · exact hcontra (h.headerComplete hpay hs.reserved hd (hfeeds a len hd)) herr
    · simp only [TxPath.headerComplete, hd] at herr
      exact (Except.error.inj herr).symm
  | pktEvent data =>
    have herr : s.pktComplete P data = .error e := herr
    rcases hd : s.dma with _ | ⟨a, len⟩ | ⟨a, len⟩
    · simp only [TxPath.pktComplete, hd] at herr
      exact (Except.error.inj herr).symm
    · simp only [TxPath.pktComplete, hd] at herr
      exact (Except.error.inj herr).symm
    · exact hcontra (h.pktComplete hs.phases hd (hfeeds a len hd)) herr
  | _ => exact ho.elim

/-! ### Progress -/

/-- What is left to do: first for the job, then between the device and the wire, and last the state
machine's finding out that it has to wait. -/
def rank (s : TxPath) (w : ℕ) : ℕ ×ₗ ℕ ×ₗ ℕ :=
  toLex (w, toLex (s.txFifo.fifo.length + s.onWire, s.txTick.toNat))

theorem rank_lt {w' : ℕ} (h : w' < w ∨ w' = w
    ∧ (s'.txFifo.fifo.length + s'.onWire < s.txFifo.fifo.length + s.onWire
      ∨ s'.txFifo.fifo.length + s'.onWire = s.txFifo.fifo.length + s.onWire
        ∧ s'.txTick = false ∧ s.txTick = true)) : rank s' w' < rank s w := by
  rw [rank, rank, Prod.Lex.toLex_lt_toLex]
  rcases h with h | ⟨rfl, h⟩
  · exact .inl h
  · refine .inr ⟨rfl, Prod.Lex.toLex_lt_toLex.2 ?_⟩
    rcases h with h | ⟨h, h', ht⟩
    · exact .inl h
    · refine .inr ⟨h, ?_⟩
      show s'.txTick.toNat < s.txTick.toNat
      rw [h', ht]
      decide

/-- The device runs, is enabled and has read the descriptors of the job. -/
structure Live (j : TsoJob P) (max : BitVec 32) (s₀ s : TxPath) : Prop extends Sound max s where
  running : s.drainState = .running
  enabled : s.en = true
  read : j.descs.length + 1 ≤ (s₀.taken s).length

theorem Live.step (hs : j.Live max s₀ s) (ho : o.IsEngine ∨ o = .ethTxDone)
    (h : s.step P o = .ok s') : j.Live max s₀ s' := by
  have hk : s'.drainState = s.drainState ∧ s'.tctl = s.tctl := by
    rcases ho with ho | rfl
    · have hk := Kept.engine ho hs.reserved h
      exact ⟨hk.drainState, hk.tctl⟩
    · unfold TxPath.step at h
      split_ifs at h
      cases h
      have hf := Framed.restartClock (TxPath.ethTxDone { s with onWire := s.onWire - 1 })
      exact ⟨hf.drainState, hf.tctl⟩
  refine ⟨hs.toSound.step h, hk.1.trans hs.running, ?_, hs.read.trans (taken_le s₀ h)⟩
  rw [en, hk.2]
  exact hs.enabled

theorem Stage.stalled (h : j.Stage s₀ rest s w) (hs : j.Live max s₀ s)
    (hcap : j.header.length + j.mss < max.toNat) (hd : s.dma = none) (ht : s.txTick = false) :
    s.txFifo.fifo ≠ [] ∨ s.onWire ≠ 0 := by
  obtain ⟨d, ds, hds, -⟩ := j.descs_ne_nil
  have hawake : ∀ {cur}, j.Queue s₀ rest s cur → rest.length < cur.length → j.Awake s →
      s.txFifo.fifo ≠ [] ∨ s.onWire ≠ 0 := fun hq hcur ha => by
    have hne := hq.unused_ne_nil hcur hs.read
    rcases ha (by rw [hs.maxsize]; exact hcap) hs.running hs.enabled hne with h | h
    · simp [ht] at h
    · exact h
  cases h with
  | waiting he hq ho ha => exact hawake hq (by simp [posted]) ha
  | context he hd hq ho ha => exact hawake hq (by simp [hds]) ha
  | header he hds' hd' => rw [hd] at hd'; cases hd'
  | gathering he hr hq ho ha => exact hawake hq (by simp) ha
  | fetching he => rw [he.dma] at hd; cases hd
  | pending he hr hq ho ha | last he hk ho ha => rw [ha hs.running hs.enabled] at ht; cases ht

theorem tick_ok {t u : TxPath} {ws : List Wire} (he : s.tickEvent = true)
    (hsm : smTick P { s with tickEvent := false, rxTick := false } = .ok t)
    (hu : t.wireLoop ws = .ok u) : s.step P (.tick false ws)
      = .ok { u with tickEvent := u.rxTick || u.txTick || u.txFifoTick } := by
  show s.tick P false ws = _
  rw [tick, if_pos he]
  exact bind_ok.2 ⟨t, hsm, bind_ok.2 ⟨u, hu, rfl⟩⟩

def Sent (j : TsoJob P) (s₀ s : TxPath) : Prop := s₀.pushed.length + j.count ≤ s.sent.length

theorem Done.sent (h : j.Done s₀ s) (hs : s'.sent = s.pushed) : j.Sent s₀ s' := by
  obtain ⟨segs, more, hlen, -, hpushed⟩ := h
  rw [Sent, hs, hpushed]
  simp only [length_append]
  omega

theorem Stage.tick (h : j.Stage s₀ rest s w) (hs : j.Live max s₀ s) (ht : s.txTick = true) :
    ∃ ws s', s.step P (.tick false ws) = .ok s'
      ∧ (j.Sent s₀ s' ∨ ∃ w', rank s' w' < rank s w ∧ j.Stage s₀ rest s' w') := by
  have he := hs.clocked.clock hs.running (.inl ht)
  have hr : Reserved { s with tickEvent := false, rxTick := false }.toTxEngine s.cache.unusedCache :=
    { hs.reserved with }
  obtain ⟨t, hsm, hmoved⟩ := ((h.clock false false).txStateMachine hr hs.phases).exists
  have hrt := hr.txStateMachine hsm
  have hrun : t.drainState = .running := (Kept.txStateMachine hsm).drainState.trans hs.running
  have hsm' : smTick P { s with tickEvent := false, rxTick := false } = .ok t := (if_pos ht).trans hsm
  by_cases hf : t.txFifoTick = true
  · obtain ⟨ws, u, hu, hflush⟩ := flush _ rfl hrt.fifo hrun hf
    refine ⟨ws, _, tick_ok he hsm' hu, ?_⟩
    rcases hmoved with ⟨w', hlt, hw⟩ | ⟨hw, hstill, htick⟩ | ⟨hdone, -⟩
    · exact .inr ⟨w', rank_lt (.inl hlt), (hw.wireLoop hrt hu).clock _ _⟩
    · refine .inr ⟨w, rank_lt (.inr ⟨rfl, ?_⟩), (hw.wireLoop hrt hu).clock _ _⟩
      show u.txFifo.fifo.length + u.onWire < s.txFifo.fifo.length + s.onWire
        ∨ u.txFifo.fifo.length + u.onWire = s.txFifo.fifo.length + s.onWire
          ∧ u.txTick = false ∧ s.txTick = true
      have hfifo : t.txFifo.fifo = s.txFifo.fifo := hstill.fifo
      rw [hflush.fifo, hflush.onWire, hstill.onWire]
      by_cases hnil : s.txFifo.fifo = []
      · rw [hnil]
        exact .inr ⟨rfl, (hflush.txTick (hfifo.trans hnil)).trans htick, ht⟩
      · have hpos := length_pos_iff.2 hnil
        refine .inl ?_
        show 0 + s.onWire < _
        omega
    · exact .inl (hdone.sent hflush.sent)
  · have hf := Bool.eq_false_iff.2 hf
    have hu : t.wireLoop [] = .ok t := if_neg (by rw [hf]; exact Bool.false_ne_true)
    refine ⟨[], _, tick_ok he hsm' hu, ?_⟩
    rcases hmoved with ⟨w', hlt, hw⟩ | ⟨hw, hstill, htick⟩ | ⟨-, hfifo⟩
    · exact .inr ⟨w', rank_lt (.inl hlt), hw.clock _ _⟩
    · refine .inr ⟨w, rank_lt (.inr ⟨rfl, .inr ⟨?_, htick, ht⟩⟩), hw.clock _ _⟩
      show t.txFifo.fifo.length + t.onWire = _
      rw [hstill.fifo, hstill.onWire]
    · simp [hfifo (by rw [hrun]; exact DrainState.noConfusion)] at hf

theorem Stage.advance (h : j.Stage s₀ rest s w) (hpay : 0 < j.payload.length) (hs : j.Live max s₀ s)
    (hcap : j.header.length + j.mss < max.toNat) :
    ∃ o, (o.IsEngine ∨ o = .ethTxDone) ∧ j.Feeds s₀ rest s o ∧ ∃ s', s.step P o = .ok s'
      ∧ (j.Sent s₀ s' ∨ ∃ w', rank s' w' < rank s w ∧ j.Stage s₀ rest s' w') := by
  rcases hd : s.dma with _ | ⟨a, len⟩ | ⟨a, len⟩
  · by_cases ht : s.txTick = true
    · obtain ⟨ws, s', hstep, hgoal⟩ := h.tick hs ht
      exact ⟨.tick false ws, .inl trivial, trivial, s', hstep, hgoal⟩
    have ht := Bool.eq_false_iff.2 ht
    by_cases hw : s.onWire = 0
    · have hf : s.txFifo.fifo ≠ [] :=
        (h.stalled hs hcap hd ht).resolve_right (not_not.2 hw)
      have htick : s.txFifoTick = true :=
        (hs.clocked.fifo hs.running hf).resolve_right (not_not.2 hw)
      obtain ⟨ws, u, hu, hflush⟩ := flush _ rfl
        (s := { s with tickEvent := false, rxTick := false }) hs.reserved.fifo hs.running htick
      have hsm : smTick P { s with tickEvent := false, rxTick := false }
          = .ok { s with tickEvent := false, rxTick := false } :=
        if_neg (by rw [ht]; exact Bool.false_ne_true)
      have he := hs.clocked.clock hs.running (.inr htick)
      refine ⟨.tick false ws, .inl trivial, trivial, _, tick_ok he hsm hu, .inr ⟨w, rank_lt (.inr
        ⟨rfl, .inl ?_⟩), ((h.clock false false).wireLoop { hs.reserved with } hu).clock _ _⟩⟩
      have hpos := length_pos_iff.2 hf
      show u.txFifo.fifo.length + u.onWire < _
      rw [hflush.fifo, hflush.onWire]
      show 0 + s.onWire < _
      omega
    · have hstep : s.step P .ethTxDone
          = .ok (TxPath.ethTxDone { s with onWire := s.onWire - 1 }).restartClock := if_neg hw
      have hf := Framed.restartClock (TxPath.ethTxDone { s with onWire := s.onWire - 1 })
      have hfifo : (TxPath.ethTxDone { s with onWire := s.onWire - 1 }).restartClock.txFifo
          = s.txFifo := congrArg TxEngine.txFifo hf.engine
      have hwire : (TxPath.ethTxDone { s with onWire := s.onWire - 1 }).restartClock.onWire
          = s.onWire - 1 := hf.onWire
      refine ⟨.ethTxDone, .inr rfl, trivial, _, hstep, .inr ⟨w, rank_lt (.inr ⟨rfl, .inl ?_⟩),
        h.alike (.step (o := .ethTxDone) id trivial hstep)⟩⟩
      rw [hfifo, hwire]
      omega
  · obtain ⟨s', hstep, w', hlt, hw'⟩ := (h.headerComplete hpay hs.reserved hd rfl).exists
    refine ⟨.headerEvent (readMem j.mem a len), .inl trivial, fun a' len' hd' => ?_, s', hstep,
      .inr ⟨w', rank_lt (.inl hlt), hw'⟩⟩
    obtain ⟨rfl, rfl⟩ := TxDma.header.inj (Option.some.inj (hd.symm.trans hd'))
    rfl
  · obtain ⟨s', hstep, w', hlt, hw'⟩ := (h.pktComplete hs.phases hd rfl).exists
    refine ⟨.pktEvent (readMem j.mem a len), .inl trivial, fun a' len' hd' => ?_, s', hstep,
      .inr ⟨w', rank_lt (.inl hlt), hw'⟩⟩
    obtain ⟨rfl, rfl⟩ := TxDma.packet.inj (Option.some.inj (hd.symm.trans hd'))
    rfl

theorem Stage.progress (h : j.Stage s₀ rest s w) (hpay : 0 < j.payload.length)
    (hs : j.Live max s₀ s) (hcap : j.header.length + j.mss < max.toNat) :
    ∃ ops t, (∀ o ∈ ops, o.IsEngine ∨ o = .ethTxDone)
      ∧ Admits (TxPath.step P) (j.Feeds s₀ rest) s ops
      ∧ run (TxPath.step P) s ops = .ok t ∧ j.Sent s₀ t := by
  refine run_of_rank (I := fun s r => j.Live max s₀ s ∧ ∃ w, r = rank s w ∧ j.Stage s₀ rest s w)
    (fun s r hI => ?_) ⟨hs, w, rfl, h⟩
  obtain ⟨hlive, w, rfl, hstage⟩ := hI
  obtain ⟨o, ho, hfeeds, s', hstep, hgoal⟩ := hstage.advance hpay hlive hcap
  refine ⟨o, ho, hfeeds, s', hstep, ?_⟩
  rcases hgoal with hgoal | ⟨w', hlt, hw'⟩
  · exact .inl hgoal
  · exact .inr ⟨_, hlt, hlive.step ho hstep, w', rfl, hw'⟩

/-! ### The segments -/

theorem lt_count {k : ℕ} : k < j.count ↔ k * j.mss < j.payload.length := by
  have hm : 0 < j.mss := j.mss_pos
  rw [count, Nat.lt_div_iff_mul_lt hm]
  omega

theorem length_chunk {k : ℕ} (h : k < j.count) :
    0 < (j.chunk k).length ∧ (j.chunk k).length ≤ j.mss := by
  have hm : 0 < j.mss := j.mss_pos
  rw [lt_count] at h
  rw [chunk, slice, length_take, length_drop]
  omega

theorem length_chunk_of_lt {k : ℕ} (h : k + 1 < j.count) : (j.chunk k).length = j.mss := by
  rw [lt_count, Nat.add_mul, Nat.one_mul] at h
  rw [chunk, length_slice (by omega)]

theorem flatMap_payload {segs : List EthPacket} (hlen : segs.length = j.count)
    (hseg : ∀ i p, segs[i]? = some p → j.IsSegment i p) :
    segs.flatMap (fun p => p.data.drop j.header.length) = j.payload := by
  have hmap : segs.map (fun p => p.data.drop j.header.length) = (List.range j.count).map j.chunk := by
    refine ext_getElem? fun i => ?_
    rw [getElem?_map, getElem?_map]
    rcases Nat.lt_or_ge i segs.length with hlt | hge
    · rw [getElem?_range (by omega), getElem?_eq_getElem hlt]
      exact congrArg some (hseg i _ (getElem?_eq_getElem hlt)).payload
    · rw [getElem?_eq_none hge, getElem?_eq_none (by rw [length_range]; omega)]
      rfl
  have hcount : j.payload.length ≤ j.count * j.mss := by
    by_contra hlt
    have := lt_count.2 (not_le.1 hlt)
    omega
  rw [flatMap_def, hmap, ← flatMap_def]
  have h := flatMap_slice j.payload j.mss j.count
  rwa [take_of_length_le hcount] at h

theorem Stage.out (h : j.Stage s₀ rest s w) (hpay : 0 < j.payload.length) :
    ∃ k < j.count, j.Out s₀ s k := by
  have hm : 0 < j.mss := j.mss_pos
  have h0 : 0 < j.count := lt_count.2 (by rw [Nat.zero_mul]; exact hpay)
  cases h with
  | waiting he hq ho ha | context he hd hq ho ha | header he hds hd hu hq ho => exact ⟨0, h0, ho⟩
  | @gathering k fill d todo he hr hq ho ha | @fetching k fill off d todo he hr hu hq ho =>
    have hpos := hr.pos_lt
    exact ⟨k, lt_count.2 (by omega), ho⟩
  | @pending k d todo he hr hq ho ha =>
    have hpos := lt_count.2 hr.pos_lt
    exact ⟨k, by omega, ho⟩
  | @last k he hk ho ha => exact ⟨k, by omega, ho⟩

theorem Going.start (hs : Sound max s₀) (hidle : s₀.Idle P)
    (hfirst : s₀.cache.unusedCache.map Cached.desc <+: j.posted rest) : j.Going s₀ rest s₀ := by
  have htaken : s₀.taken s₀ = s₀.cache.unusedCache.map Cached.desc := by simp [taken]
  have hlen : (j.posted rest).take s₀.cache.unusedCache.length
      = s₀.cache.unusedCache.map Cached.desc := by
    rw [prefix_iff_eq_take] at hfirst
    rw [hfirst]
    simp
  refine .inl ⟨_, .waiting ⟨hidle.useTso, ?_, hidle.done, hidle.packet⟩ ⟨le_rfl, ⟨[], rfl, ?_⟩, ?_⟩
    ⟨[], rfl, by simp, by simp⟩ fun _ hd hen hne => .inl (hidle.ticks hne hd hen)⟩
  · exact hs.reserved.dma_of_not_waiting hidle.waiting
  · rw [htaken, hlen]
    rfl
  · rw [hlen, map_map]
    rfl

/-- From a state between two packets on, the segments of a job are pushed in order and nothing else
before the last of them. They carry the payload between them, all but the last of them `mss` bytes.
Until they are pushed nothing fails that can happen to the packet, and once the descriptors are read
and unless the FIFO is too small, the device and the link go on until they are on the wire. -/
theorem segments_sent (j : TsoJob P) {base len size : ℕ} {max : BitVec 32} {ops₀ ops : List Op}
    {s₀ s : TxPath} {rest : List TxDesc}
    (h₀ : run (TxPath.step P) (TxPath.init base len size max) ops₀ = .ok s₀) (hidle : s₀.Idle P)
    (hfirst : s₀.cache.unusedCache.map Cached.desc <+: j.posted rest)
    (hfeeds : Admits (TxPath.step P) (j.Feeds s₀ rest) s₀ ops)
    (h : run (TxPath.step P) s₀ ops = .ok s) :
    (∃ segs more, s.pushed = s₀.pushed ++ segs ++ more
      ∧ (∀ k p, segs[k]? = some p → j.IsSegment k p)
      ∧ (segs.length = j.count ∧ segs.flatMap (fun p => p.data.drop j.header.length) = j.payload
        ∨ segs.length < j.count ∧ more = []
          ∧ (∀ o e, o.IsEngine → j.Feeds s₀ rest s o → s.step P o = .error e → e = .notScheduled)
          ∧ (s.drainState = .running → s.en = true → j.descs.length + 1 ≤ (s₀.taken s).length →
              j.header.length + j.mss < max.toNat →
              ∃ ops' t, (∀ o ∈ ops', o.IsEngine ∨ o = .ethTxDone)
                ∧ Admits (TxPath.step P) (j.Feeds s₀ rest) s ops'
                ∧ run (TxPath.step P) s ops' = .ok t ∧ j.Sent s₀ t)))
    ∧ (∀ k, k + 1 < j.count → (j.chunk k).length = j.mss)
    ∧ ∀ k < j.count, 0 < (j.chunk k).length ∧ (j.chunk k).length ≤ j.mss := by
  refine ⟨?_, fun k hk => length_chunk_of_lt hk, fun k hk => length_chunk hk⟩
  have hsound₀ : Sound max s₀ := run_inv (fun _ _ _ hs h => hs.step h) (.init base len size max) h₀
  rcases Nat.eq_zero_or_pos j.payload.length with hpay | hpay
  · have hcount : j.count = 0 := by
      by_contra hne
      have := lt_count.1 (Nat.pos_of_ne_zero hne)
      omega
    have hpre : s₀.pushed <+: s.pushed :=
      (run_inv (I := fun t => Sound max t ∧ s₀.pushed <+: t.pushed)
        (fun _ _ _ ht h => ⟨ht.1.step h, ht.2.trans (pushed_step ht.1.reserved h).1⟩)
        ⟨hsound₀, prefix_rfl⟩ h).2
    obtain ⟨more, hmore⟩ := hpre
    exact ⟨[], more, by rw [append_nil, hmore], by simp, .inl ⟨hcount.symm, by
      rw [flatMap_nil, length_eq_zero_iff.1 hpay]⟩⟩
  obtain ⟨hsound, hgoing⟩ := Admits.inv (I := fun t => Sound max t ∧ j.Going s₀ rest t)
    (fun _ _ _ ht hC h => ⟨ht.1.step h, ht.2.step hpay ht.1 hC h⟩) hfeeds
    ⟨hsound₀, .start hsound₀ hidle hfirst⟩ h
  rcases hgoing with ⟨w, hw⟩ | ⟨segs, more, hlen, hseg, hpushed⟩
  · obtain ⟨k, hk, segs, rfl, hseg, hpushed⟩ := hw.out hpay
    refine ⟨segs, [], by rw [append_nil, hpushed], hseg, .inr ⟨hk, rfl, ?_, ?_⟩⟩
    · intro o e ho hf herr
      exact hw.error_eq hpay hsound ho hf herr
    · intro hrun hen hread hcap
      exact hw.progress hpay ⟨hsound, hrun, hen, hread⟩ hcap
  · exact ⟨segs, more, hpushed, hseg, .inl ⟨hlen, flatMap_payload hlen hseg⟩⟩

/-- Ethernet, IP and TCP headers, the last with FIN, PSH and ACK. -/
def tinyHeader : List Byte :=
  List.replicate 12 0
    ++ [8, 0, 0x45, 0, 0, 0, 0, 7, 0, 0, 64, 6, 0, 0, 10, 0, 0, 1, 10, 0, 0, 2]
    ++ [0, 80, 0, 81, 0, 0, 0, 100, 0, 0, 0, 0, 0x50, 0x19, 0, 0, 0, 0, 0, 0]

def tinyPayload : List Byte := [1, 2, 3, 4, 5, 6]

def tinyMem (a : ℕ) : Byte := (tinyHeader ++ tinyPayload).getD a 0

/-- A context descriptor with TSE, for a header of 54 bytes and 6 bytes in segments of 4. -/
def tinyContext : TxDesc := ⟨0, 0x0004360024000006⟩

def tinyDescs : List TxDesc := [⟨0, 0x20100038⟩, ⟨56, 0x21100004⟩]

theorem tinyHeader_tcp :
    Inet.HasTcp tinyHeader (Inet.ethSize tinyHeader) (Inet.Ip.pstart tinyHeader) :=
  ⟨by decide, by decide, rfl, rfl, by decide, by decide⟩

def tinyJob : TsoJob smallParams where
  mem := tinyMem
  context := tinyContext
  descs := tinyDescs
  header := tinyHeader
  payload := tinyPayload
  isContext := by decide
  type := by decide
  tse := by decide
  hdrlen := by decide
  paylen := by decide
  mss_pos := by decide
  isData := by decide
  nonempty := by decide
  noVlan := by decide
  first := by decide
  data := by decide
  fits := by decide
  tcp := tinyHeader_tcp

def tinyOps : List Op :=
  [.writeTdt 3, .fetchDelayEvent, .fetchEvent (tinyContext :: tinyDescs), .tick false [],
    .headerEvent tinyHeader]

theorem segments_sent_tinyOps : ∃ s₀ s,
    run (TxPath.step smallParams) (TxPath.init 4096 8 8 100) [.writeTctl 2] = .ok s₀
    ∧ run (TxPath.step smallParams) s₀ tinyOps = .ok s
    ∧ ∃ ops t, run (TxPath.step smallParams) s ops = .ok t ∧ tinyJob.Sent s₀ t := by
  set s₀ : TxPath := (TxPath.init 4096 8 8 100).writeTctl 2 with hs₀
  have h₀ : run (TxPath.step smallParams) (TxPath.init 4096 8 8 100) [.writeTctl 2] = .ok s₀ := rfl
  have hidle : s₀.Idle smallParams :=
    ⟨rfl, rfl, rfl, fun _ hp => absurd hp (Option.not_mem_none _), fun hne => absurd rfl hne⟩
  have hfeeds : Admits (TxPath.step smallParams) (tinyJob.Feeds s₀ []) s₀ tinyOps := by
    rw [hs₀]
    decide
  have hend : Ends (run (TxPath.step smallParams) s₀ tinyOps) fun s =>
      s.pushed = [] ∧ s.drainState = .running ∧ s.en = true ∧ 3 ≤ (s₀.taken s).length := by
    rw [hs₀]
    decide
  obtain ⟨s, hs, hpushed, hrun, hen, htaken⟩ := hend.exists
  obtain ⟨⟨segs, more, hp, -, ⟨hlen, -⟩ | ⟨-, -, -, hprogress⟩⟩, -⟩ :=
    segments_sent tinyJob h₀ hidle (List.nil_prefix : [] <+: tinyJob.posted []) hfeeds hs
  · rw [hpushed] at hp
    have hnil : segs = [] := by
      have h := (append_eq_nil_iff.1 hp.symm).1
      exact (append_eq_nil_iff.1 h).2
    rw [hnil] at hlen
    exact absurd hlen (by decide)
  · obtain ⟨ops, t, -, -, ht, hsent⟩ := hprogress hrun hen htaken (by decide)
    exact ⟨s₀, s, h₀, hs, ops, t, ht, hsent⟩

/-- The same header and payload with the header in two descriptors. -/
def headerSplit : List TxDesc := [⟨0, 0x20100014⟩, ⟨20, 0x21100028⟩]

def headerSplitOps : List Op :=
  [.writeTctl 2, .writeTdt 3, .fetchDelayEvent, .fetchEvent (tinyContext :: headerSplit),
    .tick false []]

/-- A header that is not whole in the first data descriptor stops the simulation. -/
theorem header_split_fails :
    headerSplit.flatMap (fun d => readMem tinyMem d.getBuf d.getLen) = tinyHeader ++ tinyPayload
      ∧ (∀ d ∈ headerSplit, d.isData = true ∧ 0 < d.getLen ∧ d.vle = false)
      ∧ run (TxPath.step smallParams) (TxPath.init 4096 8 8 100) headerSplitOps
        = .error (.assertion "txd_op::isData(desc) && txd_op::getLen(desc) >= tsoHeaderLen") := by
  refine ⟨by decide, by decide, ?_⟩
  decide

end TsoJob

end Gem5
