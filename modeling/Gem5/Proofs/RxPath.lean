import Gem5.Proofs.Engines
import Gem5.RxPath

/-!
# What the steps of the receive path do

Each function of the receive path has one lemma that lists its outcomes. Interrupts, timers,
write-backs and fetches leave the packets and the unused descriptors alone (`Framed`), so that what
is said of packets is said of `RxEngine`.
-/

namespace Gem5

namespace RxPath

open Bytes Machine

variable {P : NicParams} {s s' t : RxPath} {p : EthPacket} {c : Cached RxDesc}
  {rest : List (Cached RxDesc)}

/-- The packets, the registers and the unused descriptors are left alone. -/
structure Framed (s s' : RxPath) : Prop where
  engine : s'.toRxEngine = s.toRxEngine
  regs : s'.toRxRegs = s.toRxRegs
  cache : s.cache.Serviced s'.cache
  drainState : s'.drainState = s.drainState

namespace Framed

theorem of_cache_eq (he : s'.toRxEngine = s.toRxEngine) (hr : s'.toRxRegs = s.toRxRegs)
    (hc : s'.cache = s.cache) (hd : s'.drainState = s.drainState) : Framed s s' :=
  ⟨he, hr, hc ▸ .refl _, hd⟩

theorem refl (s : RxPath) : Framed s s := of_cache_eq rfl rfl rfl rfl

theorem trans (h : Framed s s') (h' : Framed s' t) : Framed s t where
  engine := h'.engine.trans h.engine
  regs := h'.regs.trans h.regs
  cache := h.cache.trans h'.cache
  drainState := h'.drainState.trans h.drainState

theorem restartClock (s : RxPath) : Framed s s.restartClock := by
  unfold RxPath.restartClock
  split_ifs
  · exact of_cache_eq rfl rfl rfl rfl
  · exact .refl s

theorem checkDrain (s : RxPath) : Framed s s.checkDrain := by
  unfold RxPath.checkDrain
  split_ifs
  · exact of_cache_eq rfl rfl rfl rfl
  · exact .refl s

end Framed

/-- And the state machines tick as before. -/
structure Quiet (s s' : RxPath) : Prop extends Framed s s' where
  rxTick : s'.rxTick = s.rxTick
  tickEvent : s'.tickEvent = s.tickEvent

namespace Quiet

theorem refl (s : RxPath) : Quiet s s := ⟨.refl s, rfl, rfl⟩

theorem trans (h : Quiet s s') (h' : Quiet s' t) : Quiet s t where
  toFramed := h.toFramed.trans h'.toFramed
  rxTick := h'.rxTick.trans h.rxTick
  tickEvent := h'.tickEvent.trans h.tickEvent

theorem of_intr (s : RxPath) (i : Intr) : Quiet s { s with intr := i } :=
  ⟨.of_cache_eq rfl rfl rfl rfl, rfl, rfl⟩

theorem writeback {a : BitVec 64} (h : s.writeback a = .ok s') : Quiet s s' := by
  obtain ⟨c, hc, rfl⟩ := bind_pure_ok.1 h
  exact ⟨⟨rfl, rfl, .writeback hc, rfl⟩, rfl, rfl⟩

theorem writebackIf {b : Prop} [Decidable b] {a : BitVec 64} (h : s.writebackIf b a = .ok s') :
    Quiet s s' := by
  unfold RxPath.writebackIf at h
  split_ifs at h
  · exact writeback h
  · cases h
    exact .refl s

theorem fetchDescriptors (h : s.fetchDescriptors = .ok s') : Quiet s s' := by
  obtain ⟨c, hc, rfl⟩ := bind_pure_ok.1 h
  exact ⟨⟨rfl, rfl, .fetchDescriptors hc, rfl⟩, rfl, rfl⟩

theorem prefetch (h : s.prefetch = .ok s') : Quiet s s' := by
  unfold RxPath.prefetch at h
  split_ifs at h
  · exact fetchDescriptors h
  · cases h
    exact .refl s

theorem writebackThresh (h : s.writebackThresh P = .ok s') : Quiet s s' := by
  obtain ⟨_, -, h⟩ := bind_ok.1 h
  split_ifs at h
  · exact writeback h
  · exact writeback h
  · cases h
    exact .refl s

theorem timer {i : Intr.Timer} (h : s.timer P i = .ok s') : Quiet s s' := by
  have hok : ∀ {x : Intr.Timer}, (do
      let s ← s.writeback 0
      let intr ← s.intr.fireTimer P.ns x
      return { s with intr := intr }) = .ok s' → Quiet s s' := fun h => by
    obtain ⟨t, ht, h⟩ := bind_ok.1 h
    obtain ⟨i, -, rfl⟩ := bind_pure_ok.1 h
    exact (writeback ht).trans (of_intr t i)
  cases i with
  | rdtr | radv => exact hok h
  | tadv | tidv => cases h

end Quiet

/-- The state machine is set ticking, unless the device drains, and nothing else happens. -/
structure Woken (s s' : RxPath) : Prop where
  engine : s'.toRxEngine = s.toRxEngine
  regs : s'.toRxRegs = s.toRxRegs
  cache : s'.cache = s.cache
  drainState : s'.drainState = s.drainState
  rxTick : s.drainState ≠ .draining → s'.rxTick = true
  tickEvent : s.drainState = .running → s'.tickEvent = true

namespace Woken

theorem enableSm (h : s.drainState ≠ .draining) : Woken s s.enableSm := by
  have he : s.enableSm = RxPath.restartClock { s with rxTick := true } := if_neg h
  rw [he]
  unfold RxPath.restartClock
  split_ifs with hc
  · exact ⟨rfl, rfl, rfl, rfl, fun _ => rfl, fun _ => rfl⟩
  · exact ⟨rfl, rfl, rfl, rfl, fun _ => rfl, fun hr => absurd ⟨.inl rfl, hr⟩ hc⟩

theorem checkDrain (h : s.drainState = .draining) : Woken s s.checkDrain := by
  have hc : s.checkDrain = { s with txTick := false, rxTick := false } := if_pos h
  rw [hc]
  exact ⟨rfl, rfl, rfl, rfl, fun hd => absurd h hd, fun hr => by rw [h] at hr; cases hr⟩

theorem enableSm_checkDrain (s : RxPath) : Woken s s.enableSm.checkDrain := by
  by_cases hd : s.drainState = .draining
  · have he : s.enableSm = s := if_pos hd
    rw [he]
    exact checkDrain hd
  · have hw := enableSm hd
    have hc : s.enableSm.checkDrain = s.enableSm := if_neg (by rw [hw.drainState]; exact hd)
    rwa [hc]

theorem checkDrain_enableSm (s : RxPath) : Woken s s.checkDrain.enableSm := by
  by_cases hd : s.drainState = .draining
  · have hw := checkDrain hd
    have he : s.checkDrain.enableSm = s.checkDrain := if_pos (hw.drainState.trans hd)
    rwa [he]
  · have hc : s.checkDrain = s := if_neg hd
    rw [hc]
    exact enableSm hd

end Woken

/-! ### Writing a packet -/

theorem length_bytesAt (p : EthPacket) (off n : ℕ) : (bytesAt p off n).length = n := by
  simp [bytesAt]

theorem bytesAt_eq {off n : ℕ} (h : off + n ≤ p.length) :
    bytesAt p off n = (p.data.drop off).take n := by
  have hlen : off + n ≤ p.data.length := h
  refine List.ext_getElem ?_ fun i hi _ => ?_
  · simp [bytesAt]
    omega
  · rw [length_bytesAt] at hi
    have hlt : off + i < p.data.length := by omega
    simp [bytesAt, List.getD_eq_getElem?_getD, hlt]

/-- The outcomes of `writePacket` for the descriptor `c`: the DMAs started and `bytesCopied`. -/
inductive Wrote (s : RxPath) (p : EthPacket) (c : Cached RxDesc) : List RxWrite → ℕ → Prop
  | whole {room : ℕ} (htype : s.rxType = some .legacy ∧ room = s.descSize
        ∨ s.rxType = some .advOnebuf ∧ room = s.bufLen)
      (hoff : s.pktOffset = 0) (hlt : p.length < room) :
      Wrote s p c [⟨c.seq, .pkt, c.desc.pkt, bytesAt p 0 p.length, room⟩] p.length
  | header (htype : s.rxType = some .advSplitA) (hoff : s.pktOffset = 0)
      (hle : p.length ≤ s.hdrLen) :
      Wrote s p c [⟨c.seq, .pkt, c.desc.hdr, bytesAt p 0 p.length, s.hdrLen⟩] p.length
  | more (htype : s.rxType = some .advSplitA) (hoff : s.pktOffset ≠ 0) :
      Wrote s p c [⟨c.seq, .pkt, c.desc.pkt,
          bytesAt p s.pktOffset (min (sub32 p.length s.pktOffset) s.bufLen), s.bufLen⟩]
        (s.bytesCopied + min (sub32 p.length s.pktOffset) s.bufLen)
  | split {sp : ℕ} (htype : s.rxType = some .advSplitA) (hoff : s.pktOffset = 0)
      (hlt : s.hdrLen < p.length) (hsplit : Inet.hsplit p.data = .ok sp) (hpos : sp ≠ 0) :
      Wrote s p c [⟨c.seq, .hdr, c.desc.hdr, bytesAt p 0 sp, s.hdrLen⟩,
          ⟨c.seq, .data, c.desc.pkt,
            bytesAt p sp (min (sub32 p.length sp) s.bufLen), s.bufLen⟩]
        (s.bytesCopied + (min (sub32 p.length sp) s.bufLen + sp))

/-- The path once DMAs are started for the first unused descriptor, which is now `c'`. -/
def started (s : RxPath) (p : EthPacket) (c' : Cached RxDesc) (rest : List (Cached RxDesc))
    (ws : List RxWrite) (n : ℕ) : RxPath :=
  { s with
    pktPtr := some p
    pktDone := false
    cache := { s.cache with unusedCache := c' :: rest }
    bytesCopied := n
    dma := s.dma ++ ws
    issued := s.issued ++ ws
    parts := s.parts ++ ws }

theorem start_cases {ws : List RxWrite} {n : ℕ} {f : RxDesc → RxDesc}
    (hu : s.cache.unusedCache = c :: rest)
    (h : start { s with pktPtr := some p, pktDone := false } ws n f = .ok s') :
    s' = s.started p { c with desc := f c.desc } rest ws n := by
  obtain ⟨cache, hc, rfl⟩ := bind_pure_ok.1 h
  obtain ⟨c', rest', hu', rfl⟩ := DescCache.modifyDesc_cases hc
  obtain ⟨rfl, rfl⟩ := List.cons.inj (hu.symm.trans hu')
  rfl

theorem writeSplit_cases (hu : s.cache.unusedCache = c :: rest)
    (htype : s.rxType = some .advSplitA)
    (h : writeSplit { s with pktPtr := some p, pktDone := false } p c = .ok s') :
    ∃ (f : RxDesc → RxDesc) (ws : List RxWrite) (n : ℕ), Wrote s p c ws n
      ∧ s' = s.started p { c with desc := f c.desc } rest ws n := by
  obtain ⟨sp, hsp, h⟩ := bind_ok.1 h
  split at h
  · rename_i hle
    obtain ⟨_, hoff, h⟩ := bind_ok.1 h
    rw [require_ok] at hoff
    exact ⟨_, _, _, .header htype hoff hle, start_cases hu h⟩
  · rename_i hlt
    split at h
    · rename_i hpos
      split at h
      · rename_i hoff
        exact ⟨_, _, _, .more htype hoff, start_cases hu h⟩
      · rename_i hoff
        exact ⟨_, _, _, .split htype (not_not.1 hoff) (not_le.1 hlt) hsp hpos, start_cases hu h⟩
    · cases h

theorem writePacket_cases (h : s.writePacket p = .ok s') :
    ∃ (c : Cached RxDesc) (rest : List (Cached RxDesc)) (f : RxDesc → RxDesc)
      (ws : List RxWrite) (n : ℕ), s.cache.unusedCache = c :: rest ∧ Wrote s p c ws n
      ∧ s' = s.started p { c with desc := f c.desc } rest ws n := by
  unfold writePacket at h
  split at h
  · cases h
  · rename_i c rest hu
    refine ⟨c, rest, ?_⟩
    simp only [] at h
    split at h
    · rename_i htype
      simp only [bind_ok, require_ok] at h
      obtain ⟨-, hoff, -, hlt, h⟩ := h
      exact ⟨_, _, _, hu, .whole (.inl ⟨htype, rfl⟩) hoff hlt, start_cases hu h⟩
    · rename_i htype
      simp only [bind_ok, require_ok] at h
      obtain ⟨-, hoff, -, hlt, h⟩ := h
      exact ⟨_, _, _, hu, .whole (.inr ⟨htype, rfl⟩) hoff hlt, start_cases hu h⟩
    · rename_i htype
      obtain ⟨f, ws, n, hw, h⟩ := writeSplit_cases hu htype h
      exact ⟨f, ws, n, hu, hw, h⟩
    · cases h

theorem sendFront_cases (h : s.sendFront = .ok s') :
    ∃ p t, s.rxFifo.front = .ok p ∧ s.writePacket p = .ok t
      ∧ ((t.bytesCopied = p.length ∧ ∃ q, t.rxFifo.pop = .ok q ∧ s' = { t with
          pktOffset := 0
          rxFifo := q
          parts := []
          delivered := t.delivered ++ [(p, t.parts)]
          rxTick := false
          rxDmaPacket := true })
        ∨ (t.bytesCopied ≠ p.length ∧ s' = { t with
          pktOffset := t.bytesCopied
          rxTick := false
          rxDmaPacket := true })) := by
  obtain ⟨p, hp, h⟩ := bind_ok.1 h
  obtain ⟨t, ht, h⟩ := bind_ok.1 h
  obtain ⟨u, hu, rfl⟩ := bind_pure_ok.1 h
  refine ⟨p, t, hp, ht, ?_⟩
  unfold advance at hu
  split at hu
  · rename_i hall
    obtain ⟨q, hq, rfl⟩ := bind_pure_ok.1 hu
    exact .inl ⟨hall, q, hq, rfl⟩
  · rename_i hall
    cases hu
    exact .inr ⟨hall, rfl⟩

/-! ### The state machine -/

theorem unusedCache_of_descLeft {c : DescCache RxDesc} (h : c.descLeft = 0) :
    c.unusedCache = [] := by
  unfold DescCache.descLeft at h
  exact List.length_eq_zero_iff.1 (by omega)

/-- Nothing but write-backs and fetches, except that the machine stops if there are no unused
descriptors. -/
structure Idled (s s' : RxPath) : Prop extends Framed s s' where
  rxTick : s'.rxTick = s.rxTick ∨ s'.rxTick = false ∧ s.cache.unusedCache = []
  tickEvent : s'.tickEvent = s.tickEvent

namespace Idled

theorem of_quiet (h : Quiet s s') : Idled s s' := ⟨h.toFramed, .inl h.rxTick, h.tickEvent⟩

theorem trans (h : Idled s s') (h' : Idled s' t) : Idled s t where
  toFramed := h.toFramed.trans h'.toFramed
  rxTick := by
    rcases h'.rxTick with h₂ | ⟨h₂, hnil⟩
    · rw [h₂]
      exact h.rxTick
    · exact .inr ⟨h₂, h.cache.unused.symm.trans hnil⟩
  tickEvent := h'.tickEvent.trans h.tickEvent

theorem stop (h : Quiet s t) (hnil : s.cache.unusedCache = []) :
    Idled s { t with rxTick := false } :=
  ⟨{ h.toFramed with }, .inr ⟨rfl, hnil⟩, h.tickEvent⟩

theorem fetchAndStop (hnil : s.cache.unusedCache = []) (h : s.fetchAndStop = .ok s') :
    Idled s s' := by
  obtain ⟨t, ht, rfl⟩ := bind_pure_ok.1 h
  exact stop (.fetchDescriptors ht) hnil

theorem stopIfNone {n : ℕ} (hn : n = 0 → s.cache.unusedCache = []) (h : s.stopIfNone n = .ok s') :
    Idled s s' := by
  unfold RxPath.stopIfNone at h
  split_ifs at h with h₀
  · obtain ⟨t, ht, rfl⟩ := bind_pure_ok.1 h
    exact stop (.writeback ht) (hn h₀)
  · cases h
    exact of_quiet (.refl s)

theorem afterPacket (h : s.afterPacket P = .ok s') : Idled s s' := by
  obtain ⟨t₁, h₁, h⟩ := bind_ok.1 h
  obtain ⟨t₂, h₂, h⟩ := bind_ok.1 h
  obtain ⟨t₃, h₃, h⟩ := bind_ok.1 h
  obtain ⟨t₄, h₄, h⟩ := bind_ok.1 h
  obtain ⟨t₅, h₅, h⟩ := bind_ok.1 h
  obtain ⟨t₆, h₆, h⟩ := bind_ok.1 h
  have hq₃ : Quiet s t₃ := (Quiet.writebackIf h₁).trans ((Quiet.writebackIf h₂).trans
    (Quiet.writebackIf h₃))
  have hleft : s.cache.descLeft = 0 → t₃.cache.unusedCache = [] := fun hleft =>
    hq₃.cache.unused.trans (unusedCache_of_descLeft hleft)
  have hi₆ : Idled s t₆ := ((of_quiet hq₃).trans (stopIfNone hleft h₄)).trans
    (of_quiet ((Quiet.writebackThresh h₅).trans (.prefetch h₆)))
  split at h
  · rename_i hnil
    exact hi₆.trans (fetchAndStop hnil h)
  · cases h
    exact hi₆

end Idled

theorem rxStateMachine_cases (h : s.rxStateMachine P = .ok s') :
    (s.en = false ∧ s' = { s with rxTick := false })
    ∨ (s.en = true ∧ s.pktDone = true
      ∧ Idled { s with pktDone := false, rxDmaPacket := false } s')
    ∨ (s.en = true ∧ s.pktDone = false ∧ s.rxDmaPacket = true ∧ s' = { s with rxTick := false })
    ∨ (s.en = true ∧ s.pktDone = false ∧ s.rxDmaPacket = false ∧ s.cache.unusedCache = []
      ∧ Idled s s')
    ∨ (s.en = true ∧ s.pktDone = false ∧ s.rxDmaPacket = false ∧ s.cache.unusedCache ≠ []
      ∧ s.rxFifo.empty = true ∧ s' = { s with rxTick := false })
    ∨ (s.en = true ∧ s.pktDone = false ∧ s.rxDmaPacket = false ∧ s.cache.unusedCache ≠ []
      ∧ s.rxFifo.empty = false ∧ s.sendFront = .ok s') := by
  unfold rxStateMachine at h
  split at h
  · rename_i hen
    exact .inl ⟨hen, (Except.ok.inj h).symm⟩
  rename_i hen
  rw [Bool.not_eq_false] at hen
  split at h
  · rename_i hdone
    exact .inr (.inl ⟨hen, hdone, .afterPacket h⟩)
  rename_i hdone
  rw [Bool.not_eq_true] at hdone
  split at h
  · rename_i hdma
    exact .inr (.inr (.inl ⟨hen, hdone, hdma, (Except.ok.inj h).symm⟩))
  rename_i hdma
  rw [Bool.not_eq_true] at hdma
  split at h
  · rename_i hnil
    exact .inr (.inr (.inr (.inl ⟨hen, hdone, hdma, hnil, .fetchAndStop hnil h⟩)))
  rename_i hne
  split at h
  · rename_i hempty
    exact .inr (.inr (.inr (.inr (.inl ⟨hen, hdone, hdma, hne, hempty,
      (Except.ok.inj h).symm⟩))))
  · rename_i hempty
    rw [Bool.not_eq_true] at hempty
    exact .inr (.inr (.inr (.inr (.inr ⟨hen, hdone, hdma, hne, hempty, h⟩))))

theorem tick_cases {tx : Bool} (h : s.tick P tx = .ok s') :
    s.tickEvent = true ∧ ∃ t,
      (s.rxTick = true ∧ rxStateMachine P { s with tickEvent := false } = .ok t
        ∨ s.rxTick = false ∧ t = { s with tickEvent := false })
      ∧ s' = { t with txTick := tx, tickEvent := t.rxTick || tx } := by
  unfold tick at h
  split_ifs at h with ht
  obtain ⟨t, hsm, h⟩ := bind_ok.1 h
  refine ⟨ht, t, ?_, (Except.ok.inj h).symm⟩
  unfold smTick at hsm
  split_ifs at hsm with htick
  · exact .inl ⟨htick, hsm⟩
  · exact .inr ⟨Bool.eq_false_iff.2 htick, (Except.ok.inj hsm).symm⟩

/-! ### A descriptor is done with -/

/-- The path once the first unused descriptor `c` is done with, of a packet `p`. -/
def completed (s : RxPath) (p : EthPacket) (c : Cached RxDesc) (rest : List (Cached RxDesc))
    (type : RxType) (d : RxDesc) : RxPath :=
  { s with
    pktPtr := none
    pktDone := true
    bytesCopied := if s.bytesCopied = p.length then 0 else s.bytesCopied
    cache := { s.cache with
      unusedCache := rest
      usedCache := s.cache.usedCache ++ [{ c with desc := d }] }
    done := s.done ++ [⟨type, { c with desc := d }, p⟩] }

theorem postInterrupt_cases {i : BitVec 32} {now : Bool} (h : s.postInterrupt P i now = .ok s') :
    ∃ i', s' = { s with intr := i' } := by
  obtain ⟨intr, -, h⟩ := bind_ok.1 h
  exact ⟨intr, (Except.ok.inj h).symm⟩

theorem postIf_cases {b : Prop} [Decidable b] {i : BitVec 32} (h : s.postIf P b i = .ok s') :
    ∃ i', s' = { s with intr := i' } := by
  unfold postIf at h
  split_ifs at h
  · exact postInterrupt_cases h
  · exact ⟨s.intr, (Except.ok.inj h).symm⟩

theorem packetInterrupts_cases (h : s.packetInterrupts P p = .ok s') :
    ∃ i, s' = { s with intr := i } := by
  obtain ⟨_, -, h⟩ := bind_ok.1 h
  obtain ⟨i, -, h⟩ := bind_ok.1 h
  obtain ⟨t, ht, h⟩ := bind_ok.1 h
  obtain ⟨i', rfl⟩ := postIf_cases ht
  obtain ⟨i'', rfl⟩ := postIf_cases h
  exact ⟨i'', rfl⟩

theorem finishPacket_cases (h : s.finishPacket P p = .ok s') :
    ∃ i, s' = { s with
      intr := i
      bytesCopied := if s.bytesCopied = p.length then 0 else s.bytesCopied } := by
  unfold finishPacket at h
  split at h
  · rename_i hall
    obtain ⟨t, ht, rfl⟩ := bind_pure_ok.1 h
    obtain ⟨i, rfl⟩ := packetInterrupts_cases ht
    rw [if_pos hall]
    exact ⟨i, rfl⟩
  · rename_i hall
    cases h
    rw [if_neg hall]
    exact ⟨s.intr, rfl⟩

theorem pktComplete_cases (h : s.pktComplete P = .ok s') :
    ∃ c rest p r type, s.cache.unusedCache = c :: rest ∧ s.pktPtr = some p ∧ s.pcss = 0
      ∧ s.bytesCopied ≤ p.length ∧ s.report p = .ok r ∧ s.rxType = some type
      ∧ Woken (s.completed p c rest type (s.fill type p r c.desc)) s' := by
  unfold pktComplete at h
  split at h
  · cases h
  · cases h
  · rename_i c rest p hu hp
    simp only [bind_ok, require_ok] at h
    obtain ⟨-, hpcss, -, hle, r, hr, h⟩ := h
    split at h
    · cases h
    · rename_i type htype
      refine ⟨c, rest, p, r, type, hu, hp, hpcss, hle, hr, htype, ?_⟩
      obtain ⟨t, ht, h⟩ := bind_ok.1 h
      obtain ⟨cache, hc, rfl⟩ := bind_pure_ok.1 h
      obtain ⟨i, rfl⟩ := finishPacket_cases ht
      have hw := Woken.checkDrain_enableSm { s with
        intr := i
        bytesCopied := if s.bytesCopied = p.length then 0 else s.bytesCopied
        pktPtr := none }
      generalize RxPath.enableSm _ = v at hw hc ⊢
      have hcache : v.cache = s.cache := hw.cache
      obtain ⟨c', rest', hu', rfl⟩ := DescCache.useDesc_cases hc
      rw [hcache] at hu'
      obtain ⟨rfl, rfl⟩ := List.cons.inj (hu.symm.trans hu')
      refine { hw with engine := ?_, cache := ?_ }
      · have he := hw.engine
        show ({ v.toRxEngine with
          pktDone := true, done := v.toRxEngine.done ++ [_] } : RxEngine) = _
        rw [he]
        rfl
      · show ({ v.cache with unusedCache := rest, usedCache := v.cache.usedCache ++ [_] } :
          DescCache RxDesc) = _
        rw [hcache]
        rfl

theorem pktSplitDone_cases (h : s.pktSplitDone P = .ok s') :
    (s.splitCount = 0 ∧ s' = { s with splitCount := 1 })
    ∨ (s.splitCount = 1 ∧ pktComplete P { s with splitCount := 0 } = .ok s') := by
  obtain ⟨_, hle, h⟩ := bind_ok.1 h
  rw [require_ok] at hle
  have hle : s.splitCount + 1 ≤ 2 := hle
  split at h
  · rename_i hne
    have hne : s.splitCount + 1 ≠ 2 := hne
    have hz : s.splitCount = 0 := by omega
    refine .inl ⟨hz, ?_⟩
    rw [← Except.ok.inj h, hz]
  · rename_i heq
    have heq : s.splitCount + 1 = 2 := not_not.1 heq
    exact .inr ⟨by omega, h⟩

theorem dmaDone_cases {e : RxEvent} (h : s.dmaDone P e = .ok s') :
    ∃ u, u = { s with dma := s.dma.eraseP (·.event = e) } ∧ (∃ w ∈ s.dma, w.event = e)
      ∧ ((e = .pkt ∧ u.pktComplete P = .ok s')
        ∨ (e ≠ .pkt ∧ u.pktSplitDone P = .ok s')) := by
  unfold dmaDone at h
  split at h
  · rename_i hany
    refine ⟨_, rfl, by simpa using hany, ?_⟩
    cases e with
    | pkt => exact .inl ⟨rfl, h⟩
    | hdr | data => exact .inr ⟨RxEvent.noConfusion, h⟩
  · cases h

/-! ### The other steps -/

theorem ethRxPkt_cases (h : s.ethRxPkt P p = .ok s') :
    (s.en = false ∧ s' = s)
    ∨ (s.en = true ∧ ∃ i q, (s.rxFifo.push p = .ok none ∧ q = s.rxFifo
        ∧ s' = { restartClock { s with rxTick := s.drainState ≠ .draining } with intr := i }
      ∨ s.rxFifo.push p = .ok (some q)
        ∧ s' = { restartClock { s with rxTick := s.drainState ≠ .draining } with
          rxFifo := q
          accepted := s.accepted ++ [p] })) := by
  unfold ethRxPkt at h
  split at h
  · rename_i hen
    exact .inl ⟨hen, (Except.ok.inj h).symm⟩
  · rename_i hen
    rw [Bool.not_eq_false] at hen
    have hf := Framed.restartClock { s with rxTick := s.drainState ≠ .draining }
    have hfifo : (restartClock { s with rxTick := s.drainState ≠ .draining }).rxFifo = s.rxFifo :=
      congrArg RxEngine.rxFifo hf.engine
    have hacc : (restartClock { s with rxTick := s.drainState ≠ .draining }).accepted
        = s.accepted := congrArg RxEngine.accepted hf.engine
    obtain ⟨r, hr, h⟩ := bind_ok.1 h
    rw [hfifo] at hr
    refine .inr ⟨hen, ?_⟩
    cases r with
    | none =>
      obtain ⟨i, rfl⟩ := postInterrupt_cases h
      exact ⟨i, s.rxFifo, .inl ⟨hr, rfl, rfl⟩⟩
    | some q =>
      cases h
      rw [hacc]
      exact ⟨s.intr, q, .inr ⟨hr, rfl⟩⟩

/-- The operations that only look after the descriptors, the registers, the interrupts or the
clock. -/
def Op.IsOther : Op → Prop
  | .ethRxPkt _ | .tick _ | .dmaDone _ | .writeRctl _ => False
  | _ => True

theorem cacheStep_cases {o : DescCache.Op RxDesc} (h : s.cacheStep o = .ok s') :
    ∃ c, s.cache.step o = .ok c ∧ s' = { s with cache := c } := by
  obtain ⟨c, hc, h⟩ := bind_ok.1 h
  exact ⟨c, hc, (Except.ok.inj h).symm⟩

theorem step_engine {o : Op} (ho : o.IsOther) (h : s.step P o = .ok s') :
    s'.toRxEngine = s.toRxEngine := by
  have hcache : ∀ {o : DescCache.Op RxDesc}, s.cacheStep o = .ok s' →
      s'.toRxEngine = s.toRxEngine := fun h => by
    obtain ⟨c, -, rfl⟩ := cacheStep_cases h
    rfl
  cases o with
  | ethRxPkt p | tick b | dmaDone e | writeRctl v => exact ho.elim
  | fetchDelayEvent | wbDelayEvent | writeRdt v | writeRdh v | writeRdlen v => exact hcache h
  | writeRdbal v | writeRdbah v => exact hcache h
  | fetchEvent buf =>
    obtain ⟨t, ht, h⟩ := bind_ok.1 h
    obtain ⟨c, -, rfl⟩ := cacheStep_cases ht
    cases h
    exact (Woken.enableSm_checkDrain { s with cache := c }).engine
  | wbEvent =>
    obtain ⟨t, ht, h⟩ := bind_ok.1 h
    obtain ⟨c, -, rfl⟩ := cacheStep_cases ht
    cases h
    split_ifs
    · exact (Framed.checkDrain { s with cache := c }).engine
    · rfl
  | timer i => exact (Quiet.timer h).engine
  | intr o =>
    obtain ⟨i, -, rfl⟩ := bind_pure_ok.1 h
    rfl
  | txTick b =>
    cases h
    exact (Framed.restartClock { s with txTick := b }).engine
  | drainResume =>
    cases h
    exact (Framed.restartClock { s with
      drainState := .running, txTick := true, rxTick := true }).engine
  | writeSrrctl v | writeRxdctl v | writeRxcsum v => obtain rfl := Except.ok.inj h; rfl
  | writeRdtr v | writeRadv v | drain | drained => obtain rfl := Except.ok.inj h; rfl

theorem writeRctl_engine (v : BitVec 32) : (s.writeRctl v).toRxEngine =
    if v.getLsbD 0 then { s.toRxEngine with rxFifo := s.rxFifo.clear, parts := [] }
    else s.toRxEngine := by
  unfold writeRctl
  rw [(Framed.restartClock _).engine]
  split_ifs <;> rfl

end RxPath

end Gem5
