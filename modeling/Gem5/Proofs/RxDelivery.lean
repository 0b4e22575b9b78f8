import Gem5.Proofs.RxClock

/-!
# Packets received without header split

Without header split a packet is written whole into the buffer of one descriptor, or the simulation
stops because it is too long for it. So the packets go to the descriptors in the order both came in
(`Lined`).
-/

namespace Gem5

open List

namespace RxDesc

theorem getLsbD_setBits (v : BitVec 64) (first n x : ℕ) {i : ℕ} (hi : i < 64) :
    (setBits v first n x).getLsbD i =
      if first ≤ i ∧ i < first + n then x.testBit (i - first) else v.getLsbD i := by
  have hlt : i - first < 64 := by omega
  simp only [setBits, BitVec.getLsbD_or, BitVec.getLsbD_and, BitVec.getLsbD_not,
    BitVec.getLsbD_shiftLeft, BitVec.getLsbD_ofNat, Nat.testBit_two_pow_sub_one, hi, hlt,
    decide_true, Bool.true_and]
  by_cases hle : first ≤ i
  · have hnot : ¬ i < first := by omega
    by_cases hn : i - first < n
    · simp [hle, hnot, hn, show i < first + n by omega]
    · simp [hle, hnot, hn, show ¬ i < first + n by omega]
  · simp [hle, show i < first by omega]

end RxDesc

namespace RxPath

variable {r : Report} {rest : List (Cached RxDesc)}

open Bytes Machine

variable {P : NicParams} {s s' t : RxPath} {p : EthPacket} {c : Cached RxDesc}

/-! ### The end of a packet -/

theorem Report.check_eop (h : r.status.testBit 1 = true) (sum valid ptype err e : ℕ) :
    (r.check sum valid ptype err e).status.testBit 1 = true := by
  simp [Report.check, Nat.testBit_or, h]

theorem checkTu_eop {r' : Report} {ptr : Option ℕ} {valid ptype : ℕ}
    (hr : r.status.testBit 1 = true) (h : s.checkTu p r ptr valid ptype = .ok r') :
    r'.status.testBit 1 = true := by
  unfold checkTu at h
  split_ifs at h
  · obtain ⟨sum, -, rfl⟩ := bind_pure_ok.1 h
    exact Report.check_eop hr sum valid ptype _ _
  · cases h
    exact hr

theorem reportIp_eop (hr : r.status.testBit 1 = true) :
    (s.reportIp p r).status.testBit 1 = true := by
  have hkeep : ∀ {q : Report}, q.status = r.status → q.status.testBit 1 = true := fun h => by
    rwa [h]
  unfold reportIp
  simp only []
  split
  · refine Report.check_eop (hkeep ?_) _ _ _ _ _
    split_ifs <;> rfl
  · refine hkeep ?_
    split_ifs <;> rfl

theorem report_eop (hall : s.bytesCopied = p.length) (h : s.report p = .ok r) :
    r.status.testBit 1 = true := by
  unfold report at h
  simp only [if_pos hall] at h
  split at h
  · simp only [bind_ok] at h
    obtain ⟨tcp, -, r₁, h₁, udp, -, h⟩ := h
    exact checkTu_eop (checkTu_eop (reportIp_eop (by decide)) h₁) h
  · cases h
    decide

theorem fill_eop (hr : r.status.testBit 1 = true) (type : RxType) (c : Cached RxDesc)
    (d : RxDesc) : RxDone.eop ⟨type, { c with desc := s.fill type p r d }, p⟩ = true := by
  cases type with
  | legacy =>
    simp only [RxDone.eop, fill, RxDesc.getLsbD_setBits _ _ _ _ (show 33 < 64 by decide)]
    simpa using hr
  | advOnebuf | advSplitA =>
    simp only [RxDone.eop, fill, RxDesc.getLsbD_setBits _ _ _ _ (show 1 < 64 by decide)]
    simpa using hr

/-! ### Packets and descriptors in line -/

theorem getElem?_append_of_some {α : Type*} {l l' : List α} {i : ℕ} {x : α}
    (h : l[i]? = some x) : (l ++ l')[i]? = some x := by
  rwa [List.getElem?_append_left (List.getElem?_eq_some_iff.1 h).1]

theorem getElem?_concat_cases {α : Type*} {l : List α} {a x : α} {i : ℕ}
    (h : (l ++ [a])[i]? = some x) : l[i]? = some x ∨ i = l.length ∧ a = x := by
  rw [List.getElem?_append] at h
  split_ifs at h with hi
  · exact .inl h
  · have hlt := (List.getElem?_eq_some_iff.1 h).1
    have hlen : i = l.length := by
      simp only [List.length_singleton] at hlt
      omega
    subst hlen
    simp at h
    exact .inr ⟨rfl, h⟩

/-- The packet goes whole, in one DMA, into the buffer of the descriptor. -/
def Fills (c : Cached RxDesc) (p : EthPacket) (ws : List RxWrite) : Prop :=
  ∃ w, ws = [w] ∧ w.seq = c.seq ∧ w.addr = c.desc.pkt ∧ w.data = p.data ∧ w.data.length < w.room

def Reports (c : Cached RxDesc) (p : EthPacket) (x : RxDone) : Prop :=
  x.cached.seq = c.seq ∧ x.cached.addr = c.addr ∧ x.packet = p ∧ x.eop = true

/-- The descriptor `i` in the order they are fetched in is for the packet `i`. -/
structure Lined (s : RxPath) : Prop where
  tracked : Tracked s.toRxEngine
  type : s.rxType ≠ some .advSplitA
  offset : s.pktOffset = 0
  fifo : s.rxFifo.Accounted
  accepted : s.accepted = s.delivered.map Prod.fst ++ s.rxFifo.packets
  held : s.cache.WbHeld
  returned : s.cache.returned = s.done.map RxDone.cached
  fills : ∀ (i : ℕ) p ws, s.delivered[i]? = some (p, ws) →
    ∃ c, s.cache.reads[i]? = some c ∧ Fills c p ws
  reports : ∀ (i : ℕ) x, s.done[i]? = some x → ∃ c p ws, s.cache.reads[i]? = some c
    ∧ s.delivered[i]? = some (p, ws) ∧ Reports c p x
  idle : s.dma = [] → s.delivered.length = s.done.length
    ∧ s.cache.unusedCache = s.cache.reads.drop s.done.length
  busy : s.dma ≠ [] → ∃ p ws c c' rest, s.pktPtr = some p ∧ s.bytesCopied = p.length
    ∧ s.delivered.length = s.done.length + 1 ∧ s.delivered[s.done.length]? = some (p, ws)
    ∧ s.cache.reads.drop s.done.length = c :: rest ∧ s.cache.unusedCache = c' :: rest
    ∧ c'.seq = c.seq ∧ c'.addr = c.addr ∧ ∃ w, s.dma = [w] ∧ w.event = .pkt

/-- No header split, no reset, and the ring stays where it is. A packet's length has 32 bits. -/
def Op.plain : Op → Bool
  | .ethRxPkt p => p.length < 2 ^ 32
  | .writeRctl val => !val.getLsbD 0
  | .writeSrrctl val => (val.extractLsb' 25 3).toNat ≠ 5
  | .writeRdh _ | .writeRdlen _ | .writeRdbal _ | .writeRdbah _ => false
  | _ => true

namespace Lined

theorem init (base len size : ℕ) (max : BitVec 32) : Lined (RxPath.init base len size max) where
  tracked := .init base len size max
  type h := by simp [RxRegs.rxType, RxRegs.desctype, RxPath.init] at h
  offset := rfl
  fifo := .init max
  accepted := rfl
  held := .init base len size
  returned := rfl
  fills _ _ _ h := by cases h
  reports _ _ h := by cases h
  idle _ := ⟨rfl, rfl⟩
  busy h := absurd rfl h

theorem done_le_reads (hs : Lined s) : s.done.length ≤ s.cache.reads.length := by
  by_contra hlt
  have hlt : s.cache.reads.length < s.done.length := not_le.1 hlt
  obtain ⟨c, p, ws, hc, -⟩ := hs.reports _ _ (getElem?_eq_getElem hlt)
  simp at hc

theorem frame (hs : Lined s) (he : s'.toRxEngine = s.toRxEngine)
    (htype : s'.rxType ≠ some .advSplitA) (hu : s.cache.Untouched s'.cache)
    (hheld : s'.cache.WbHeld) (hret : s'.cache.returned = s.cache.returned) : Lined s' where
  tracked := by rw [he]; exact hs.tracked
  type := htype
  offset := by rw [he]; exact hs.offset
  fifo := by rw [he]; exact hs.fifo
  accepted := by rw [he]; exact hs.accepted
  held := hheld
  returned := by rw [hret, he]; exact hs.returned
  fills := by rw [he, hu.reads]; exact hs.fills
  reports := by rw [he, hu.reads]; exact hs.reports
  idle := by rw [he, hu.reads, hu.unused]; exact hs.idle
  busy := by rw [he, hu.reads, hu.unused]; exact hs.busy

theorem framed (hs : Lined s) (h : Framed s s') : Lined s' :=
  hs.frame h.engine (by rw [RxRegs.rxType, RxRegs.desctype, h.regs]; exact hs.type)
    h.cache.toUntouched (h.cache.held hs.held) h.cache.returned

theorem fetched {buf : List (Cached RxDesc)} {cache : DescCache RxDesc} (hs : Lined s)
    (hreads : cache.reads = s.cache.reads ++ buf)
    (hunused : cache.unusedCache = s.cache.unusedCache ++ buf) (hheld : cache.WbHeld)
    (hret : cache.returned = s.cache.returned) : Lined { s with cache := cache } := by
  have hdrop : (s.cache.reads ++ buf).drop s.done.length
      = s.cache.reads.drop s.done.length ++ buf :=
    drop_append_of_le_length hs.done_le_reads
  refine { hs with
    held := hheld
    returned := hret.trans hs.returned
    fills := fun i p ws h => ?_
    reports := fun i x h => ?_
    idle := fun h => ?_
    busy := fun h => ?_ }
  · obtain ⟨c, hc, hf⟩ := hs.fills i p ws h
    exact ⟨c, by rw [hreads]; exact getElem?_append_of_some hc, hf⟩
  · obtain ⟨c, p, ws, hc, hd, hr⟩ := hs.reports i x h
    exact ⟨c, p, ws, by rw [hreads]; exact getElem?_append_of_some hc, hd, hr⟩
  · obtain ⟨hlen, hu⟩ := hs.idle h
    refine ⟨hlen, ?_⟩
    show cache.unusedCache = cache.reads.drop s.done.length
    rw [hreads, hunused, hdrop, hu]
  · obtain ⟨p, ws, c, c', rest, hp, hb, hlen, hd, hc, hu, hseq, haddr, hw⟩ := hs.busy h
    refine ⟨p, ws, c, c', rest ++ buf, hp, hb, hlen, hd, ?_, ?_, hseq, haddr, hw⟩
    · show cache.reads.drop s.done.length = _
      rw [hreads, hdrop, hc]
      rfl
    · show cache.unusedCache = _
      rw [hunused, hu]
      rfl

theorem congr (hs : Lined s) (he : s'.toRxEngine = s.toRxEngine) (hr : s'.rxType = s.rxType)
    (hc : s'.cache = s.cache) : Lined s' :=
  hs.frame he (by rw [hr]; exact hs.type) (by rw [hc]; exact .refl _) (by rw [hc]; exact hs.held)
    (by rw [hc])

theorem ethRxPkt (hs : Lined s) (hlt : p.length < 2 ^ 32) (h : s.ethRxPkt P p = .ok s') :
    Lined s' := by
  have ht := hs.tracked.ethRxPkt h
  have hf := Framed.restartClock { s with rxTick := s.drainState ≠ .draining }
  have hr : Lined (restartClock { s with rxTick := s.drainState ≠ .draining }) :=
    Lined.framed (s := { s with rxTick := s.drainState ≠ .draining }) { hs with } hf
  obtain ⟨-, rfl⟩ | ⟨-, i, q, ⟨-, -, rfl⟩ | ⟨hq, rfl⟩⟩ := ethRxPkt_cases h
  · exact hs
  · exact { hr with }
  · obtain hn | ⟨q', hq', hacc, hfifo, -⟩ := hs.fifo.push_cases hlt hq
    · cases hn
    · obtain rfl := Option.some.inj hq'
      have hdel : (restartClock { s with rxTick := s.drainState ≠ .draining }).delivered
          = s.delivered := congrArg RxEngine.delivered hf.engine
      refine { hr with tracked := ht, fifo := hacc, accepted := ?_ }
      show s.accepted ++ [p] = _
      rw [hs.accepted, ← hdel]
      simp [PacketFifo.packets, hfifo]

theorem sent {e : PacketFifoEntry} {l : List PacketFifoEntry} {q : PacketFifo}
    {d : Cached RxDesc} {w : RxWrite} (hs : Lined s)
    (hd : s.dma = []) (hf : s.rxFifo.fifo = e :: l) (hq : s.rxFifo.pop = .ok q)
    (hu : s.cache.unusedCache = c :: rest) (hseq : d.seq = c.seq) (haddr : d.addr = c.addr)
    (hw : Fills c e.packet [w]) (hev : w.event = .pkt)
    (ht : s'.toRxEngine = { (s.started e.packet d rest [w] e.packet.length).toRxEngine with
      pktOffset := 0
      rxFifo := q
      parts := []
      delivered := s.delivered ++ [(e.packet, s.parts ++ [w])]
      rxDmaPacket := true })
    (htr : Tracked s'.toRxEngine) (htype : s'.rxType = s.rxType)
    (hc : s'.cache = { s.cache with unusedCache := d :: rest }) : Lined s' := by
  obtain ⟨hlen, hunused⟩ := hs.idle hd
  have hdrop : s.cache.reads.drop s.done.length = c :: rest := hunused.symm.trans hu
  have hread : s.cache.reads[s.delivered.length]? = some c := by
    rw [hlen, ← head?_drop, hdrop]
    rfl
  have hparts : s.parts = [] := hs.tracked.first hs.offset
  rw [hparts, nil_append] at ht
  obtain ⟨q', hq', hacc, hl, -⟩ := hs.fifo.pop hf
  obtain rfl := Except.ok.inj (hq.symm.trans hq')
  exact {
    tracked := htr
    type := by rw [htype]; exact hs.type
    offset := by rw [ht]
    fifo := by rw [ht]; exact hacc
    accepted := by
      rw [ht]
      show s.accepted = _
      rw [hs.accepted]
      simp [PacketFifo.packets, hf, hl]
    held := by rw [hc]; exact { hs.held with }
    returned := by rw [hc, ht]; exact hs.returned
    fills := fun i p ws hi => by
      rw [ht] at hi
      rw [hc]
      rcases getElem?_concat_cases hi with hold | ⟨rfl, hnew⟩
      · exact hs.fills i p ws hold
      · obtain ⟨rfl, rfl⟩ := Prod.mk.inj hnew
        exact ⟨c, hread, hw⟩
    reports := fun i x hi => by
      rw [ht] at hi ⊢
      rw [hc]
      obtain ⟨c', p', ws, hc', hd', hr⟩ := hs.reports i x hi
      exact ⟨c', p', ws, hc', getElem?_append_of_some hd', hr⟩
    idle := fun hnil => by
      rw [ht] at hnil
      exact absurd (append_eq_nil_iff.1 hnil).2 (cons_ne_nil _ _)
    busy := fun _ => by
      rw [ht, hc]
      refine ⟨e.packet, [w], c, d, rest, rfl, rfl, ?_, ?_, hdrop, rfl, hseq, haddr, w, ?_, hev⟩
      · show (s.delivered ++ _).length = s.done.length + 1
        simp [hlen]
      · show (s.delivered ++ _)[s.done.length]? = _
        rw [← hlen]
        exact getElem?_concat_length
      · show s.dma ++ [w] = [w]
        rw [hd]
        rfl }

theorem sendFront (hs : Lined s) (ht : Tracked s'.toRxEngine) (hd : s.dma = [])
    (h : s.sendFront = .ok s') : Lined s' := by
  obtain ⟨p, t, hp, ht', h⟩ := sendFront_cases h
  obtain ⟨c, rest, f, ws, n, hu, hw, rfl⟩ := writePacket_cases ht'
  obtain ⟨e, l, hf, rfl⟩ := PacketFifo.front_inv hp
  cases hw with
  | header htype | more htype | split htype => exact absurd htype hs.type
  | whole htype hoff hlt =>
    obtain ⟨-, q, hq, rfl⟩ | ⟨hn, -⟩ := h
    · refine hs.sent (d := { c with desc := f c.desc }) hd hf hq hu rfl rfl
        (w := ⟨c.seq, .pkt, c.desc.pkt, bytesAt e.packet 0 e.packet.length, _⟩)
        ⟨_, rfl, rfl, rfl, ?_, ?_⟩ rfl rfl ht rfl rfl
      · exact (bytesAt_eq (Nat.zero_add _).le).trans take_length
      · simpa [length_bytesAt] using hlt
    · exact absurd rfl hn

theorem rxStateMachine (hs : Lined s) (ht : Tracked s'.toRxEngine)
    (h : s.rxStateMachine P = .ok s') : Lined s' := by
  obtain ⟨-, rfl⟩ | ⟨-, hdone, h⟩ | ⟨-, -, -, rfl⟩ | ⟨-, -, -, -, h⟩ | ⟨-, -, -, -, -, rfl⟩ |
    ⟨-, -, hdma, -, -, h⟩ := rxStateMachine_cases h
  · exact { hs with }
  · have htaken : Lined { s with pktDone := false, rxDmaPacket := false } :=
      { hs with tracked := hs.tracked.taken hdone }
    exact htaken.framed h.toFramed
  · exact { hs with }
  · exact hs.framed h.toFramed
  · exact { hs with }
  · exact hs.sendFront ht (hs.tracked.dma_of_not_waiting hdma) h

theorem tick {tx : Bool} (hs : Lined s) (ht : Tracked s'.toRxEngine)
    (h : s.tick P tx = .ok s') : Lined s' := by
  obtain ⟨-, t, ⟨-, hsm⟩ | ⟨-, rfl⟩, rfl⟩ := tick_cases h
  · have hl : Lined t := rxStateMachine (s := { s with tickEvent := false }) { hs with } ht hsm
    exact { hl with }
  · exact { hs with }

theorem dmaDone {v : RxEvent} (hs : Lined s) (h : s.dmaDone P v = .ok s') : Lined s' := by
  have ht := hs.tracked.dmaDone h
  obtain ⟨u, rfl, ⟨x, hx, hxv⟩, h⟩ := dmaDone_cases h
  obtain ⟨p, ws, c, c', rest, hp, hb, hlen, hdel, hdrop, hu, hseq, haddr, w, hw, hev⟩ :=
    hs.busy (ne_nil_of_mem hx)
  rw [hw] at hx h
  obtain rfl := mem_singleton.1 hx
  obtain ⟨rfl, h⟩ | ⟨hv, -⟩ := h
  swap
  · exact absurd (hxv.symm.trans hev) hv
  rw [eraseP_cons_of_pos (by simp [hev])] at h
  obtain ⟨d, rest', p', r, type, hu', hp', -, -, hr, htype, hwoken⟩ := pktComplete_cases h
  obtain ⟨rfl, rfl⟩ := List.cons.inj (hu.symm.trans hu')
  obtain rfl := Option.some.inj (hp.symm.trans hp')
  have hread : s.cache.reads[s.done.length]? = some c := by
    rw [← head?_drop, hdrop]
    rfl
  have heop : r.status.testBit 1 = true := report_eop hb hr
  refine congr (s := completed { s with dma := [] } p c' rest type _) ?_ hwoken.engine ?_
    hwoken.cache
  · have he := hwoken.engine
    rw [he] at ht
    exact {
      tracked := ht
      type := hs.type
      offset := hs.offset
      fifo := hs.fifo
      accepted := hs.accepted
      held := hs.held.step (o := .useDesc (fill { s with dma := [] } type p r))
        (fun h => by cases h) (by simp only [DescCache.step, DescCache.useDesc, hu]; rfl)
      returned := by
        show _ ++ (s.cache.usedCache ++ _) = (s.done ++ _).map RxDone.cached
        rw [map_append, ← hs.returned, DescCache.returned, append_assoc]
        rfl
      fills := hs.fills
      reports := fun i y hi => by
        rcases getElem?_concat_cases hi with hi | ⟨rfl, rfl⟩
        · exact hs.reports i y hi
        · exact ⟨c, p, ws, hread, hdel, hseq, haddr, rfl, fill_eop heop type c' _⟩
      idle := fun _ => by
        refine ⟨?_, ?_⟩
        · show s.delivered.length = (s.done ++ [_]).length
          rw [hlen, length_append]
          rfl
        · show rest = s.cache.reads.drop (s.done ++ [_]).length
          rw [length_append, List.length_singleton, ← drop_drop, hdrop]
          rfl
      busy := fun hne => absurd rfl hne }
  · exact congrArg RxRegs.rxType hwoken.regs

theorem upkeep {o : DescCache.Op RxDesc} (hs : Lined s) (ho : o.IsUpkeep)
    (h : s.cacheStep o = .ok s') : Lined s' := by
  obtain ⟨cache, hc, rfl⟩ := cacheStep_cases h
  have hheld : cache.WbHeld := hs.held.step (fun hreset => by rw [hreset] at ho; exact ho.elim) hc
  have hret := hs.held.returned_upkeep ho hc
  cases o with
  | fetchEvent buf =>
    obtain ⟨d, -, -, -, rfl⟩ := DescCache.fetchComplete_cases hc
    exact hs.fetched rfl rfl hheld hret
  | writeTail v r => exact hs.frame rfl hs.type (.writeTail hc) hheld hret
  | fetchDelayEvent r => exact hs.frame rfl hs.type (.fetchDescriptors1 hc) hheld hret
  | wbDelayEvent r => exact hs.frame rfl hs.type (.writeback1 hc) hheld hret
  | wbEvent f => exact hs.frame rfl hs.type (.wbComplete hc) hheld hret
  | _ => exact ho.elim

theorem step {o : Op} (hs : Lined s) (ho : o.plain = true) (h : s.step P o = .ok s') :
    Lined s' := by
  have hfits : s.SplitFits o := by
    refine ⟨fun _ _ p _ htype => absurd htype hs.type, fun _ => hs.offset⟩
  have ht := hs.tracked.step hfits h
  cases o with
  | ethRxPkt p => exact hs.ethRxPkt (by simpa [Op.plain] using ho) h
  | tick tx => exact hs.tick ht h
  | dmaDone v => exact hs.dmaDone h
  | fetchDelayEvent => exact upkeep (o := .fetchDelayEvent _) hs trivial h
  | fetchEvent buf =>
    obtain ⟨t, hfetch, rfl⟩ := bind_pure_ok.1 h
    have hw := Woken.enableSm_checkDrain t
    exact (upkeep (o := .fetchEvent buf) hs trivial hfetch).congr hw.engine
      (congrArg RxRegs.rxType hw.regs) hw.cache
  | wbDelayEvent => exact upkeep (o := .wbDelayEvent _) hs trivial h
  | wbEvent =>
    obtain ⟨t, hwb, rfl⟩ := bind_pure_ok.1 h
    have hl := upkeep (o := .wbEvent _) hs trivial hwb
    split_ifs
    · exact hl.framed (.checkDrain t)
    · exact hl
  | writeRdt v => exact upkeep (o := .writeTail v _) hs trivial h
  | writeRdh v | writeRdlen v | writeRdbal v | writeRdbah v => cases ho
  | writeRctl v =>
    cases h
    have hv : v.getLsbD 0 = false := by simpa [Op.plain] using ho
    have heq : s.writeRctl v
        = restartClock { s with rctl := v, rxTick := s.rxTick || v.getLsbD 1 } := by
      unfold writeRctl
      simp only [hv]
      rfl
    rw [heq]
    exact Lined.framed (s := { s with rctl := v, rxTick := s.rxTick || v.getLsbD 1 }) { hs with }
      (.restartClock _)
  | writeSrrctl v =>
    cases h
    refine { hs with type := fun htype => ?_ }
    have hv : (v.extractLsb' 25 3).toNat ≠ 5 := by simpa [Op.plain] using ho
    unfold RxRegs.rxType at htype
    split at htype
    · cases htype
    · cases htype
    · rename_i h5
      exact hv h5
    · cases htype
  | writeRxdctl v | writeRxcsum v | writeRdtr v | writeRadv v | drain | drained =>
    cases h
    exact { hs with }
  | timer i => exact hs.framed (Quiet.timer h).toFramed
  | intr o =>
    obtain ⟨i, -, rfl⟩ := bind_pure_ok.1 h
    exact { hs with }
  | txTick b =>
    cases h
    exact Lined.framed (s := { s with txTick := b }) { hs with } (.restartClock _)
  | drainResume =>
    cases h
    exact Lined.framed (s := { s with drainState := .running, txTick := true, rxTick := true })
      { hs with } (.restartClock _)

end Lined

/-! ### All packets get through -/

/-- The packet is shorter than the buffers the registers say there are. -/
def Fits (s : RxPath) (p : EthPacket) : Prop :=
  s.rxType = some .legacy ∧ p.length < s.descSize ∨ s.rxType = some .advOnebuf ∧ p.length < s.bufLen

instance (s : RxPath) (p : EthPacket) : Decidable (s.Fits p) := inferInstanceAs (Decidable (_ ∨ _))

instance (p : EthPacket) : Decidable (Walkable p) := inferInstanceAs (Decidable (_ → _))

/-- The device runs and receives, with the registers as it can take them, and there are descriptors
for all packets that wait. -/
structure Ready (s : RxPath) : Prop where
  running : s.drainState = .running
  en : s.en = true
  gran : s.gran = true
  pcss : s.pcss = 0
  rdtr : TxPath.idv s.rdtr = 0
  type : s.rxType = some .legacy ∨ s.rxType = some .advOnebuf
  fits : ∀ p ∈ s.rxFifo.packets, s.Fits p
  walks : ∀ p ∈ s.accepted.drop s.done.length, Walkable p
  descs : s.rxFifo.fifo.length + s.dma.length ≤ s.cache.unusedCache.length

instance (s : RxPath) : Decidable s.Ready :=
  decidable_of_iff (s.drainState = .running ∧ s.en = true ∧ s.gran = true ∧ s.pcss = 0
      ∧ TxPath.idv s.rdtr = 0 ∧ (s.rxType = some .legacy ∨ s.rxType = some .advOnebuf)
      ∧ (∀ p ∈ s.rxFifo.packets, s.Fits p) ∧ (∀ p ∈ s.accepted.drop s.done.length, Walkable p)
      ∧ s.rxFifo.fifo.length + s.dma.length ≤ s.cache.unusedCache.length)
    ⟨fun ⟨h₁, h₂, h₃, h₄, h₅, h₆, h₇, h₈, h₉⟩ => ⟨h₁, h₂, h₃, h₄, h₅, h₆, h₇, h₈, h₉⟩,
      fun h => ⟨h.running, h.en, h.gran, h.pcss, h.rdtr, h.type, h.fits, h.walks, h.descs⟩⟩

theorem start_ok (hu : s.cache.unusedCache = c :: rest)
    (ws : List RxWrite) (n : ℕ) (f : RxDesc → RxDesc) : ∃ t, s.start ws n f = .ok t := by
  have hc : s.cache.modifyDesc f
      = .ok { s.cache with unusedCache := { c with desc := f c.desc } :: rest } := by
    unfold DescCache.modifyDesc
    rw [hu]
  exact ⟨_, bind_ok.2 ⟨_, hc, rfl⟩⟩

theorem writePacket_ok (hu : s.cache.unusedCache = c :: rest)
    (hoff : s.pktOffset = 0) (hfits : s.Fits p) : ∃ t, s.writePacket p = .ok t := by
  unfold writePacket
  rw [hu]
  simp only []
  rcases hfits with ⟨htype, hlt⟩ | ⟨htype, hlt⟩
  · simp only [htype, require, if_pos hoff, if_pos hlt, ok_bind]
    exact start_ok (s := { s with pktPtr := some p, pktDone := false }) hu _ _ _
  · simp only [htype, require, if_pos hoff, if_pos hlt, ok_bind]
    exact start_ok (s := { s with pktPtr := some p, pktDone := false }) hu _ _ _

/-- The first packet left the FIFO, which is now `l`, for memory. -/
structure Sent (s t : RxPath) (l : List PacketFifoEntry) (w : RxWrite) : Prop where
  fifo : t.rxFifo.fifo = l
  dma : t.dma = s.dma ++ [w]
  pktDone : t.pktDone = false
  accepted : t.accepted = s.accepted
  done : t.done.length = s.done.length
  regs : t.toRxRegs = s.toRxRegs
  drainState : t.drainState = s.drainState
  unused : t.cache.unusedCache.length = s.cache.unusedCache.length

theorem sendFront_ok {e : PacketFifoEntry} {l : List PacketFifoEntry} (hs : Lined s)
    (hf : s.rxFifo.fifo = e :: l) (hu : s.cache.unusedCache ≠ []) (hfits : s.Fits e.packet) :
    ∃ t w, s.sendFront = .ok t ∧ Sent s t l w := by
  have hfront : s.rxFifo.front = .ok e.packet := by
    unfold PacketFifo.front
    rw [hf]
  obtain ⟨c, rest, hu⟩ := exists_cons_of_ne_nil hu
  obtain ⟨q, hq, -, hl, -⟩ := hs.fifo.pop hf
  obtain ⟨u, hwrite⟩ := writePacket_ok hu hs.offset hfits
  obtain ⟨c', rest', f, ws, n, hu', hwrote, rfl⟩ := writePacket_cases hwrite
  cases hwrote with
  | header htype | more htype | split htype => exact absurd htype hs.type
  | @whole room htype hoff hlt =>
    refine ⟨_, ⟨c'.seq, .pkt, c'.desc.pkt, bytesAt e.packet 0 e.packet.length, room⟩,
      bind_ok.2 ⟨_, hfront, bind_ok.2 ⟨_, hwrite, bind_ok.2 ⟨_,
        (if_pos rfl).trans (bind_ok.2 ⟨q, hq, rfl⟩), rfl⟩⟩⟩, ?_⟩
    exact ⟨hl, rfl, rfl, rfl, rfl, rfl, rfl, by rw [hu']; rfl⟩

/-- What the state machine does for the packets that wait comes to an end. -/
def rank (s : RxPath) : ℕ :=
  3 * s.rxFifo.fifo.length + 2 * s.dma.length + if s.pktDone then 1 else 0

/-- A step on the way. -/
structure Advances (s s' : RxPath) : Prop where
  ready : Ready s'
  accepted : s'.accepted = s.accepted
  rank : s'.rank < s.rank

namespace Ready

theorem next (hr : Ready s) (hregs : s'.toRxRegs = s.toRxRegs)
    (hdrain : s'.drainState = s.drainState) (hacc : s'.accepted = s.accepted)
    (hfifo : ∀ p ∈ s'.rxFifo.packets, p ∈ s.rxFifo.packets)
    (hdone : s.done.length ≤ s'.done.length)
    (hdescs : s'.rxFifo.fifo.length + s'.dma.length ≤ s'.cache.unusedCache.length)
    (hrank : s'.rank < s.rank) : Advances s s' where
  ready := {
    running := hdrain.trans hr.running
    en := by rw [hregs]; exact hr.en
    gran := by rw [hregs]; exact hr.gran
    pcss := by rw [hregs]; exact hr.pcss
    rdtr := by rw [hregs]; exact hr.rdtr
    type := by rw [hregs]; exact hr.type
    fits := fun p hp => by
      unfold Fits
      rw [hregs]
      exact hr.fits p (hfifo p hp)
    walks := fun p hp => by
      rw [hacc] at hp
      exact hr.walks p ((drop_sublist_drop_left _ hdone).subset hp)
    descs := hdescs }
  accepted := hacc
  rank := hrank

theorem dmaDone (hr : Ready s) (hs : Lined s) (hd : s.dma ≠ []) :
    ∃ s', s.step P (.dmaDone .pkt) = .ok s' ∧ Advances s s' := by
  obtain ⟨p, ws, c, c', rest, hp, hb, hlen, hdel, -, hu, -, -, w, hw, hev⟩ := hs.busy hd
  have hwalk : Walkable p := by
    refine hr.walks p (mem_of_getElem? (i := 0) ?_)
    rw [getElem?_drop, Nat.add_zero, hs.accepted]
    refine getElem?_append_of_some ?_
    simp [hdel]
  obtain ⟨type, htype⟩ : ∃ type, s.rxType = some type := by
    rcases hr.type with h | h <;> exact ⟨_, h⟩
  obtain ⟨s', h⟩ := pktComplete_ok (P := P) (s := { s with dma := [] }) hu hp hr.pcss hb.le hwalk
    htype hr.rdtr
  have hstep : s.dmaDone P .pkt = .ok s' := by
    unfold RxPath.dmaDone
    rw [hw, eraseP_cons_of_pos (by simp [hev])]
    simp only [any_cons, hev, decide_true, Bool.true_or, if_true]
    exact h
  refine ⟨s', hstep, ?_⟩
  obtain ⟨d, rest', p', r, type', hu', -, -, -, -, -, hwoken⟩ := pktComplete_cases h
  obtain ⟨rfl, rfl⟩ := List.cons.inj (hu.symm.trans hu')
  have hdone : s.pktDone = false := (hs.tracked.busy hd).2.1
  have hdescs := hr.descs
  rw [hw, hu] at hdescs
  simp only [length_cons, length_nil] at hdescs
  refine hr.next hwoken.regs hwoken.drainState ?_ ?_ ?_ ?_ ?_
  · rw [hwoken.engine]
    rfl
  · rw [hwoken.engine]
    exact fun p hp => hp
  · rw [hwoken.engine]
    show s.done.length ≤ (s.done ++ [_]).length
    simp
  · rw [hwoken.engine, hwoken.cache]
    show s.rxFifo.fifo.length + 0 ≤ rest.length
    omega
  · unfold RxPath.rank
    rw [hwoken.engine, hdone, hw]
    show 3 * s.rxFifo.fifo.length + 0 + 1 < _
    simp

theorem tick_ok {t : RxPath} (hc : Clocked s) (hr : Ready s) (hw : s.HasWork)
    (h : rxStateMachine P { s with tickEvent := false } = .ok t) :
    s.step P (.tick false) = .ok { t with txTick := false, tickEvent := t.rxTick || false } := by
  have hrx := hc.work hr.running hr.en hw
  have htick := hc.clock hr.running hrx
  show s.tick P false = _
  unfold RxPath.tick smTick
  rw [if_pos htick, if_pos hrx, h]
  rfl

theorem taken (hr : Ready s) (hs : Lined s) (hc : Clocked s) (hdone : s.pktDone = true) :
    ∃ s', s.step P (.tick false) = .ok s' ∧ Advances s s' := by
  obtain ⟨t, ht, -⟩ := (afterPacket_ends (P := P) (s := { s with
    tickEvent := false, pktDone := false, rxDmaPacket := false }) hs.held hr.gran).exists
  have hsm : rxStateMachine P { s with tickEvent := false } = .ok t := by
    unfold RxPath.rxStateMachine
    rwa [if_neg (by simp [hr.en]), if_pos hdone]
  refine ⟨_, tick_ok hc hr (.inl hdone) hsm, ?_⟩
  have hi := Idled.afterPacket ht
  have hd := hs.tracked.dma_of_pktDone hdone
  refine hr.next hi.regs hi.drainState ?_ ?_ ?_ ?_ ?_
  · show t.accepted = _
    rw [hi.engine]
  · show ∀ p ∈ t.rxFifo.packets, _
    rw [hi.engine]
    exact fun p hp => hp
  · show _ ≤ t.done.length
    rw [hi.engine]
  · show t.rxFifo.fifo.length + t.dma.length ≤ t.cache.unusedCache.length
    rw [hi.engine, hi.cache.unused]
    exact hr.descs
  · show 3 * t.rxFifo.fifo.length + 2 * t.dma.length + (if t.pktDone then 1 else 0) < s.rank
    rw [hi.engine, RxPath.rank, hdone]
    simp

theorem sends (hr : Ready s) (hs : Lined s) (hc : Clocked s) (hd : s.dma = [])
    (hdone : s.pktDone = false) (hne : s.rxFifo.fifo ≠ []) :
    ∃ s', s.step P (.tick false) = .ok s' ∧ Advances s s' := by
  obtain ⟨e, l, hf⟩ := exists_cons_of_ne_nil hne
  have hdescs := hr.descs
  rw [hf, hd] at hdescs
  simp only [length_cons, length_nil] at hdescs
  have hu : s.cache.unusedCache ≠ [] := fun hnil => by
    rw [hnil, length_nil] at hdescs
    omega
  have hdma : s.rxDmaPacket = false := by
    rw [Bool.eq_false_iff]
    intro h
    rcases hs.tracked.waits h with h | h
    · simp [hdone] at h
    · exact h hd
  have hempty : s.rxFifo.empty = false := by
    rw [Bool.eq_false_iff]
    exact fun h => hne (hs.fifo.empty_iff.1 h)
  obtain ⟨t, w, ht, hq⟩ := sendFront_ok (s := { s with tickEvent := false }) { hs with } hf hu
    (hr.fits e.packet (by simp [PacketFifo.packets, hf]))
  have hsm : rxStateMachine P { s with tickEvent := false } = .ok t := by
    unfold RxPath.rxStateMachine
    rw [if_neg (by simp [hr.en]), if_neg (by simp [hdone]), if_neg (by simp [hdma]),
      if_neg hu, if_neg (by simp [hempty])]
    exact ht
  refine ⟨_, tick_ok hc hr (.inr ⟨hd, hne, hu⟩) hsm, ?_⟩
  have hdma : t.dma = [w] := by
    rw [hq.dma]
    show s.dma ++ [w] = [w]
    rw [hd]
    rfl
  refine hr.next hq.regs hq.drainState hq.accepted ?_ hq.done.ge ?_ ?_
  · intro p hp
    have hp : p ∈ t.rxFifo.packets := hp
    rw [PacketFifo.packets, hq.fifo] at hp
    rw [PacketFifo.packets, hf]
    exact mem_cons_of_mem _ hp
  · show t.rxFifo.fifo.length + t.dma.length ≤ t.cache.unusedCache.length
    rwa [hq.fifo, hdma, hq.unused]
  · show 3 * t.rxFifo.fifo.length + 2 * t.dma.length + (if t.pktDone then 1 else 0) < s.rank
    rw [hq.fifo, hdma, hq.pktDone, RxPath.rank, hf, hd, hdone]
    simp only [length_cons, length_nil]
    omega

theorem next_step (hr : Ready s) (hs : Lined s) (hc : Clocked s) (hpos : 0 < s.rank) :
    ∃ o, (o = .tick false ∨ o = .dmaDone .pkt) ∧ ∃ s', s.step P o = .ok s' ∧ Advances s s' := by
  by_cases hd : s.dma = []
  · cases hdone : s.pktDone with
    | true => exact ⟨_, .inl rfl, hr.taken hs hc hdone⟩
    | false =>
      refine ⟨_, .inl rfl, hr.sends hs hc hd hdone fun hnil => ?_⟩
      simp [RxPath.rank, hd, hdone, hnil] at hpos
  · exact ⟨_, .inr rfl, hr.dmaDone hs hd⟩

theorem delivers (hr : Ready s) (hs : Lined s) (hc : Clocked s) :
    ∃ ops s', (∀ o ∈ ops, o = .tick false ∨ o = .dmaDone .pkt) ∧ run (step P) s ops = .ok s'
      ∧ Lined s' ∧ s'.accepted = s.accepted ∧ s'.rank = 0 := by
  by_cases hpos : s.rank = 0
  · exact ⟨[], s, by simp, rfl, hs, rfl, hpos⟩
  obtain ⟨ops, t, hops, -, hrun, ht⟩ := @run_of_rank _ _ _ (step P) _ _ _ (fun _ _ => True)
    (fun o => o = .tick false ∨ o = .dmaDone .pkt)
    (fun t r => Ready t ∧ Lined t ∧ Clocked t ∧ t.accepted = s.accepted ∧ t.rank = r ∧ 0 < r)
    (fun t => Lined t ∧ t.accepted = s.accepted ∧ t.rank = 0)
    (fun t r ⟨hr, hs, hc, hacc, hrank, hpos⟩ => by
      subst hrank
      obtain ⟨o, ho, t', hstep, hadv⟩ := hr.next_step (P := P) hs hc hpos
      have hplain : o.plain = true := by
        rcases ho with rfl | rfl <;> rfl
      have hs' := hs.step hplain hstep
      have hc' := hc.step hs.tracked hs.fifo hstep
      refine ⟨o, ho, trivial, t', hstep, ?_⟩
      by_cases hzero : t'.rank = 0
      · exact .inl ⟨hs', hadv.accepted.trans hacc, hzero⟩
      · exact .inr ⟨t'.rank, hadv.rank, hadv.ready, hs', hc', hadv.accepted.trans hacc, rfl,
          Nat.pos_of_ne_zero hzero⟩)
    s s.rank ⟨hr, hs, hc, rfl, rfl, Nat.pos_of_ne_zero hpos⟩
  exact ⟨ops, t, hops, hrun, ht⟩

end Ready

theorem Lined.all_reported (hs : Lined s) (h : s.rank = 0) :
    s.delivered.map Prod.fst = s.accepted ∧ s.done.map RxDone.packet = s.accepted := by
  have hnil : s.rxFifo.fifo = [] ∧ s.dma = [] := by
    unfold rank at h
    exact ⟨length_eq_zero_iff.1 (by omega), length_eq_zero_iff.1 (by omega)⟩
  have hdel : s.delivered.map Prod.fst = s.accepted := by
    rw [hs.accepted]
    simp [PacketFifo.packets, hnil.1]
  refine ⟨hdel, ?_⟩
  rw [← hdel]
  have hlen := (hs.idle hnil.2).1
  refine ext_getElem? fun i => ?_
  rw [getElem?_map, getElem?_map]
  cases hi : s.done[i]? with
  | none =>
    rw [getElem?_eq_none_iff] at hi
    rw [getElem?_eq_none_iff.2 (by omega)]
    rfl
  | some x =>
    obtain ⟨c, p, ws, -, hp, -, -, hx, -⟩ := hs.reports i x hi
    simp [hp, hx]

/-- Each packet goes whole into the buffer of the next descriptor, which is reported with the end of
a packet. Packets that are shorter than the buffers get there. -/
theorem packets_delivered {base len size : ℕ} {max : BitVec 32} {ops : List Op}
    (hops : ∀ o ∈ ops, o.plain = true)
    (hrun : run (step P) (init base len size max) ops = .ok s) :
    s.accepted = s.delivered.map Prod.fst ++ s.rxFifo.packets
      ∧ s.issued = s.delivered.flatMap Prod.snd
      ∧ (∀ (i : ℕ) p ws, s.delivered[i]? = some (p, ws) →
        ∃ c, s.cache.reads[i]? = some c ∧ Fills c p ws)
      ∧ (∀ (i : ℕ) x, s.done[i]? = some x → ∃ c p ws, s.cache.reads[i]? = some c
        ∧ s.delivered[i]? = some (p, ws) ∧ Reports c p x)
      ∧ s.cache.returned = s.done.map RxDone.cached
      ∧ (s.Ready → ∃ ops' s', (∀ o ∈ ops', o = .tick false ∨ o = .dmaDone .pkt)
        ∧ run (step P) s ops' = .ok s'
        ∧ s'.delivered.map Prod.fst = s.accepted ∧ s'.done.map RxDone.packet = s.accepted) := by
  obtain ⟨hs, hc⟩ : Lined s ∧ Clocked s :=
    (admits_of_forall (C := fun _ o => o.plain = true) (fun _ _ h => h) hops).inv
      (I := fun s => Lined s ∧ Clocked s)
      (fun _ _ _ hs ho h => ⟨hs.1.step ho h, hs.2.step hs.1.tracked hs.1.fifo h⟩)
      ⟨.init base len size max, .init base len size max⟩ hrun
  have hissued := hs.tracked.all
  rw [hs.tracked.first hs.offset, append_nil] at hissued
  refine ⟨hs.accepted, hissued, hs.fills, hs.reports, hs.returned, fun hr => ?_⟩
  obtain ⟨ops', s', hops', hrun', hs', hacc, hrank⟩ := hr.delivers (P := P) hs hc
  obtain ⟨hdel, hdone⟩ := hs'.all_reported hrank
  exact ⟨ops', s', hops', hrun', hdel.trans hacc, hdone.trans hacc⟩

/-- The receiver is set up with legacy descriptors for buffers of 256 bytes, and packets of the
given lengths come. -/
def plainOps (lengths : List ℕ) : List Op :=
  [.writeRctl 0x30002, .writeRdt 2, .fetchDelayEvent,
    .fetchEvent [⟨0x1000, 0x2000⟩, ⟨0x3000, 0x4000⟩]]
    ++ lengths.map fun n => .ethRxPkt ⟨List.replicate n 1, n, n⟩

theorem plainOps_run : Ends (run (step splitParams) (init 4096 8 8 4096) (plainOps [60, 64]))
    fun s => s.accepted.length = 2 ∧ s.Ready := by decide +kernel

/-- Two packets wait and get to the two descriptors. -/
theorem packets_delivered_plainOps : ∃ s ops' s',
    run (step splitParams) (init 4096 8 8 4096) (plainOps [60, 64]) = .ok s
      ∧ s.accepted.length = 2 ∧ run (step splitParams) s ops' = .ok s'
      ∧ s'.done.map RxDone.packet = s.accepted := by
  obtain ⟨s, hs, hlen, hr⟩ := plainOps_run.exists
  obtain ⟨-, -, -, -, -, h⟩ := packets_delivered (P := splitParams) (by decide) hs
  obtain ⟨ops', s', -, hrun, -, hdone⟩ := h hr
  exact ⟨s, ops', s', hs, hlen, hrun, hdone⟩

/-- A packet of 300 bytes is accepted, and the simulation stops at the buffer of 256 bytes it is to
be written to. -/
theorem long_packet_stops : ∃ s,
    run (step splitParams) (init 4096 8 8 4096) (plainOps [300]) = .ok s
      ∧ s.accepted.length = 1 ∧ s.descSize = 256 ∧ s.delivered = []
      ∧ s.step splitParams (.tick false)
        = .error (.assertion "packet->length < igbe->regs.rctl.descSize()") := by
  refine Ends.exists (P := fun s : RxPath => s.accepted.length = 1 ∧ s.descSize = 256
    ∧ s.delivered = [] ∧ s.step splitParams (.tick false) = .error _) ?_
  decide +kernel

end RxPath

end Gem5
