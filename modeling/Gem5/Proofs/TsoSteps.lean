import Gem5.Proofs.TsoStage

/-!
# From stage to stage

What is not about the packet being gathered leaves a job at its stage. The state machine and the
ends of DMAs take it to the next one, without a failure: whatever they assert of the descriptors
holds of those of a job.
-/

namespace Gem5

open Bytes Machine TxPath List

namespace TsoJob

variable {P : NicParams} {j : TsoJob P} {s₀ s s' t : TxPath} {rest : List TxDesc} {w k fill off : ℕ}
  {p : EthPacket} {c : Cached TxDesc} {u : List (Cached TxDesc)}

theorem pushed_of_engine (he : s'.toTxEngine = s.toTxEngine) (hs : s'.sent = s.sent) :
    s'.pushed = s.pushed := by
  rw [pushed, pushed, he, hs]

theorem Alike.step {o : Op} (ho : ¬ o.IsEngine) (hfeeds : j.Feeds s₀ rest s o)
    (h : s.step P o = .ok s') : j.Alike s₀ rest s s' := by
  obtain ⟨he, hs, -, new, hnew, hu, hr⟩ := Extended.step ho h
  refine ⟨⟨s.txFifo, he⟩, pushed_of_engine he hs, ?_, ?_, ?_, ?_⟩
  · intro hne
    rw [hu]
    exact append_ne_nil_of_left_ne_nil hne new
  · intro cur hcur
    refine hcur.extend hu hr ?_
    rw [hnew]
    cases o with
    | fetchEvent buf => exact hfeeds
    | _ =>
      obtain ⟨used, hpost, htaken⟩ := hcur.taken
      show s₀.taken s ++ [] <+: j.posted rest
      rw [append_nil, hpost, htaken, prefix_append_right_inj]
      exact take_prefix _ _
  · intro _ hawake hcap hd hen hne
    have hfifo : s'.txFifo = s.txFifo := congrArg TxEngine.txFifo he
    rw [hfifo] at hcap ⊢
    rcases ticks_step ho h hd hen with htick | ⟨hrun, hen', hsame, htick, hwire⟩
    · exact .inl htick
    · rcases hawake hcap hrun hen' (hsame ▸ hne) with ht | hf | hw
      · exact .inl (htick ht)
      · exact .inr (.inl hf)
      · refine .inr (.inr ?_)
        rcases hwire with hwire | hnil
        · rwa [hwire]
        · exact absurd hnil hne
  · intro _ halert hd hen
    rcases ticks_step ho h hd hen with htick | ⟨hrun, hen', -, htick, -⟩
    · exact htick
    · exact htick (halert hrun hen')

theorem Alike.txWire {x : Wire} (hq : s.txFifo.Accounted) (h : s.txWire x = .ok s') :
    j.Alike s₀ rest s s' := by
  have hcache := txWire_cache h
  have hqueue : ∀ cur, j.Queue s₀ rest s cur → j.Queue s₀ rest s' cur := fun cur hcur =>
    hcur.congr (by rw [hcache]) (by rw [hcache])
  have hunused : s.cache.unusedCache ≠ [] → s'.cache.unusedCache ≠ [] := fun hne => by
    rwa [hcache]
  cases hf : s.txFifo.fifo with
  | nil =>
    obtain rfl := Except.ok.inj ((txWire_nil hq hf).symm.trans h)
    exact ⟨⟨s.txFifo, rfl⟩, rfl, hunused, hqueue, fun _ hawake => hawake, fun _ halert => halert⟩
  | cons e l =>
    obtain ⟨q, -, -, hl, hmax, hbusy, hfree, htakes, hatOnce⟩ := txWire_cons hq hf
    have hpushed : s.sent ++ [e.packet] ++ q.packets = s.pushed := by
      simp [TxPath.pushed, PacketFifo.packets, hf, hl]
    cases x with
    | refuses =>
      by_cases hw : s.onWire = 0
      · simp [hfree hw] at h
      · obtain rfl := Except.ok.inj ((hbusy hw).symm.trans h)
        exact ⟨⟨s.txFifo, rfl⟩, rfl, hunused, hqueue, fun _ hawake => hawake, fun _ halert => halert⟩
    | takes =>
      obtain rfl := Except.ok.inj (htakes.symm.trans h)
      exact ⟨⟨q, rfl⟩, hpushed, hunused, hqueue, fun _ _ _ _ _ _ => .inr (.inr (Nat.succ_ne_zero _)),
        fun _ halert => halert⟩
    | takesAtOnce =>
      obtain rfl := Except.ok.inj (hatOnce.symm.trans h)
      refine ⟨⟨q, rfl⟩, hpushed, hunused, hqueue, fun _ _ _ hd _ hne => .inl ?_,
        fun _ halert hd hen => ?_⟩
      · have hleft : s.cache.descLeft ≠ 0 := fun h => hne (unusedCache_of_descLeft h)
        have hrun : s.drainState = .running := hd
        simp [ethTxDone, hleft, hrun]
      · have htick : s.txTick = true := halert hd hen
        simp [ethTxDone, htick]

/-- What the state machine does to a job: it takes it on, or it waits for descriptors or for space in
the FIFO, or it has just pushed the last segment. -/
def Moved (j : TsoJob P) (s₀ : TxPath) (rest : List TxDesc) (s : TxPath) (w : ℕ) (s' : TxPath) :
    Prop :=
  (∃ w' < w, j.Stage s₀ rest s' w') ∨ (j.Stage s₀ rest s' w ∧ Still s s' ∧ s'.txTick = false)
    ∨ (j.Done s₀ s' ∧ (s'.drainState ≠ .draining → s'.txFifoTick = true))

theorem Blank.withPacket (h : Blank P s.toTxEngine) :
    Blank P (s.withPacket (s.txPacket.getD (.alloc P.txPacketSize))).toTxEngine := by
  intro p hp
  obtain rfl := Option.some.inj hp
  cases hs : s.txPacket with
  | none => exact ⟨rfl, rfl⟩
  | some p => exact h p hs

theorem Holds.withPacket (h : j.Holds s.toTxEngine k fill) :
    s.withPacket (s.txPacket.getD (.alloc P.txPacketSize)) = s := by
  obtain ⟨p, hp, -⟩ := h
  have hget : s.txPacket.getD (.alloc P.txPacketSize) = p := by rw [hp]; rfl
  rw [hget, TxPath.withPacket, ← hp]

theorem Stage.withPacket (h : j.Stage s₀ rest s w) (hdone : s.pktDone = false) :
    j.Stage s₀ rest (s.withPacket (s.txPacket.getD (.alloc P.txPacketSize))) w := by
  cases h with
  | waiting he hq ho ha =>
    exact .waiting { he with blank := he.blank.withPacket } { hq with } ho ha
  | context he hd hq ho ha =>
    exact .context { he with blank := he.blank.withPacket } hd { hq with } ho ha
  | header he hds hd hu hq ho =>
    exact .header { he with blank := he.blank.withPacket } hds hd hu { hq with } ho
  | gathering he hr hq ho ha =>
    rcases he.packet with ⟨rfl, hh, hb, hd⟩ | ⟨hpos, hh, hp, hm⟩
    · exact .gathering { he with packet := .inl ⟨rfl, hh, hb.withPacket, hd⟩ } hr { hq with } ho ha
    · rw [hp.withPacket]
      exact .gathering he hr hq ho ha
  | fetching he hr hu hq ho =>
    rw [he.packet.withPacket]
    exact .fetching he hr hu hq ho
  | pending he | last he => rw [he.done] at hdone; cases hdone

theorem Stage.idle (h : j.Stage s₀ rest s w) (hr : Reserved s.toTxEngine s.cache.unusedCache)
    (hdone : s.pktDone = false) (hp : s.txPacket.getD (.alloc P.txPacketSize) = p)
    (hidle : s.pktWaiting = true ∨ s.cache.unusedCache = []) {v : TxPath}
    (hv : Quiet (s.withPacket p) v) : j.Moved s₀ rest s w { v with txTick := false } := by
  have hw := h.withPacket hdone
  rw [hp] at hw
  have hpacket : Still s (s.withPacket p) := ⟨rfl, rfl, rfl, rfl, rfl, rfl, rfl⟩
  have hst : Still s v := hpacket.trans (.of_quiet hv)
  refine .inr (.inl ⟨hw.alike ⟨⟨s.txFifo, hv.engine⟩, pushed_of_engine hv.engine hv.sent, ?_, ?_, ?_,
    ?_⟩, { hst with }, rfl⟩)
  · intro hne
    exact hv.cache.unused ▸ hne
  · intro cur hcur
    exact hcur.congr hv.cache.unused hv.cache.reads
  · intro hd _ _ _ _ hne
    rcases hidle with hwait | hnil
    · simp [hr.waiting, show s.dma = none from hd] at hwait
    · exact absurd (hv.cache.unused.trans hnil) hne
  · intro hd
    simp [show s.pktDone = true from hd] at hdone

theorem descs_ne_nil (j : TsoJob P) : ∃ d ds, j.descs = d :: ds ∧ j.header.length ≤ d.getLen
    ∧ d.isData = true := by
  have hlen := j.tcp.length
  cases hds : j.descs with
  | nil =>
    have hdata := congrArg List.length j.data
    rw [hds, flatMap_nil, length_nil, length_append] at hdata
    omega
  | cons d ds =>
    exact ⟨d, ds, rfl, j.first d (by rw [hds]; rfl), j.isData d (by rw [hds]; exact mem_cons_self)⟩

theorem header_length_le (j : TsoJob P) : j.header.length ≤ 256 := by
  have hctx : j.context.isAdvDesc = false := by
    simp [TxDesc.isAdvDesc, TxDesc.isTypes, j.type, TxDesc.cnxt, TxDesc.advdata, TxDesc.advcnxt]
  have hbits := TxDesc.bits_lt j.context.d2 40 8
  rw [← j.hdrlen, TxDesc.hdrlen, hctx, if_neg Bool.false_ne_true]
  omega

theorem Opening.fetchHeader (he : j.Opening s.toTxEngine) (hq : j.Queue s₀ rest s (j.descs ++ rest))
    (ho : j.Out s₀ s 0) (hu : s.cache.unusedCache = c :: u) :
    Ends (s.fetchHeader c.desc) fun v => v.pktWaiting = true
      ∧ j.Stage s₀ rest { v with txTick := false } (4 * j.payload.length + 2) := by
  obtain ⟨d, ds, hds, hfirst, hdata⟩ := j.descs_ne_nil
  rw [hds] at hq
  have hc := hq.front hu
  have hlen : c.desc.getLen = d.getLen := by rw [← c.desc.getLen_setDd, hc, d.getLen_setDd]
  have hisData : c.desc.isData = true := by rw [← c.desc.isData_setDd, hc, d.isData_setDd, hdata]
  have hbuf : c.desc.getBuf = d.getBuf := by rw [← c.desc.getBuf_setDd, hc, d.getBuf_setDd]
  have h256 := j.header_length_le
  have hok : s.fetchHeader c.desc = .ok { s with
      pktWaiting := true, dma := some (.header c.desc.getBuf s.tsoHeaderLen) } := by
    unfold TxPath.fetchHeader
    rw [if_pos ⟨he.useTso, he.unloaded⟩]
    refine bind_ok.2 ⟨(), require_ok.2 ⟨hisData, ?_⟩, bind_ok.2 ⟨(), require_ok.2 ?_, rfl⟩⟩
    · rwa [he.headerLen, hlen]
    · rw [he.headerLen]
      exact h256
  refine .of_ok hok ⟨rfl, .header { he with } hds ?_ ?_ { hq with } ho⟩
  · rw [← hbuf, ← he.headerLen]
  · exact hu ▸ cons_ne_nil _ _

theorem Waiting.loadContext (he : Waiting P s.toTxEngine)
    (hq : j.Queue s₀ rest s (j.posted rest)) (hu : s.cache.unusedCache = c :: u) :
    s.takeContexts (c :: u) = (s.loadContext c.desc).usedDesc c u TxDesc.setDd
      ∧ j.Opening (s.loadContext c.desc).toTxEngine
      ∧ j.Queue s₀ rest ((s.loadContext c.desc).usedDesc c u TxDesc.setDd) (j.descs ++ rest)
      ∧ (s.loadContext c.desc).dma = none := by
  have hc := hq.front hu
  have hctx : c.desc.isContext = true := by
    rw [← c.desc.isContext_setDd, hc, TxDesc.isContext_setDd, j.isContext]
  have htype : c.desc.getType = TxDesc.cnxt := by
    rw [← c.desc.getType_setDd, hc, TxDesc.getType_setDd, j.type]
  have htse : c.desc.tse = true := by rw [← c.desc.tse_setDd, hc, TxDesc.tse_setDd, j.tse]
  have hload : s.loadContext c.desc = { s with
      tsoHeaderLen := c.desc.hdrlen
      tsoMss := c.desc.mss
      useTso := true
      tsoTotalLen := c.desc.getLen
      tsoLoadedHeader := false
      tsoDescBytesUsed := 0
      tsoUsedLen := 0
      tsoPrevSeq := 0
      tsoPktHasHeader := false
      tsoPkts := 0
      tsoCopyBytes := 0 } := if_pos ⟨htype, htse⟩
  refine ⟨?_, ?_, ?_, ?_⟩
  · rw [takeContexts, if_pos ⟨he.useTso, hctx⟩]
    refine takeContexts_of_useTso ?_ u
    rw [hload]
  · rw [hload]
    refine ⟨⟨rfl, ?_, ?_, ?_⟩, rfl, rfl, rfl, rfl, rfl, he.done, he.blank⟩
    · show c.desc.hdrlen = j.header.length
      rw [← c.desc.hdrlen_setDd, hc, TxDesc.hdrlen_setDd, j.hdrlen]
    · show c.desc.mss = j.mss
      rw [← c.desc.mss_setDd, hc, TxDesc.mss_setDd]
      rfl
    · show c.desc.getLen = j.payload.length
      rw [← c.desc.getLen_setDd, hc, TxDesc.getLen_setDd, j.paylen]
  · refine hq.pop hu rfl ?_
    rw [hload]
    rfl
  · rw [hload]
    exact he.dma

theorem Awake.of_nil (h : s.cache.unusedCache = []) : j.Awake s :=
  fun _ _ _ hne => absurd h hne

theorem loadContext_out (d : TxDesc) (ho : j.Out s₀ s k) : j.Out s₀ (s.loadContext d) k := by
  have hst := Still.loadContext s d
  refine ho.congr ?_
  simp only [pushed, PacketFifo.packets, hst.fifo, hst.sent]

theorem Alike.quiet (h : Quiet s s') : j.Alike s₀ rest s s' := by
  have hfifo : s'.txFifo = s.txFifo := congrArg TxEngine.txFifo h.engine
  refine ⟨⟨s.txFifo, h.engine⟩, pushed_of_engine h.engine h.sent, fun hne => h.cache.unused ▸ hne,
    fun cur hcur => hcur.congr h.cache.unused h.cache.reads, fun _ hawake => ?_, fun _ halert => ?_⟩
  · rwa [Awake, hfifo, h.drainState, en, h.tctl, h.cache.unused, h.txTick, h.onWire]
  · rwa [Alert, h.drainState, en, h.tctl, h.txTick]

theorem reserveNext_nil (hs : s.cache.Phases) (hu : s.cache.unusedCache = []) :
    Ends (s.reserveNext p) (Quiet s) := by
  have hsize : s.getPacketSize p = .ok (0, s) := by
    unfold getPacketSize
    rw [hu]
  unfold TxPath.reserveNext
  rw [hsize]
  exact writeback_ends hs 0

theorem length_slice_payload {pos n : ℕ} (h : pos + n ≤ j.payload.length) :
    (slice j.payload pos n).length = n := length_slice h

theorem withHeader_blank {header : List Byte} (hp : p.data = []) :
    (TxPath.withHeader p header).data = header := by
  have hlen : (List.replicate header.length (0 : Byte)).length = header.length :=
    length_replicate
  rw [TxPath.withHeader, hp, nil_append, splice, hlen, Nat.sub_zero, Nat.zero_add,
    take_zero, take_of_length_le le_rfl, drop_of_length_le hlen.le]
  simp

theorem Gathering.copy {d : TxDesc} (he : j.Gathering s.toTxEngine k fill)
    (hoff : s.tsoDescBytesUsed ≤ d.getLen) (hpos : k * j.mss + fill ≤ j.payload.length)
    (hp : s.txPacket = some p) :
    (s.headed p).data = j.header ++ slice j.payload (k * j.mss) fill
      ∧ (s.headed p).bufLength = P.txPacketSize
      ∧ s.copyBytes p.length d = min (j.mss - fill) (d.getLen - s.tsoDescBytesUsed)
      ∧ p.length + (if s.tsoPktHasHeader then 0 else s.tsoHeaderLen) = j.header.length + fill := by
  have hsub : ∀ a b, b ≤ a → addrSub a b = a - b := fun a b h => if_pos h
  rcases he.packet with ⟨rfl, hh, hb, -⟩ | ⟨hfill, hh, ⟨p', hp', hbuf, hdata⟩, -⟩
  · obtain ⟨hdata, hbuf⟩ := hb p hp
    have hhead : s.headed p = TxPath.withHeader p j.header := by
      rw [headed, hh, if_neg Bool.false_ne_true, he.headerLen, he.header]
    refine ⟨?_, ?_, ?_, ?_⟩
    · rw [hhead, withHeader_blank hdata, slice, take_zero, append_nil]
    · rwa [hhead]
    · rw [copyBytes, hh, if_neg Bool.false_ne_true, hsub _ _ hoff, he.mss, Nat.sub_zero]
    · rw [EthPacket.length, hdata, hh, if_neg Bool.false_ne_true, he.headerLen, length_nil,
        Nat.zero_add, Nat.add_zero]
  · obtain rfl := Option.some.inj (hp.symm.trans hp')
    have hlen : p.length = j.header.length + fill := by
      rw [EthPacket.length, hdata, length_append, length_slice_payload hpos]
    have hhead : s.headed p = p := by rw [headed, hh, if_pos rfl]
    have hfl := he.fill_lt
    refine ⟨by rw [hhead, hdata], by rw [hhead, hbuf], ?_, by rw [hh, if_pos rfl, hlen, Nat.add_zero]⟩
    rw [copyBytes, hh, if_pos rfl, hsub _ _ hoff, he.mss, he.headerLen, hlen,
      hsub _ _ (by omega), show j.mss + j.header.length - (j.header.length + fill) = j.mss - fill by
        omega]

theorem Gathering.reserveNext {d : TxDesc} {todo : List TxDesc} (he : j.Gathering s.toTxEngine k fill)
    (hrem : j.Remaining d todo s.tsoDescBytesUsed (k * j.mss + fill))
    (hq : j.Queue s₀ rest s (d :: todo ++ rest)) (ho : j.Out s₀ s k)
    (hr : Reserved s.toTxEngine s.cache.unusedCache) (hp : s.txPacket = some p)
    (hdone : s.pktDone = false) (hu : s.cache.unusedCache = c :: u) :
    Ends (s.reserveNext p) fun s' =>
      j.Stage s₀ rest s' (4 * (j.payload.length - (k * j.mss + fill)))
      ∨ (j.Stage s₀ rest s' (4 * (j.payload.length - (k * j.mss + fill)) + 1) ∧ Still s s'
        ∧ s'.txTick = false) := by
  have hoff := hrem.off_lt
  have hpos := hrem.pos_lt
  have hfl := he.fill_lt
  have hfits : j.header.length + j.mss ≤ P.txPacketSize := j.fits
  have h256 := j.header_length_le
  have hmss : j.mss < 2 ^ 16 := TxDesc.bits_lt _ _ _
  have hlt := d.getLen_lt
  have hc := hq.front hu
  have hlen : c.desc.getLen = d.getLen := by rw [← c.desc.getLen_setDd, hc, d.getLen_setDd]
  have hbufeq : c.desc.getBuf = d.getBuf := by rw [← c.desc.getBuf_setDd, hc, d.getBuf_setDd]
  have hisData : c.desc.isData = true := by
    rw [← c.desc.isData_setDd, hc, d.isData_setDd, j.isData d (hrem.mem d mem_cons_self)]
  obtain ⟨hdata, hbuf, hcopy, hsum⟩ := he.copy (d := c.desc) (by omega) (by omega) hp
  rw [hlen] at hcopy
  have hheaded : (s.headed p).length = j.header.length + fill := by
    rw [EthPacket.length, hdata, length_append, length_slice_payload (by omega)]
  have hcl : p.length + s.copyLen p c.desc
      = j.header.length + fill + min (j.mss - fill) (d.getLen - s.tsoDescBytesUsed) := by
    rw [copyLen, hcopy]
    omega
  have hpl : p.length ≤ j.header.length + fill := by omega
  refine reserveNext_ends hu he.useTso he.loaded hisData (by omega) (by omega) ?_ ?_ (by omega) ?_ ?_
  · rw [hheaded, hbuf, hcopy]
    omega
  · rw [hcopy, hlen]
    omega
  · intro _ q hres
    obtain ⟨-, -, hfifo, -⟩ := hr.fifo.reserve hres
    refine .inl (.fetching (d := d) ?_ hrem ?_ { hq with } ?_)
    · refine { he.toCutting with
        dma := ?_, descUsed := ?_, copy := hcopy, hasHeader := rfl, done := hdone, packet := ?_ }
      · show some (TxDma.packet (c.desc.getBuf + s.tsoDescBytesUsed) (s.copyBytes p.length c.desc)) = _
        rw [hcopy, hbufeq]
      · show s.tsoDescBytesUsed + s.copyBytes p.length c.desc = _
        rw [hcopy]
      · exact ⟨s.headed p, rfl, hbuf, hdata⟩
    · exact hu ▸ cons_ne_nil _ _
    · refine ho.congr ?_
      simp only [TxPath.pushed, TxPath.fetching, PacketFifo.packets, hfifo]
  · intro hfull
    refine .inr ⟨.gathering { he with } hrem { hq with } ho ?_, ⟨rfl, rfl, rfl, rfl, rfl, rfl, rfl⟩, rfl⟩
    intro hcap _ _ _
    refine .inr (.inl fun hnil => ?_)
    have hres := hr.reserved
    rw [TxEngine.pktLength, TxEngine.inFlight, he.dma, hp] at hres
    have hres : s.txFifo.reserved.toNat = p.length := hres
    have hsize := hr.fifo.size_eq
    rw [show s.txFifo.fifo = [] from hnil, PacketFifo.stored_nil] at hsize
    rw [hr.fifo.avail_toNat] at hfull
    have hcap : j.header.length + j.mss < s.txFifo.maxsize.toNat := hcap
    omega

theorem Stage.processNext (h : j.Stage s₀ rest t w) (hr : Reserved t.toTxEngine t.cache.unusedCache)
    (hph : t.cache.Phases) (hwait : t.pktWaiting = false) (hdone : t.pktDone = false)
    (hne : t.cache.unusedCache ≠ []) (hp : t.txPacket = some p) (hst : Still s t) :
    Ends t.processContextDesc fun v =>
      (v.pktWaiting = true → j.Moved s₀ rest s w { v with txTick := false })
        ∧ (v.pktWaiting = false → Ends (v.reserveNext p) (j.Moved s₀ rest s w)) := by
  have hd := hr.dma_of_not_waiting hwait
  obtain ⟨c, u, hu⟩ := exists_cons_of_ne_nil hne
  cases h with
  | waiting he hq ho ha =>
    obtain ⟨htake, hopen, hqueue, hdma⟩ := he.loadContext hq hu
    have hout : j.Out s₀ ((t.loadContext c.desc).usedDesc c u TxDesc.setDd) 0 :=
      loadContext_out c.desc ho
    refine processContextDesc_ends hne ?_ ?_
    · rw [hu, htake]
      intro hnil
      have hnw : (t.loadContext c.desc).pktWaiting = false := by
        unfold TxPath.loadContext
        split_ifs <;> exact hwait
      refine ⟨fun h => ?_, fun _ => ?_⟩
      · simp [show (t.loadContext c.desc).pktWaiting = true from h] at hnw
      · have hph' : ((t.loadContext c.desc).usedDesc c u TxDesc.setDd).cache.Phases := by
          have hreach := reaches_takeContexts (s := t) _ rfl
          rw [hu, htake] at hreach
          exact Reaches.inv (fun _ _ _ hs h => hs.step h) hph hreach
        refine (reserveNext_nil hph' hnil).mono fun v hv => .inl ⟨_, ?_, Stage.alike
          (s := (t.loadContext c.desc).usedDesc c u TxDesc.setDd)
          (.context hopen hdma hqueue hout (.of_nil hnil)) (.quiet hv)⟩
        omega
    · rw [hu, htake]
      intro c' u' hu'
      rw [advTso_of_useTso (s := (t.loadContext c.desc).usedDesc c u TxDesc.setDd) hopen.useTso]
      refine (Opening.fetchHeader (s := (t.loadContext c.desc).usedDesc c u TxDesc.setDd) hopen
        hqueue hout hu').mono fun v hv => ⟨fun _ => .inl ⟨_, by omega, hv.2⟩, fun hnw => ?_⟩
      simp [hv.1] at hnw
  | context he hd hq ho ha =>
    refine processContextDesc_ends hne ?_ ?_
    · rw [takeContexts_of_useTso he.useTso]
      exact fun hnil => absurd hnil hne
    · rw [takeContexts_of_useTso he.useTso]
      intro c' u' hu'
      rw [advTso_of_useTso he.useTso]
      refine (he.fetchHeader hq ho hu').mono fun v hv => ⟨fun _ => .inl ⟨_, by omega, hv.2⟩,
        fun hnw => ?_⟩
      simp [hv.1] at hnw
  | header he hds hd' => rw [hd] at hd'; cases hd'
  | gathering he hrem hq ho ha =>
    refine processContextDesc_ends hne ?_ ?_
    · rw [takeContexts_of_useTso he.useTso]
      exact fun hnil => absurd hnil hne
    · rw [takeContexts_of_useTso he.useTso]
      intro c' u' hu'
      rw [advTso_of_useTso he.useTso]
      have hok : t.fetchHeader c'.desc = .ok t := if_neg fun h => by simp [he.loaded] at h
      refine .of_ok hok ⟨fun h => ?_, fun _ => ?_⟩
      · simp [hwait] at h
      · refine (he.reserveNext hrem hq ho hr hp hdone hu').mono fun v hv => ?_
        rcases hv with hv | ⟨hv, hstill, htick⟩
        · exact .inl ⟨_, Nat.lt_succ_self _, hv⟩
        · exact .inr (.inl ⟨hv, hst.trans hstill, htick⟩)
  | fetching he => rw [he.dma] at hd; cases hd
  | pending he | last he => rw [he.done] at hdone; cases hdone

theorem Stage.nextPacket (h : j.Stage s₀ rest s w) (hr : Reserved s.toTxEngine s.cache.unusedCache)
    (hph : s.cache.Phases) (hdone : s.pktDone = false) :
    Ends (s.nextPacket P) (j.Moved s₀ rest s w) := by
  refine nextPacket_ends hph rfl (fun hidle v hv => h.idle hr hdone rfl hidle hv)
    fun hwait hne t ht => ?_
  have hpacket : Still s (s.withPacket (s.txPacket.getD (.alloc P.txPacketSize))) :=
    ⟨rfl, rfl, rfl, rfl, rfl, rfl, rfl⟩
  have hstill : Still s t := hpacket.trans (.of_quiet ht)
  refine Stage.processNext ((h.withPacket hdone).alike (.quiet ht))
    ((hr.withPacket P.txPacketSize).framed ht.toFramed) (ht.phases hph) ?_ ?_ ?_ ?_ hstill
  · rwa [ht.engine]
  · rwa [ht.engine]
  · rwa [ht.cache.unused]
  · rw [ht.engine]
    rfl

theorem Out.snoc (h : j.Out s₀ s k) (hp : j.IsSegment k p) (hs : s'.pushed = s.pushed ++ [p]) :
    j.Out s₀ s' (k + 1) := by
  obtain ⟨segs, hlen, hseg, hpushed⟩ := h
  refine ⟨segs ++ [p], by rw [length_append, hlen]; rfl, fun i q hi => ?_,
    by rw [hs, hpushed, append_assoc]⟩
  rcases Nat.lt_or_ge i segs.length with hlt | hge
  · rw [getElem?_append_left hlt] at hi
    exact hseg i q hi
  · rw [getElem?_append_right hge, getElem?_singleton] at hi
    split_ifs at hi with h0
    obtain rfl := Option.some.inj hi
    obtain rfl : i = k := by omega
    exact hp

theorem Finished.push (he : j.Finished s.toTxEngine k)
    (hr : Reserved s.toTxEngine s.cache.unusedCache) (hph : s.cache.Phases) (ho : j.Out s₀ s k) :
    ∃ p q, s.ready = some p ∧ j.Out s₀ (s.handedOver q) (k + 1)
      ∧ Ends (s.askAvailable.pushPacket P p) (Quiet (s.handedOver q)) := by
  obtain ⟨p, hp, hseg⟩ := he.packet
  have hlen := j.tcp.length
  have hpl := hseg.length
  have hready : s.ready = some p := by
    rw [ready, hp]
    exact if_pos ⟨he.done, he.single, by omega⟩
  obtain ⟨-, hne, hres⟩ := hr.of_ready hready
  obtain ⟨q, hq, -, -, hpackets, -⟩ := hr.fifo.push hne hres
  refine ⟨p, q, hready, ho.snoc hseg ?_, ?_⟩
  · rw [pushed, pushed, append_assoc, ← hpackets]
    rfl
  · have hask : s.askAvailable = { s with pktDone := false } := if_pos (by rw [hp]; rfl)
    rw [hask]
    exact pushPacket_ends hph hq

theorem ready_eq_none (h : s.pktDone = false ∨ s.pktMultiDesc = true) : s.ready = none := by
  unfold ready
  split
  · refine if_neg fun hr => ?_
    rcases h with h | h
    · rw [h] at hr
      cases hr.1
    · rw [h] at hr
      cases hr.2.1
  · rfl

theorem Stage.txStateMachine (h : j.Stage s₀ rest s w)
    (hr : Reserved s.toTxEngine s.cache.unusedCache) (hph : s.cache.Phases) :
    Ends (s.txStateMachine P) (j.Moved s₀ rest s w) := by
  by_cases hen : s.en = false
  · have hok : s.txStateMachine P = .ok { s with txTick := false } := if_pos hen
    have hno : ¬ s.en = true := by simp [hen]
    refine .of_ok hok (.inr (.inl ⟨h.alike ⟨⟨s.txFifo, rfl⟩, rfl, id, fun _ hq => { hq with },
      fun _ _ _ _ hen' => absurd hen' hno, fun _ _ _ hen' => absurd hen' hno⟩, ?_, rfl⟩))
    exact ⟨rfl, rfl, rfl, rfl, rfl, rfl, rfl⟩
  rw [TxPath.txStateMachine, if_neg hen]
  have hen : s.en = true := by simpa using hen
  by_cases hdone : s.pktDone = false
  · have hask : s.askAvailable = s := by
      unfold askAvailable
      split_ifs
      · rw [← hdone]
      · rfl
    rw [ready_eq_none (.inl hdone), hask]
    exact h.nextPacket hr hph hdone
  · cases h with
    | waiting he | context he | header he | fetching he => exact absurd he.done hdone
    | gathering he hrem hq ho ha =>
      rcases he.packet with ⟨-, -, -, hd⟩ | ⟨hpos, hh, hp, hm⟩
      · exact absurd hd hdone
      · have hask : s.askAvailable = { s with pktDone := false } := by
          obtain ⟨p, hp, -⟩ := hp
          exact if_pos (by rw [hp]; rfl)
        have hst : j.Stage s₀ rest { s with pktDone := false } _ :=
          .gathering { he with packet := .inr ⟨hpos, hh, hp, hm⟩ } hrem { hq with } ho ha
        rw [ready_eq_none (.inr hm), hask]
        refine (hst.nextPacket { hr with done := by simp } hph rfl).mono fun v hv => ?_
        rcases hv with hv | ⟨hv, hstill, htick⟩ | hv
        · exact .inl hv
        · exact .inr (.inl ⟨hv, { hstill with }, htick⟩)
        · exact .inr (.inr hv)
    | @pending k d todo he hrem hq ho ha =>
      obtain ⟨p, q, hready, hout, hpush⟩ := he.toFinished.push hr hph ho
      rw [hready]
      have hst : j.Stage s₀ rest (s.handedOver q) _ :=
        .gathering (k := k + 1) (d := d) (l := todo)
          { he.toCutting with
            dma := he.dma
            packet := .inl ⟨rfl, he.noHeader, fun p hp => absurd hp (Option.some_ne_none p).symm,
              rfl⟩ } hrem { hq with } hout fun _ hd hen _ => .inl (ha hd hen)
      refine hpush.mono fun v hv => .inl ⟨_, ?_, hst.alike (.quiet hv)⟩
      rw [Nat.add_zero]
      exact Nat.lt_succ_self _
    | last he hk ho ha =>
      obtain ⟨p, q, hready, ⟨segs, hlen, hseg, hpushed⟩, hpush⟩ := he.push hr hph ho
      rw [hready]
      refine hpush.mono fun v hv => .inr (.inr ⟨⟨segs, [], hlen.trans hk, hseg, ?_⟩, fun hd => ?_⟩)
      · rw [append_nil]
        exact (pushed_of_engine hv.engine hv.sent).trans hpushed
      · rw [hv.txFifoTick]
        rw [hv.drainState] at hd
        exact decide_eq_true hd

theorem Stage.woken (hw : Woken t s') (h : j.Stage s₀ rest { t with txTick := true } w) :
    j.Stage s₀ rest s' w := by
  have htick : s'.drainState = .running → s'.txTick = true := fun hd => by
    refine hw.txTick ?_
    rw [← hw.drainState, hd]
    exact DrainState.noConfusion
  exact h.alike ⟨⟨t.txFifo, hw.engine⟩, pushed_of_engine hw.engine hw.sent,
    fun hne => hw.cache.unused ▸ hne, fun _ hq => hq.congr hw.cache.unused hw.cache.reads,
    fun _ _ _ hd _ _ => .inl (htick hd), fun _ _ hd _ => htick hd⟩

theorem bytes_cons (d : TxDesc) (l : List TxDesc) :
    j.bytes (d :: l) = readMem j.mem d.getBuf d.getLen ++ j.bytes l := flatMap_cons

theorem Remaining.of_bytes {pos : ℕ} {l : List TxDesc} (hl : j.bytes l = j.payload.drop pos)
    (hpos : pos < j.payload.length) (hmem : ∀ x ∈ l, x ∈ j.descs) :
    ∃ d todo, l = d :: todo ∧ j.Remaining d todo 0 pos := by
  cases l with
  | nil =>
    have hlen := congrArg List.length hl
    rw [bytes, flatMap_nil, length_nil, length_drop] at hlen
    omega
  | cons d todo =>
    exact ⟨d, todo, rfl, j.nonempty d (hmem d mem_cons_self), hpos, hl, hmem⟩

theorem Stage.headerComplete {a len : ℕ} {data : List Byte} (h : j.Stage s₀ rest s w)
    (hpay : 0 < j.payload.length) (hr : Reserved s.toTxEngine s.cache.unusedCache)
    (hdma : s.dma = some (.header a len)) (hdata : data = readMem j.mem a len) :
    Ends (s.headerComplete data) fun s' => ∃ w' < w, j.Stage s₀ rest s' w' := by
  cases h with
  | waiting he | gathering he | fetching he | last he => rw [he.dma] at hdma; cases hdma
  | context he hd => rw [hd] at hdma; cases hdma
  | pending he => rw [he.toFinished.dma] at hdma; cases hdma
  | @header d ds he hds hd hne hq ho =>
    obtain ⟨rfl, rfl⟩ := TxDma.header.inj (Option.some.inj (hd.symm.trans hdma))
    obtain ⟨c, u, hu⟩ := exists_cons_of_ne_nil hne
    have hc := hq.front hu
    have hlen : c.desc.getLen = d.getLen := by rw [← c.desc.getLen_setDd, hc, d.getLen_setDd]
    have hfirst : j.header.length ≤ d.getLen := j.first d (by rw [hds]; rfl)
    have hmem : ∀ x ∈ d :: ds, x ∈ j.descs := fun x hx => by rw [hds]; exact hx
    have h256 := j.header_length_le
    have hbytes : readMem j.mem d.getBuf d.getLen ++ j.bytes ds = j.header ++ j.payload := by
      rw [← bytes_cons, ← j.data, hds]
      rfl
    have hheader : data = j.header := by
      have htake := congrArg (List.take j.header.length) hbytes
      rw [take_left, take_append_of_le_length (by rw [length_readMem]; exact hfirst)]
        at htake
      rwa [hdata, ← Nat.add_zero d.getBuf, ← slice_readMem j.mem d.getBuf (n := d.getLen) (by omega)]
    subst hheader
    have hload : (splice s.tsoHeader 0 j.header).take j.header.length = j.header :=
      slice_splice_self (show 0 + j.header.length ≤ s.tsoHeader.length by
        rw [hr.header]
        omega)
    have hcut : ∀ off, j.Gathering { s.headerLoaded j.header with tsoDescBytesUsed := off }.toTxEngine
        0 0 := fun off => { he.toLoaded with
      loaded := rfl
      header := hload
      pkts := he.pkts
      seq := he.seq.trans (Nat.zero_mul _).symm
      used := by
        rw [Nat.zero_mul, Nat.zero_add]
        exact he.used
      fill_lt := j.mss_pos
      dma := rfl
      packet := .inl ⟨rfl, he.noHeader, he.blank, he.done⟩ }
    have hlt : ∀ pos, 4 * (j.payload.length - pos) + 1 < 4 * j.payload.length + 2 := fun pos => by
      omega
    refine (headerComplete_ends hdma hu).mono fun s' hs' => ⟨_, hlt (0 * j.mss + 0), ?_⟩
    rw [hlen, he.headerLen] at hs'
    rcases hs' with ⟨heq, hw⟩ | ⟨hne', hw⟩
    · have hds' : j.bytes ds = j.payload.drop 0 := by
        refine (append_inj hbytes ?_).2
        rw [length_readMem, heq]
      obtain ⟨d', todo, rfl, hrem⟩ := Remaining.of_bytes hds' hpay fun x hx =>
        hmem x (mem_cons_of_mem _ hx)
      refine .woken hw (.gathering (d := d') (l := todo) { hcut 0 with } ?_ ?_ ho
        fun _ _ _ _ => .inl rfl)
      · rwa [Nat.zero_mul]
      · exact hq.pop hu rfl rfl
    · refine .woken hw (.gathering (d := d) (l := ds) { hcut j.header.length with } ?_ { hq with }
        ho fun _ _ _ _ => .inl rfl)
      rw [Nat.zero_mul]
      refine ⟨?_, hpay, ?_, hmem⟩
      · show j.header.length < d.getLen
        omega
      · show (j.bytes (d :: ds)).drop j.header.length = j.payload.drop 0
        rw [bytes_cons, hbytes, drop_left]
        rfl

namespace Remaining

variable {d : TxDesc} {todo : List TxDesc} {pos n : ℕ}

theorem read (h : j.Remaining d todo off pos) (hn : off + n ≤ d.getLen) :
    readMem j.mem (d.getBuf + off) n = slice j.payload pos n := by
  have hdata := congrArg (List.take n) h.data
  have hlen := length_readMem j.mem d.getBuf d.getLen
  rw [bytes_cons, drop_append_of_le_length (by omega),
    take_append_of_le_length (by rw [length_drop]; omega)] at hdata
  rwa [← slice_readMem j.mem d.getBuf hn]

theorem length_le (h : j.Remaining d todo off pos) :
    pos + (d.getLen - off) ≤ j.payload.length := by
  have hlen := congrArg List.length h.data
  have hoff := h.off_lt
  have hpos := h.pos_lt
  rw [bytes_cons, length_drop, length_append, length_readMem, length_drop] at hlen
  omega

theorem advance (h : j.Remaining d todo off pos) (hoff : off + n < d.getLen)
    (hpos : pos + n < j.payload.length) : j.Remaining d todo (off + n) (pos + n) :=
  ⟨hoff, hpos, by rw [← drop_drop, h.data, drop_drop], h.mem⟩

theorem next (h : j.Remaining d todo off pos) (hoff : off + n = d.getLen)
    (hpos : pos + n < j.payload.length) :
    ∃ d' todo', todo = d' :: todo' ∧ j.Remaining d' todo' 0 (pos + n) := by
  refine Remaining.of_bytes ?_ hpos fun x hx => h.mem x (mem_cons_of_mem _ hx)
  have hdata := congrArg (List.drop n) h.data
  rw [drop_drop, drop_drop, bytes_cons, hoff, drop_left' (length_readMem _ _ _)]
    at hdata
  exact hdata

end Remaining

theorem Finished.completed {d : List Byte} (hd : s.dma = none)
    (hseg : j.IsSegment k { p with data := d }) :
    j.Finished ((s.released c u).completed p d).toTxEngine k := by
  unfold released
  split_ifs <;> exact ⟨hd, rfl, rfl, _, rfl, hseg⟩

theorem Cutting.completed {d : List Byte} (he : j.Cutting s.toTxEngine k fill)
    (hused : t.tsoUsedLen = (k + 1) * j.mss) (hne : (k + 1) * j.mss ≠ j.payload.length)
    (hip : Inet.IsIp p.data) (ht : ∃ q p' dma w n, t.toTxEngine = { s.toTxEngine with
      txFifo := q, txPacket := p', dma := dma, pktWaiting := w, tsoDescBytesUsed := n
      tsoUsedLen := t.tsoUsedLen }) :
    j.Cutting (t.completed p d).toTxEngine (k + 1) 0 := by
  obtain ⟨q, p', dma, w, n, ht⟩ := ht
  have htso : t.useTso = true := by rw [ht]; exact he.useTso
  have htot : t.tsoTotalLen = j.payload.length := by rw [ht]; exact he.total
  refine ⟨⟨?_, ?_, ?_, htot⟩, ?_, ?_, ?_, ?_, hused, j.mss_pos⟩
  · show (t.useTso && decide (t.tsoUsedLen ≠ t.tsoTotalLen)) = true
    rw [htso, hused, htot]
    exact decide_eq_true hne
  · show t.tsoHeaderLen = j.header.length
    rw [ht]
    exact he.headerLen
  · show t.tsoMss = j.mss
    rw [ht]
    exact he.mss
  · show t.tsoLoadedHeader = true
    rw [ht]
    exact he.loaded
  · show t.tsoHeader.take j.header.length = j.header
    rw [ht]
    exact he.header
  · show (if t.useTso = true ∧ Inet.IsIp p.data then t.tsoPkts + 1 else t.tsoPkts) = k + 1
    rw [if_pos ⟨htso, hip⟩, ht, ← he.pkts]
  · show (if t.useTso then t.tsoUsedLen else t.tsoPrevSeq) = (k + 1) * j.mss
    rw [if_pos htso, hused]

theorem completed_pushed (d : List Byte) : ((s.released c u).completed p d).pushed = s.pushed := by
  unfold released
  split_ifs <;> rfl

theorem Stage.pktComplete {a len : ℕ} {data : List Byte} (h : j.Stage s₀ rest s w)
    (hph : s.cache.Phases) (hdma : s.dma = some (.packet a len))
    (hdata : data = readMem j.mem a len) :
    Ends (s.pktComplete P data) fun s' => ∃ w' < w, j.Stage s₀ rest s' w' := by
  cases h with
  | waiting he | gathering he | last he => rw [he.dma] at hdma; cases hdma
  | context he hd | header he hds hd => rw [hd] at hdma; cases hdma
  | pending he => rw [he.toFinished.dma] at hdma; cases hdma
  | @fetching k fill off d todo he hrem hne hq ho =>
    obtain ⟨rfl, rfl⟩ := TxDma.packet.inj (Option.some.inj (he.dma.symm.trans hdma))
    set copy := min (j.mss - fill) (d.getLen - off) with hcopy
    obtain ⟨c, u, hu⟩ := exists_cons_of_ne_nil hne
    obtain ⟨p, hp, hbuf, hpdata⟩ := he.packet
    have hoff := hrem.off_lt
    have hpos := hrem.pos_lt
    have hfl := he.fill_lt
    have hle := hrem.length_le
    have hc := hq.front hu
    have hmem := hrem.mem d mem_cons_self
    have hlen : c.desc.getLen = d.getLen := by rw [← c.desc.getLen_setDd, hc, d.getLen_setDd]
    have hisData : c.desc.isData = true := by
      rw [← c.desc.isData_setDd, hc, d.isData_setDd, j.isData d hmem]
    have hvle : c.desc.vle = false := by rw [← c.desc.vle_setDd, hc, d.vle_setDd, j.noVlan d hmem]
    have hread : data = slice j.payload (k * j.mss + fill) copy := by
      rw [hdata, hrem.read (by omega)]
    have hrecv : (received p data).data = j.header ++ slice j.payload (k * j.mss) (fill + copy) := by
      rw [received, hpdata, hread, append_assoc, ← slice_add]
    have hrecvLen : (received p data).length = j.header.length + (fill + copy) := by
      rw [EthPacket.length, hrecv, length_append, length_slice_payload (by omega)]
    have hused : s.arrived.tsoUsedLen = k * j.mss + (fill + copy) := by
      rw [arrived, if_pos he.useTso, he.used, he.copy, Nat.add_assoc]
    have hdma' : s.dma = some (.packet (d.getBuf + off) data.length) := by
      rw [hread, length_slice_payload (by omega)]
      exact he.dma
    have hmore : s.arrived.NeedsMore (received p data) c.desc ↔
        fill + copy < j.mss ∧ k * j.mss + (fill + copy) ≠ j.payload.length := by
      have htso : s.arrived.useTso = true := he.useTso
      have hmss : s.arrived.tsoMss = j.mss := he.mss
      have hhdr : s.arrived.tsoHeaderLen = j.header.length := he.headerLen
      have htot : s.arrived.tsoTotalLen = j.payload.length := he.total
      rw [NeedsMore, hrecvLen, hused, htso, hmss, hhdr, htot]
      simp only [Bool.true_eq_false, and_false, false_or, and_true]
      omega
    refine pktComplete_ends hdma' hp hu (.inr hisData) (by omega) ?_ ?_
    · intro hmore'
      obtain ⟨hlt, hneq⟩ := hmore.1 hmore'
      have hfull : off + copy = d.getLen := by omega
      obtain ⟨d', todo', rfl, hrem'⟩ := hrem.next hfull (by omega)
      refine (partialPacket_ends (s := s.arrived) hu ?_).mono fun s' hs' =>
        ⟨4 * (j.payload.length - (k * j.mss + (fill + copy))) + 1, by omega, .woken hs' ?_⟩
      · rw [hlen, ← hfull]
        exact he.descUsed
      · refine .gathering (d := d') (l := todo') { he.toCutting with
          used := hused
          fill_lt := hlt
          dma := rfl
          packet := .inr ⟨by omega, he.hasHeader, ⟨received p data, rfl, hbuf, hrecv⟩, rfl⟩ } ?_ ?_ ho
            fun _ _ _ _ => .inl rfl
        · rwa [← Nat.add_assoc]
        · exact hq.pop hu rfl rfl
    · intro hnot
      have hcases : fill + copy = j.mss ∨ k * j.mss + (fill + copy) = j.payload.length := by
        by_contra hno
        exact hnot (hmore.2 (by omega))
      have hmul : (k + 1) * j.mss = k * j.mss + j.mss := by rw [Nat.add_mul, Nat.one_mul]
      have hlast : k * j.mss + (fill + copy) = j.payload.length ↔ k + 1 = j.count :=
        last_iff (by omega) (by omega) (by omega) (by omega) (by omega)
      have hchunk : slice j.payload (k * j.mss) (fill + copy) = j.chunk k := by
        rcases hcases with hfull | hend
        · rw [chunk, hfull]
        · rw [chunk, slice, slice, take_of_length_le, take_of_length_le] <;>
            · rw [length_drop]
              omega
      have htot : s.arrived.tsoTotalLen = j.payload.length := he.total
      obtain ⟨e, e', hseg₁, hseg₂, htcp, hseg⟩ := isSegment c.desc (s := s.arrived)
        he.useTso he.pkts he.seq (by rw [hused, htot]; exact hlast) (by rw [hrecv, hchunk])
      refine (finishPacket_ends (s := s.arrived) hph hu hvle hseg₁ hseg₂).mono fun s' hs' => ?_
      have hfin := Finished.completed (j := j) (s := s.arrived) (c := c) (u := u) rfl hseg
      have hout : j.Out s₀ { (s.arrived.released c u).completed (received p data) e' with
          txTick := true } k := ho.congr (completed_pushed _)
      by_cases hend : k * j.mss + (fill + copy) = j.payload.length
      · exact ⟨1, by omega, .woken hs' (.last { hfin with } (hlast.1 hend) hout fun _ _ => rfl)⟩
      have hfill : fill + copy = j.mss := hcases.resolve_right hend
      rw [hfill] at hused hend
      rw [← hmul] at hused hend
      have hw : 4 * (j.payload.length - (k + 1) * j.mss) + 2
          < 4 * (j.payload.length - (k * j.mss + fill)) := by omega
      have hpos' : (k + 1) * j.mss = k * j.mss + fill + copy := by omega
      refine ⟨_, hw, ?_⟩
      by_cases hfull : off + copy = d.getLen
      · have hrel : s.arrived.released c u
            = { s.arrived.usedDesc c u TxDesc.report with tsoDescBytesUsed := 0 } :=
          if_pos (.inr (by rw [hlen, ← hfull]; exact he.descUsed.symm))
        obtain ⟨d', todo', rfl, hrem'⟩ := hrem.next hfull (by omega)
        rw [hrel] at hs' hfin hout
        refine .woken hs' (.pending (d := d') (l := todo') { he.toCutting.completed
          (t := { s.arrived.usedDesc c u TxDesc.report with tsoDescBytesUsed := 0 }) hused hend
            htcp.ip ⟨_, _, _, _, _, rfl⟩, hfin with noHeader := rfl } ?_ (hq.pop hu rfl rfl) hout
            fun _ _ => rfl)
        rwa [hpos']
      · have hrel : s.arrived.released c u = { s.arrived with cache := { s.cache with
            unusedCache := { c with desc := c.desc.report } :: u } } := by
          refine if_neg fun hno => ?_
          rcases hno with hno | hno
          · simp [show s.arrived.useTso = true from he.useTso] at hno
          · rw [hlen, show s.arrived.tsoDescBytesUsed = off + copy from he.descUsed] at hno
            exact hfull hno.symm
        rw [hrel] at hs' hfin hout
        refine .woken hs' (.pending (d := d) (l := todo) { he.toCutting.completed
          (t := { s.arrived with cache := { s.cache with
            unusedCache := { c with desc := c.desc.report } :: u } }) hused hend htcp.ip
            ⟨_, _, _, _, _, rfl⟩, hfin with noHeader := rfl } ?_
          (hq.modify hu rfl c.desc.setDd_report rfl) hout fun _ _ => rfl)
        rw [hpos']
        show j.Remaining d todo s.tsoDescBytesUsed _
        rw [he.descUsed]
        exact hrem.advance (by omega) (by omega)

end TsoJob

end Gem5
