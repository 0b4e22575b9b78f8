import Gem5.Proofs.FifoOrder
import Gem5.Proofs.Latency
import Gem5.Proofs.LoadEvents
import Gem5.Proofs.Tso

/-!
# The packets of the transmit path

Whatever a new packet has and keeps as data comes behind it, all packets of the path have, if the
copy of the segmentation header keeps it too. That copy makes the packet longer and leaves
`simLength` as it is. The load generator does not set `simLength` at all.
-/

namespace Gem5

open Bytes Machine List

namespace TxPath

variable {P : NicParams} {Q : EthPacket → Prop} {s s' t : TxPath} {p : EthPacket}

/-- What a new packet has and keeps, with more data or with other data of the same length. -/
structure Lasting (P : NicParams) (Q : EthPacket → Prop) : Prop where
  alloc : Q (.alloc P.txPacketSize)
  received : ∀ {p : EthPacket} (data : List Byte), Q p → Q (received p data)
  rewritten : ∀ {p : EthPacket} {data : List Byte}, Q p → data.length = p.length →
    Q { p with data := data }

def Op.isTick : Op → Bool
  | .tick _ _ => true
  | _ => false

/-- The copy of the header, if there is one in this state, keeps it. -/
def HeadKeeps (Q : EthPacket → Prop) (s : TxPath) : Prop :=
  s.useTso = true → ∀ p, Q p → Q (s.headed p)

/-- The packet under construction has it, and so have those in the FIFO and on the wire. -/
structure EachPacket (Q : EthPacket → Prop) (s : TxPath) : Prop where
  packet : ∀ p ∈ s.txPacket, Q p
  pushed : ∀ p ∈ s.pushed, Q p

theorem Still.pushed (h : Still s s') : s'.pushed = s.pushed := by
  rw [TxPath.pushed, TxPath.pushed, PacketFifo.packets, PacketFifo.packets, h.fifo, h.sent]

theorem loadContext_loaded (d : TxDesc) (h : s.useTso = true → s.tsoLoadedHeader = false) :
    (s.loadContext d).useTso = true → (s.loadContext d).tsoLoadedHeader = false := by
  unfold loadContext
  split_ifs
  · exact fun _ => rfl
  · exact h

theorem takeContexts_loaded : ∀ (u : List (Cached TxDesc)) {s : TxPath},
    (s.useTso = true → s.tsoLoadedHeader = false) →
    (s.takeContexts u).useTso = true → (s.takeContexts u).tsoLoadedHeader = false
  | [], _, hs => hs
  | c :: rest, s, hs => by
    rw [takeContexts]
    split_ifs
    · exact takeContexts_loaded rest (loadContext_loaded c.desc hs)
    · exact hs

theorem ready_packet (h : s.ready = some p) : s.txPacket = some p := by
  unfold ready at h
  split at h
  · rename_i p' hp'
    split_ifs at h
    rw [hp', h]
  · cases h

/-- A packet gets a header only if the segmentation was on before: one that starts has to wait for
its header. -/
theorem processContextDesc_headed (h : s.processContextDesc = .ok s')
    (hw : s'.pktWaiting = false) (hu : s'.cache.unusedCache ≠ []) (ht : s'.useTso = true) :
    s' = s ∧ s.useTso = true := by
  rcases processContextDesc_cases h with ⟨hnil, rfl⟩ | ⟨c, rest, -, h⟩
  · exact absurd hnil hu
  rcases fetchHeader_cases h with ⟨-, -, -, -, -, rfl⟩ | ⟨hno, rfl⟩
  · cases hw
  by_cases hs : s.useTso = true
  · rw [takeContexts_of_useTso hs, advTso_of_useTso hs]
    exact ⟨rfl, hs⟩
  · refine absurd ⟨ht, ?_⟩ hno
    by_cases hc : (s.takeContexts s.cache.unusedCache).useTso = true
    · rw [advTso_of_useTso hc]
      exact takeContexts_loaded _ (fun hyes => absurd hyes hs) hc
    · unfold advTso at ht ⊢
      split_ifs at ht ⊢
      · rfl
      · exact absurd ht hc

theorem mem_pushed_of_pop {q : PacketFifo} (hf : s.txFifo.front = .ok p)
    (hq : s.txFifo.pop = .ok q) : ∀ p' ∈ s.sent ++ [p] ++ q.packets, p' ∈ s.pushed := by
  have hp : p ∈ s.txFifo.packets := by
    unfold PacketFifo.front at hf
    split at hf
    · cases hf
    · rename_i e rest he
      cases hf
      rw [PacketFifo.packets, he]
      exact mem_cons_self
  have hsub : q.packets ⊆ s.txFifo.packets := by
    rcases PacketFifo.pop_inv hq with rfl | ⟨e, rest, he, rfl⟩
    · exact List.Subset.refl _
    · rw [PacketFifo.packets, PacketFifo.packets, he]
      exact subset_cons_self _ _
  intro p' hp'
  rw [TxPath.pushed]
  simp only [mem_append, mem_singleton] at hp' ⊢
  rcases hp' with (hp' | rfl) | hp'
  · exact .inl hp'
  · exact .inr hp
  · exact .inr (hsub hp')

namespace EachPacket

theorem of_engine (hs : EachPacket Q s) (he : s'.toTxEngine = s.toTxEngine)
    (hsent : s'.sent = s.sent) : EachPacket Q s' where
  packet := by
    rw [he]
    exact hs.packet
  pushed := by
    rw [TxPath.pushed, he, hsent]
    exact hs.pushed

theorem framed (hs : EachPacket Q s) (h : Framed s s') : EachPacket Q s' :=
  hs.of_engine h.engine h.sent

theorem askAvailable (hs : EachPacket Q s) : EachPacket Q s.askAvailable := by
  unfold TxPath.askAvailable
  split_ifs
  · exact { hs with }
  · exact hs

theorem getPacketData (hhead : HeadKeeps Q s) (hp : Q p) (h : s.getPacketData p = .ok s') :
    ∀ p' ∈ s'.txPacket, Q p' := by
  obtain ⟨c, rest, -, -, -, ⟨ht, -, -, -, rfl⟩ | ⟨-, -, rfl⟩⟩ := getPacketData_cases h
  · rintro p' ⟨⟩
    exact hhead ht p hp
  · rintro p' ⟨⟩
    exact hp

theorem reserveNext (hhead : s.cache.unusedCache ≠ [] → HeadKeeps Q s) (hs : s.txPacket = some p)
    (hp : Q p) (h : s.reserveNext p = .ok s') : ∀ p' ∈ s'.txPacket, Q p' := by
  obtain ⟨size, t, hsize, h⟩ := reserveNext_cases h
  have ht : t.txPacket = s.txPacket ∧ t.cache = s.cache ∧ (HeadKeeps Q s → HeadKeeps Q t) := by
    rcases getPacketSize_cases hsize with ⟨-, -, rfl⟩ | ⟨c, rest, -, ⟨-, -, -, rfl⟩ | ⟨-, -, rfl⟩⟩
      <;> exact ⟨rfl, rfl, id⟩
  obtain ⟨hpkt, hcache, hkeep⟩ := ht
  have hkept : ∀ p' ∈ t.txPacket, Q p' := by
    rw [hpkt, hs]
    rintro p' ⟨⟩
    exact hp
  rcases h with ⟨-, -, q, -, h⟩ | ⟨-, h⟩ | ⟨-, -, rfl⟩
  · obtain ⟨c, rest, hu, -⟩ := getPacketData_cases h
    have hne : s.cache.unusedCache ≠ [] := by
      rw [← hcache]
      exact fun hnil => cons_ne_nil c rest (hu.symm.trans hnil)
    exact getPacketData (s := { t with txFifo := q }) (hkeep (hhead hne)) hp h
  · rwa [(Quiet.writeback h).engine]
  · exact hkept

theorem nextPacket (hQ : Lasting P Q) (hs : EachPacket Q s) (hhead : HeadKeeps Q s)
    (h : s.nextPacket P = .ok s') : EachPacket Q s' := by
  refine ⟨?_, by rw [(Still.nextPacket h).pushed]; exact hs.pushed⟩
  obtain ⟨t, p, ht, rfl, h⟩ := nextPacket_cases h
  have hp : Q (t.txPacket.getD (.alloc P.txPacketSize)) := by
    rw [ht.engine]
    cases hpkt : s.txPacket with
    | none => exact hQ.alloc
    | some p => exact hs.packet p hpkt
  have hkeep : HeadKeeps Q (t.withPacket (t.txPacket.getD (.alloc P.txPacketSize))) := by
    have he : HeadKeeps Q t = HeadKeeps Q s := by
      unfold HeadKeeps headed
      rw [ht.engine]
    exact he.mpr hhead
  set p := t.txPacket.getD (.alloc P.txPacketSize)
  rcases h with ⟨-, u, hu, rfl⟩ | ⟨-, -, u, hu, ⟨-, rfl⟩ | ⟨hw, h⟩⟩
  · show ∀ p' ∈ u.txPacket, Q p'
    rw [hu.engine]
    rintro p' ⟨⟩
    exact hp
  · show ∀ p' ∈ u.txPacket, Q p'
    rw [(processContextDesc_packet hu).1]
    rintro p' ⟨⟩
    exact hp
  · refine reserveNext (fun hne htso => ?_) (processContextDesc_packet hu).1 hp h
    obtain ⟨rfl, htso'⟩ := processContextDesc_headed hu hw hne htso
    exact hkeep htso'

theorem txStateMachine (hQ : Lasting P Q) (hs : EachPacket Q s) (hhead : HeadKeeps Q s)
    (h : s.txStateMachine P = .ok s') : EachPacket Q s' := by
  have hask : HeadKeeps Q s.askAvailable := by
    unfold TxPath.askAvailable
    split_ifs <;> exact hhead
  unfold TxPath.txStateMachine at h
  split_ifs at h
  · cases h
    exact { hs with }
  · split at h
    · rename_i p hp
      obtain ⟨q, hq, hquiet⟩ := pushPacket_cases h
      refine framed ⟨fun p' hp' => absurd hp' (Option.not_mem_none p'), ?_⟩ hquiet.toFramed
      intro p' hp'
      rw [TxPath.pushed, (push_packets hq).1, ← append_assoc] at hp'
      rcases mem_append.1 hp' with hp' | hp'
      · exact hs.askAvailable.pushed p' hp'
      · obtain rfl := mem_singleton.1 hp'
        exact hs.packet p' (ready_packet hp)
    · exact hs.askAvailable.nextPacket hQ hask h

theorem txWire {w : Wire} (hs : EachPacket Q s) (h : s.txWire w = .ok s') : EachPacket Q s' := by
  rcases txWire_cases h with ⟨-, rfl⟩ | ⟨-, -, -, rfl⟩ | ⟨p, q, -, hf, hq, ⟨-, rfl⟩ | ⟨-, rfl⟩⟩
  · exact { hs with }
  · exact { hs with }
  · exact ⟨hs.packet, fun p' hp' => hs.pushed p' (mem_pushed_of_pop hf hq p' hp')⟩
  · exact ⟨hs.packet, fun p' hp' => hs.pushed p' (mem_pushed_of_pop hf hq p' hp')⟩

theorem tick (hQ : Lasting P Q) (hs : EachPacket Q s) (hhead : HeadKeeps Q s) {rx : Bool}
    {ws : List Wire} (h : s.tick P rx ws = .ok s') : EachPacket Q s' := by
  obtain ⟨-, t, u, hsm, hu, rfl⟩ := tick_cases h
  have ht : EachPacket Q t := by
    rcases hsm with ⟨-, hsm⟩ | ⟨-, rfl⟩
    · exact txStateMachine (s := { s with tickEvent := false, rxTick := rx }) hQ { hs with } hhead
        hsm
    · exact { hs with }
  exact { (wireLoop_inv (fun _ _ _ hs _ h => hs.txWire h) ws ht hu).1 with }

theorem headerComplete {data : List Byte} (hs : EachPacket Q s)
    (h : s.headerComplete data = .ok s') : EachPacket Q s' := by
  obtain ⟨a, len, c, rest, -, -, -, ⟨-, h⟩ | ⟨-, h⟩⟩ := headerComplete_cases h
  · refine framed ?_ h.toFramed
    exact { hs with }
  · refine framed ?_ h.toFramed
    exact { hs with }

theorem pktComplete (hQ : Lasting P Q) {data : List Byte} (hs : EachPacket Q s)
    (h : s.pktComplete P data = .ok s') : EachPacket Q s' := by
  obtain ⟨a, len, p, c, rest, -, hp, -, hu, -, h⟩ := pktComplete_cases h
  have hrec := hQ.received data (hs.packet p hp)
  rcases h with ⟨-, h⟩ | ⟨-, h⟩
  · obtain ⟨-, hw⟩ := partialPacket_cases (s := s.arrived) hu h
    refine framed ?_ hw.toFramed
    refine ⟨?_, hs.pushed⟩
    rintro p' ⟨⟩
    exact hrec
  · obtain ⟨d, d', hd, hd', hw⟩ := finishPacket_cases (s := s.arrived) hu h
    refine framed ⟨?_, ?_⟩ hw.toFramed
    · rintro p' ⟨⟩
      exact hQ.rewritten hrec ((length_offloadChecksums hd').trans (length_segmentData hd))
    · rw [TsoJob.completed_pushed]
      exact hs.pushed

theorem step (hQ : Lasting P Q) {o : Op} (hs : EachPacket Q s)
    (hhead : o.isTick = true → HeadKeeps Q s) (h : s.step P o = .ok s') :
    EachPacket Q s' := by
  by_cases ho : o.IsEngine
  · cases o with
    | tick rx ws => exact hs.tick hQ (hhead rfl) h
    | headerEvent data => exact hs.headerComplete h
    | pktEvent data => exact hs.pktComplete hQ h
    | _ => exact ho.elim
  · obtain ⟨he, hsent, -⟩ := Extended.step ho h
    exact hs.of_engine he hsent

theorem init (base len size : ℕ) (max : BitVec 32) :
    EachPacket Q (TxPath.init base len size max) where
  packet := fun p hp => absurd hp (Option.not_mem_none p)
  pushed := fun _ hp => absurd hp not_mem_nil

end EachPacket

def Measured (p : EthPacket) : Prop := p.simLength = p.length

theorem measured_lasting (P : NicParams) : Lasting P Measured where
  alloc := rfl
  received := by
    intro _ data hp
    rw [Measured, EthPacket.length] at hp ⊢
    rw [received, length_append, hp]
  rewritten := fun hp hlen => hp.trans hlen.symm

/-- A tick does not copy a header into a packet, or only one of no bytes. -/
def CopiesNoHeader (s : TxPath) (o : Op) : Prop :=
  o.isTick = true → s.useTso = true → s.tsoPktHasHeader = true ∨ s.tsoHeaderLen = 0

instance (s : TxPath) (o : Op) : Decidable (s.CopiesNoHeader o) :=
  inferInstanceAs (Decidable (_ → _))

theorem measured_headed (h : s.useTso = true → s.tsoPktHasHeader = true ∨ s.tsoHeaderLen = 0) :
    HeadKeeps Measured s := by
  intro ht _ hp
  unfold headed
  split_ifs with hhas
  · exact hp
  · obtain hyes | hzero := h ht
    · exact absurd hyes hhas
    · rw [hzero]
      exact hp.trans (by simp [withHeader, EthPacket.length])

theorem measured_run {base len size : ℕ} {max : BitVec 32} {ops : List Op}
    (hops : Admits (step P) CopiesNoHeader (init base len size max) ops)
    (hrun : run (step P) (init base len size max) ops = .ok s) : EachPacket Measured s :=
  hops.inv (fun _ _ _ hs ho h => hs.step (measured_lasting P)
    (fun htick => measured_headed (ho htick)) h) (.init base len size max) hrun

end TxPath

namespace LoadGenerator

variable {s s' : LoadGenerator}

theorem buildPacket_length {p₀ p : EthPacket} (h : s.buildPacket p₀ = .ok p) :
    p.simLength = p₀.simLength ∧ macHeaderSize + 8 ≤ p.length := by
  simp only [buildPacket, bind_ok, inBounds_ok] at h
  obtain ⟨-, -, -, hlen, h⟩ := h
  cases h
  refine ⟨rfl, hlen.trans (le_of_eq ?_)⟩
  rw [EthPacket.length, EthPacket.length, length_splice, length_splice]

theorem Follows.sent : Follows s s' → s'.sent = s.sent
  | .stop _ | .check .. | .next .. | .gap .. => rfl

theorem unmeasured_step {o : Op} (hs : ∀ p ∈ s.sent, p.simLength = 0 ∧ macHeaderSize + 8 ≤ p.length)
    (h : s.step o = .ok s') : ∀ p ∈ s'.sent, p.simLength = 0 ∧ macHeaderSize + 8 ≤ p.length := by
  cases o with
  | startup =>
    obtain rfl | ⟨tick, -, -, rfl⟩ := startup_cases h <;> exact hs
  | sendPacketEvent buf =>
    simp only [step] at h
    split_ifs at h
    simp only [sendPacket, bind_ok] at h
    obtain ⟨p, hp, h⟩ := h
    rw [(afterSend_cases h).sent]
    intro p' hp'
    rcases mem_append.1 hp' with hp' | hp'
    · exact hs p' hp'
    · obtain rfl := mem_singleton.1 hp'
      exact buildPacket_length hp
  | checkLossEvent =>
    obtain ⟨-, -, f, -, rfl⟩ := step_checkLoss h
    exact hs
  | recvPacket p =>
    obtain ⟨latency, rfl⟩ := step_recv h
    exact hs
  | advance tick =>
    obtain ⟨-, rfl⟩ := step_advance h
    exact hs

end LoadGenerator

namespace TxPath

/-- A packet of the device has its length as its simulated length if no header was copied, a packet
of the load generator never. -/
theorem wire_lengths (base len size : ℕ) (max : BitVec 32) (params : LoadGenerator.Params) :
    (∀ ops s, Admits (step P) CopiesNoHeader (init base len size max) ops →
      run (step P) (init base len size max) ops = .ok s → ∀ p ∈ s.pushed, p.simLength = p.length)
    ∧ ∀ ops g, LoadGenerator.simulate params ops = .ok g →
      ∀ p ∈ g.sent, p.simLength ≠ p.length := by
  refine ⟨fun ops s hops hrun => (measured_run hops hrun).pushed, fun ops g hrun p hp => ?_⟩
  obtain ⟨g₀, hinit, hrun⟩ := bind_ok.1 hrun
  have hsent : g₀.sent = [] := by
    unfold LoadGenerator.init at hinit
    split_ifs at hinit
    rw [← Except.ok.inj hinit]
  obtain ⟨hsim, hlen⟩ := run_inv (fun _ _ _ hs h => LoadGenerator.unmeasured_step hs h)
    (by simp [hsent]) hrun p hp
  rw [hsim]
  exact fun h => by simp [← h] at hlen

/-- Two descriptors, one packet. -/
theorem wire_lengths_gatherOps :
    ∃ s, run (step smallParams) (init 4096 8 8 100) (gatherOps ++ [.tick false [.takes]]) = .ok s
      ∧ s.pushed.length = 1 ∧ ∀ p ∈ s.pushed, p.simLength = p.length := by
  have hend : Ends (run (step smallParams) (init 4096 8 8 100)
      (gatherOps ++ [.tick false [.takes]])) fun s => s.pushed.length = 1 := by decide
  obtain ⟨s, hs, hlen⟩ := hend.exists
  exact ⟨s, hs, hlen, (wire_lengths 4096 8 8 100 LoadGenerator.smallParams).1 _ s (by decide) hs⟩

def segmentOps : List Op :=
  .writeTctl 2 :: TsoJob.tinyOps ++ [.tick false [], .pktEvent [1, 2], .tick false [],
    .pktEvent [3, 4], .tick false [.takes]]

/-- A segment with a header of 54 bytes and 4 bytes of data, and a packet of the load generator. -/
theorem wire_lengths_wrong :
    (∃ s, run (step smallParams) (init 4096 8 8 100) segmentOps = .ok s
      ∧ s.sent.map (fun p => (p.simLength, p.length)) = [(4, 58)])
    ∧ ∃ g, LoadGenerator.simulate LoadGenerator.smallParams [.startup, .advance 1000,
        .sendPacketEvent (List.replicate 22 0)] = .ok g
      ∧ g.sent.map (fun p => (p.simLength, p.length)) = [(0, 22)] := by
  constructor
  · refine Ends.exists (P := fun s : TxPath => s.sent.map _ = _) ?_
    decide +kernel
  · refine Ends.exists (P := fun g : LoadGenerator => g.sent.map _ = _) ?_
    decide

end TxPath

end Gem5
