import Gem5.Proofs.Segment
import Gem5.Proofs.TxTotal

/-!
# The stages of a segmentation job

While a job is done the device is in one of seven stages, from the context descriptor still to come
to the last segment finished. A stage says how far the payload is used and what of it the descriptors
that are left hold. Each has a rank, and what the device does on its own lowers it.
-/

namespace Gem5

open Bytes Machine List

namespace TxDesc

variable (d : TxDesc)

@[simp] theorem getBuf_setDd : d.setDd.getBuf = d.getBuf := rfl

@[simp] theorem isTypes_setDd (t₁ t₂ : ℕ) : d.setDd.isTypes t₁ t₂ = d.isTypes t₁ t₂ := by
  simp only [isTypes, getType_setDd]

@[simp] theorem isData_setDd : d.setDd.isData = d.isData := by
  simp only [isData, isLegacy_setDd, isTypes_setDd]

@[simp] theorem isContext_setDd : d.setDd.isContext = d.isContext := by
  simp only [isContext, isLegacy_setDd, isTypes_setDd]

@[simp] theorem vle_setDd : d.setDd.vle = d.vle := d.getLsbD_setDd (.inl (by omega))

@[simp] theorem tse_setDd : d.setDd.tse = d.tse := by
  simp only [tse, isTypes_setDd, getType_setDd, d.getLsbD_setDd (show 26 < 32 ∨ _ by omega),
    d.getLsbD_setDd (show 31 < 32 ∨ _ by omega)]

@[simp] theorem mss_setDd : d.setDd.mss = d.mss := d.bits_setDd (.inr (by omega))

@[simp] theorem hdrlen_setDd : d.setDd.hdrlen = d.hdrlen := by
  have h₁ : d.setDd.d1 = d.d1 := rfl
  simp only [hdrlen, isAdvDesc, isLegacy_setDd, isTypes_setDd, h₁,
    d.bits_setDd (show 40 + 8 ≤ 32 ∨ 36 ≤ 40 by omega)]
  rfl

@[simp] theorem setDd_setDd : d.setDd.setDd = d.setDd := by
  have h : (d.d2 &&& ~~~0xf00000000 ||| 0x100000000) &&& ~~~0xf00000000 ||| 0x100000000
      = d.d2 &&& ~~~0xf00000000 ||| 0x100000000 := by
    ext i hi
    simp only [BitVec.getElem_or, BitVec.getElem_and, BitVec.getElem_not]
    cases (d.d2)[i] <;> cases (0xf00000000 : BitVec 64)[i] <;> simp
  simp only [setDd, h]

@[simp] theorem setDd_report : d.report.setDd = d.setDd := by
  unfold report
  split_ifs
  · exact d.setDd_setDd
  · rfl

end TxDesc

theorem length_readMem (mem : ℕ → Byte) (addr n : ℕ) : (readMem mem addr n).length = n := by
  simp [readMem]

theorem slice_readMem (mem : ℕ → Byte) (addr : ℕ) {n off m : ℕ} (h : off + m ≤ n) :
    slice (readMem mem addr n) off m = readMem mem (addr + off) m := by
  refine ext_getElem? fun i => ?_
  simp only [slice, readMem, getElem?_take, getElem?_drop, getElem?_map]
  by_cases hi : i < m
  · rw [if_pos hi, getElem?_range (by omega), getElem?_range hi]
    simp [Nat.add_assoc]
  · rw [if_neg hi, getElem?_eq_none (by simpa using hi)]
    rfl

namespace TsoJob

variable {P : NicParams} (j : TsoJob P) (s₀ : TxPath) (rest : List TxDesc)

def bytes (l : List TxDesc) : List Byte := l.flatMap fun d => readMem j.mem d.getBuf d.getLen

/-- The descriptors `cur` are still to come, of which the cache has the first ones. One that part of
a segment was read from may be marked done. -/
structure Queue (s : TxPath) (cur : List TxDesc) : Prop where
  started : s₀.cache.reads.length ≤ s.cache.reads.length
  taken : ∃ used, j.posted rest = used ++ cur
    ∧ s₀.taken s = used ++ cur.take s.cache.unusedCache.length
  unused : s.cache.unusedCache.map (fun c => c.desc.setDd)
    = (cur.take s.cache.unusedCache.length).map TxDesc.setDd

variable {j s₀ rest} {s s' t : TxPath} {cur : List TxDesc} {d : TxDesc} {c : Cached TxDesc}
  {u : List (Cached TxDesc)}

namespace Queue

theorem length_le (h : j.Queue s₀ rest s cur) : s.cache.unusedCache.length ≤ cur.length := by
  have hl := congrArg List.length h.unused
  simp only [length_map, length_take] at hl
  omega

theorem congr (h : j.Queue s₀ rest s cur) (hu : s'.cache.unusedCache = s.cache.unusedCache)
    (hr : s'.cache.reads = s.cache.reads) : j.Queue s₀ rest s' cur := by
  refine ⟨by rw [hr]; exact h.started, ?_, by rw [hu]; exact h.unused⟩
  rw [TxPath.taken, hr, hu]
  exact h.taken

theorem extend {new : List (Cached TxDesc)} (h : j.Queue s₀ rest s cur)
    (hu : s'.cache.unusedCache = s.cache.unusedCache ++ new)
    (hr : s'.cache.reads = s.cache.reads ++ new)
    (hf : s₀.taken s ++ new.map Cached.desc <+: j.posted rest) : j.Queue s₀ rest s' cur := by
  obtain ⟨used, hpost, htaken⟩ := h.taken
  have hle := h.length_le
  rw [htaken, hpost, append_assoc, prefix_append_right_inj] at hf
  obtain ⟨more, hmore⟩ := hf
  have hlen : (cur.take s.cache.unusedCache.length).length = s.cache.unusedCache.length := by
    rw [length_take]
    omega
  have htake : cur.take s'.cache.unusedCache.length
      = cur.take s.cache.unusedCache.length ++ new.map Cached.desc := by
    rw [hu, length_append]
    conv_lhs => rw [← hmore]
    rw [take_left']
    rw [length_append, hlen, length_map]
  refine ⟨?_, ⟨used, hpost, ?_⟩, ?_⟩
  · rw [hr, length_append]
    exact h.started.trans (Nat.le_add_right _ _)
  · have hdrop : s₀.taken s' = s₀.taken s ++ new.map Cached.desc := by
      simp only [TxPath.taken]
      rw [hr, drop_append_of_le_length h.started, map_append, append_assoc]
    rw [hdrop, htaken, htake, append_assoc]
  · rw [htake, hu, map_append, map_append, h.unused, map_map]
    rfl

theorem front (h : j.Queue s₀ rest s (d :: cur)) (hu : s.cache.unusedCache = c :: u) :
    c.desc.setDd = d.setDd := by
  have hmap := h.unused
  rw [hu] at hmap
  exact (List.cons.inj hmap).1

theorem pop (h : j.Queue s₀ rest s (d :: cur)) (hu : s.cache.unusedCache = c :: u)
    (hu' : s'.cache.unusedCache = u) (hr : s'.cache.reads = s.cache.reads) :
    j.Queue s₀ rest s' cur := by
  obtain ⟨used, hpost, htaken⟩ := h.taken
  have hmap := h.unused
  rw [hu] at hmap htaken
  refine ⟨by rw [hr]; exact h.started, ⟨used ++ [d], by rw [hpost, append_cons], ?_⟩, ?_⟩
  · rw [TxPath.taken, hr, hu', ← TxPath.taken, htaken, append_assoc]
    rfl
  · rw [hu']
    exact (List.cons.inj hmap).2

theorem modify {c' : Cached TxDesc} (h : j.Queue s₀ rest s cur)
    (hu : s.cache.unusedCache = c :: u) (hu' : s'.cache.unusedCache = c' :: u)
    (hc : c'.desc.setDd = c.desc.setDd) (hr : s'.cache.reads = s.cache.reads) :
    j.Queue s₀ rest s' cur := by
  have hlen : s'.cache.unusedCache.length = s.cache.unusedCache.length := by
    rw [hu, hu']
    rfl
  refine ⟨by rw [hr]; exact h.started, ?_, ?_⟩
  · rw [TxPath.taken, hr, hlen]
    exact h.taken
  · rw [hlen, ← h.unused, hu, hu', map_cons, map_cons, hc]

theorem unused_ne_nil (h : j.Queue s₀ rest s cur) (hcur : rest.length < cur.length)
    (hall : j.descs.length + 1 ≤ (s₀.taken s).length) : s.cache.unusedCache ≠ [] := by
  intro hnil
  obtain ⟨used, hpost, htaken⟩ := h.taken
  have hl := congrArg List.length hpost
  rw [htaken, hnil] at hall
  simp only [posted, cons_append, length_cons, length_append, length_nil,
    take_zero] at hl hall
  omega

end Queue

/-! ### The stages -/

def Blank (P : NicParams) (e : TxEngine) : Prop :=
  ∀ p ∈ e.txPacket, p.data = [] ∧ p.bufLength = P.txPacketSize

variable (j)

/-- The packet has the header and `fill` bytes of the payload of segment `k`. -/
def Holds (e : TxEngine) (k fill : ℕ) : Prop :=
  ∃ p, e.txPacket = some p ∧ p.bufLength = P.txPacketSize
    ∧ p.data = j.header ++ slice j.payload (k * j.mss) fill

structure Waiting (P : NicParams) (e : TxEngine) : Prop where
  useTso : e.useTso = false
  dma : e.dma = none
  done : e.pktDone = false
  blank : Blank P e

/-- The context descriptor is loaded. -/
structure Loaded (e : TxEngine) : Prop where
  useTso : e.useTso = true
  headerLen : e.tsoHeaderLen = j.header.length
  mss : e.tsoMss = j.mss
  total : e.tsoTotalLen = j.payload.length

structure Opening (e : TxEngine) : Prop extends j.Loaded e where
  unloaded : e.tsoLoadedHeader = false
  pkts : e.tsoPkts = 0
  seq : e.tsoPrevSeq = 0
  used : e.tsoUsedLen = 0
  noHeader : e.tsoPktHasHeader = false
  done : e.pktDone = false
  blank : Blank P e

/-- The payload is cut: `k` segments are finished, and `fill` bytes of the next are there. -/
structure Cutting (e : TxEngine) (k fill : ℕ) : Prop extends j.Loaded e where
  loaded : e.tsoLoadedHeader = true
  header : e.tsoHeader.take j.header.length = j.header
  pkts : e.tsoPkts = k
  seq : e.tsoPrevSeq = k * j.mss
  used : e.tsoUsedLen = k * j.mss + fill
  fill_lt : fill < j.mss

structure Gathering (e : TxEngine) (k fill : ℕ) : Prop extends j.Cutting e k fill where
  dma : e.dma = none
  packet : fill = 0 ∧ e.tsoPktHasHeader = false ∧ Blank P e ∧ e.pktDone = false
    ∨ 0 < fill ∧ e.tsoPktHasHeader = true ∧ j.Holds e k fill ∧ e.pktMultiDesc = true

structure Fetching (e : TxEngine) (k fill off : ℕ) (d : TxDesc) : Prop
    extends j.Cutting e k fill where
  dma : e.dma = some (.packet (d.getBuf + off) (min (j.mss - fill) (d.getLen - off)))
  descUsed : e.tsoDescBytesUsed = off + min (j.mss - fill) (d.getLen - off)
  copy : e.tsoCopyBytes = min (j.mss - fill) (d.getLen - off)
  hasHeader : e.tsoPktHasHeader = true
  done : e.pktDone = false
  packet : j.Holds e k fill

/-- Segment `k` is finished. -/
structure Finished (e : TxEngine) (k : ℕ) : Prop where
  dma : e.dma = none
  done : e.pktDone = true
  single : e.pktMultiDesc = false
  packet : ∃ p, e.txPacket = some p ∧ j.IsSegment k p

structure Pending (e : TxEngine) (k : ℕ) : Prop extends j.Cutting e (k + 1) 0, j.Finished e k where
  noHeader : e.tsoPktHasHeader = false

/-- The payload from `pos` on is what the descriptors hold, from byte `off` of the first on. -/
structure Remaining (d : TxDesc) (todo : List TxDesc) (off pos : ℕ) : Prop where
  off_lt : off < d.getLen
  pos_lt : pos < j.payload.length
  data : (j.bytes (d :: todo)).drop off = j.payload.drop pos
  mem : ∀ x ∈ d :: todo, x ∈ j.descs

variable (s₀ rest)

/-- The first `k` segments were pushed, and no more. -/
def Out (s : TxPath) (k : ℕ) : Prop :=
  ∃ segs, segs.length = k ∧ (∀ i p, segs[i]? = some p → j.IsSegment i p)
    ∧ s.pushed = s₀.pushed ++ segs

def Done (s : TxPath) : Prop :=
  ∃ segs more, segs.length = j.count ∧ (∀ i p, segs[i]? = some p → j.IsSegment i p)
    ∧ s.pushed = s₀.pushed ++ segs ++ more

def Alert (s : TxPath) : Prop := s.drainState = .running → s.en = true → s.txTick = true

/-- The state machine is to tick for the next descriptor, at the latest when the link is done with a
packet, if the FIFO is not too small for a segment. -/
def Awake (s : TxPath) : Prop :=
  j.header.length + j.mss < s.txFifo.maxsize.toNat → s.drainState = .running → s.en = true →
    s.cache.unusedCache ≠ [] → s.txTick = true ∨ s.txFifo.fifo ≠ [] ∨ s.onWire ≠ 0

inductive Stage (s : TxPath) : ℕ → Prop
  | waiting (he : Waiting P s.toTxEngine) (hq : j.Queue s₀ rest s (j.posted rest))
      (ho : j.Out s₀ s 0) (ha : j.Awake s) : Stage s (4 * j.payload.length + 4)
  | context (he : j.Opening s.toTxEngine) (hd : s.dma = none)
      (hq : j.Queue s₀ rest s (j.descs ++ rest)) (ho : j.Out s₀ s 0) (ha : j.Awake s) :
      Stage s (4 * j.payload.length + 3)
  | header {d : TxDesc} {ds : List TxDesc} (he : j.Opening s.toTxEngine) (hds : j.descs = d :: ds)
      (hd : s.dma = some (.header d.getBuf j.header.length))
      (hu : s.cache.unusedCache ≠ []) (hq : j.Queue s₀ rest s (d :: ds ++ rest))
      (ho : j.Out s₀ s 0) : Stage s (4 * j.payload.length + 2)
  | gathering {k fill : ℕ} {d : TxDesc} {l : List TxDesc} (he : j.Gathering s.toTxEngine k fill)
      (hr : j.Remaining d l s.tsoDescBytesUsed (k * j.mss + fill))
      (hq : j.Queue s₀ rest s (d :: l ++ rest)) (ho : j.Out s₀ s k) (ha : j.Awake s) :
      Stage s (4 * (j.payload.length - (k * j.mss + fill)) + 1)
  | fetching {k fill off : ℕ} {d : TxDesc} {l : List TxDesc}
      (he : j.Fetching s.toTxEngine k fill off d) (hr : j.Remaining d l off (k * j.mss + fill))
      (hu : s.cache.unusedCache ≠ []) (hq : j.Queue s₀ rest s (d :: l ++ rest))
      (ho : j.Out s₀ s k) : Stage s (4 * (j.payload.length - (k * j.mss + fill)))
  | pending {k : ℕ} {d : TxDesc} {l : List TxDesc} (he : j.Pending s.toTxEngine k)
      (hr : j.Remaining d l s.tsoDescBytesUsed ((k + 1) * j.mss))
      (hq : j.Queue s₀ rest s (d :: l ++ rest)) (ho : j.Out s₀ s k) (ha : Alert s) :
      Stage s (4 * (j.payload.length - (k + 1) * j.mss) + 2)
  | last {k : ℕ} (he : j.Finished s.toTxEngine k) (hk : k + 1 = j.count) (ho : j.Out s₀ s k)
      (ha : Alert s) : Stage s 1

/-- The second state is at the same stage as the first. -/
structure Alike (s s' : TxPath) : Prop where
  engine : ∃ q, s'.toTxEngine = { s.toTxEngine with txFifo := q }
  pushed : s'.pushed = s.pushed
  unused : s.cache.unusedCache ≠ [] → s'.cache.unusedCache ≠ []
  queue : ∀ cur, j.Queue s₀ rest s cur → j.Queue s₀ rest s' cur
  awake : s.dma = none → j.Awake s → j.Awake s'
  alert : s.pktDone = true → Alert s → Alert s'

variable {j s₀ rest} {k fill off w : ℕ}

theorem Out.congr (h : j.Out s₀ s k) (hp : s'.pushed = s.pushed) : j.Out s₀ s' k := by
  rwa [Out, hp]

theorem Stage.alike (h : j.Stage s₀ rest s w) (ha : j.Alike s₀ rest s s') :
    j.Stage s₀ rest s' w := by
  obtain ⟨q, hq⟩ := ha.engine
  cases h with
  | waiting he hqueue ho hawake =>
    exact .waiting (by rw [hq]; exact { he with }) (ha.queue _ hqueue) (ho.congr ha.pushed)
      (ha.awake he.dma hawake)
  | context he hd hqueue ho hawake =>
    exact .context (by rw [hq]; exact { he with }) (by rw [hq]; exact hd) (ha.queue _ hqueue)
      (ho.congr ha.pushed) (ha.awake hd hawake)
  | header he hds hd hu hqueue ho =>
    exact .header (by rw [hq]; exact { he with }) hds (by rw [hq]; exact hd) (ha.unused hu)
      (ha.queue _ hqueue) (ho.congr ha.pushed)
  | gathering he hr hqueue ho hawake =>
    exact .gathering (by rw [hq]; exact { he with }) (by rw [hq]; exact hr) (ha.queue _ hqueue)
      (ho.congr ha.pushed) (ha.awake he.dma hawake)
  | fetching he hr hu hqueue ho =>
    exact .fetching (by rw [hq]; exact { he with }) hr (ha.unused hu) (ha.queue _ hqueue)
      (ho.congr ha.pushed)
  | pending he hr hqueue ho halert =>
    exact .pending (by rw [hq]; exact { he with }) (by rw [hq]; exact hr) (ha.queue _ hqueue)
      (ho.congr ha.pushed) (ha.alert he.done halert)
  | last he hk ho halert =>
    exact .last (by rw [hq]; exact { he with }) hk (ho.congr ha.pushed) (ha.alert he.done halert)

end TsoJob

end Gem5
