import Gem5.DmaAtomic
import Gem5.Proofs.DmaPort

/-!
# DMA through backdoors

After `d` bytes of a DMA the store is that of one copy of `d` bytes, `d` bytes are acknowledged, and
the chunk generator stands at the next piece (`Sent`). A packet and a backdoor that the generator can
follow both lead from one such state to the next. Another backdoor stops the simulation.
-/

namespace Gem5

open Machine Pieces Bytes Function

namespace Store

variable {m : Store} {rd : Bool} {cmd : MemCmd} {addr off k n : ℕ}

theorem copy_zero : m.copy rd addr off 0 = m := by
  have hempty : ∀ x i : ℕ, ¬(x ≤ i ∧ i < x + 0) := fun x i => by omega
  simp only [copy, hempty, if_false]
  split_ifs <;> rfl

theorem copy_copy : (m.copy rd addr off k).copy rd (addr + k) (off + k) n
    = m.copy rd addr off (k + n) := by
  cases rd with
  | true =>
    simp only [copy, if_true]
    congr 1
    funext i
    split_ifs with h1 h2 h3
    · congr 1
      omega
    · omega
    · rfl
    · omega
    · omega
    · rfl
  | false =>
    simp only [copy, Bool.false_eq_true, if_false]
    congr 1
    funext x
    split_ifs with h1 h2 h3
    · congr 1
      omega
    · omega
    · rfl
    · omega
    · omega
    · rfl

theorem access_access {data : Bool} :
    (m.access cmd addr (if data then some 0 else none) k).access cmd (addr + k)
      (if data then some k else none) n
      = m.access cmd addr (if data then some 0 else none) (k + n) := by
  cases data with
  | true =>
    have h : (m.copy cmd.isRead addr 0 k).copy cmd.isRead (addr + k) (0 + k) n
        = m.copy cmd.isRead addr 0 (k + n) := copy_copy
    rwa [Nat.zero_add] at h
  | false => rfl

theorem access_zero {data : Option ℕ} : m.access cmd addr data 0 = m := by
  cases data with
  | none => rfl
  | some off => exact copy_zero

end Store

namespace DmaAtomic

variable (env : MemSystem) {s₀ s s' : DmaAtomic} {a : DmaAction} {g : ChunkGenerator}
  {d k n lat : ℕ}

/-- The request state of the DMA that starts in `s₀`, when `n` bytes are acknowledged. -/
abbrev during (s₀ : DmaAtomic) (a : DmaAction) (g : ChunkGenerator) (n : ℕ) : DmaReqState :=
  .during a s₀.port.requestorId g n

abbrev req (s₀ : DmaAtomic) : ℕ := s₀.port.actions.length

/-- The DMA is on its way, and `n` bytes are acknowledged. -/
structure Held (s₀ : DmaAtomic) (a : DmaAction) (g : ChunkGenerator) (n : ℕ) (s : DmaAtomic) :
    Prop where
  heap : s.port.heap s₀.req = some (s₀.during a g n)
  pending : s.port.pendingCount = s₀.port.pendingCount + 1
  completions : s.port.completions = s₀.port.completions

/-- And the bytes up to `moved` are copied. -/
structure Sent (s₀ : DmaAtomic) (a : DmaAction) (acked : ℕ) (g : ChunkGenerator) (moved : ℕ)
    (s : DmaAtomic) : Prop extends Held s₀ a g acked s where
  store : s.store = s₀.store.access a.cmd a.addr (if a.data then some 0 else none) moved
  acked : s.acked = s₀.acked + acked
  curTick : s.port.curTick = s₀.port.curTick

theorem signalIfIdle_frame (p : DmaPort) : p.signalIfIdle.heap = p.heap
    ∧ p.signalIfIdle.pendingCount = p.pendingCount ∧ p.signalIfIdle.completions = p.completions
    ∧ p.signalIfIdle.curTick = p.curTick := by
  unfold DmaPort.signalIfIdle DmaPort.signalDrainDone
  split_ifs <;> exact ⟨rfl, rfl, rfl, rfl⟩

/-- A response for `k` bytes leaves the memory system alone. -/
structure Responded (s : DmaAtomic) (k : ℕ) (s' : DmaAtomic) : Prop where
  store : s'.store = s.store
  acked : s'.acked = s.acked + k
  memBackdoors : s'.memBackdoors = s.memBackdoors
  calls : s'.calls = s.calls

theorem Held.handleResp_of_lt (h : Held s₀ a g n s) (hk : addAddr n k < a.size) (lat : ℕ) :
    Ends (s.handleResp s₀.req k lat) fun s' => Held s₀ a g (addAddr n k) s' ∧ Responded s k s'
      ∧ s'.port.curTick = s.port.curTick := by
  unfold DmaAtomic.handleResp
  rw [DmaPort.handleResp_of_lt h.heap hk, ok_bind]
  obtain ⟨hheap, hpend, hcomp, htick⟩ :=
    signalIfIdle_frame (s.port.received s₀.req (s₀.during a g n) (addAddr n k))
  refine ⟨⟨?_, hpend.trans h.pending, hcomp.trans h.completions⟩, ⟨rfl, rfl, rfl, rfl⟩, htick⟩
  exact (congrFun hheap _).trans (update_self ..)

theorem Held.handleResp_of_eq (h : Held s₀ a g n s) (hk : addAddr n k = a.size) (lat : ℕ) :
    Ends (s.handleResp s₀.req k lat) fun s' =>
      s'.port.pendingCount = s₀.port.pendingCount
      ∧ s'.port.completions = (if a.event then s₀.port.completions
        ++ [(s₀.req, s.port.curTick + (lat + a.delay))] else s₀.port.completions)
      ∧ s'.port.heap s₀.req = none ∧ Responded s k s' := by
  have hpos : s.port.pendingCount ≠ 0 := by
    rw [h.pending]
    omega
  unfold DmaAtomic.handleResp
  rw [DmaPort.handleResp_of_eq h.heap hk hpos, ok_bind]
  obtain ⟨hheap, hpend, hcomp, -⟩ :=
    signalIfIdle_frame (s.port.completed s₀.req (s₀.during a g n) lat)
  refine ⟨?_, ?_, (congrFun hheap _).trans (update_self ..), rfl, rfl, rfl, rfl⟩
  · rw [hpend]
    change s.port.pendingCount - 1 = _
    rw [h.pending, Nat.add_sub_cancel]
  · rw [hcomp]
    change (if a.event then s.port.completions ++ [(_, s.port.curTick + (lat + a.delay))]
      else s.port.completions) = _
    rw [h.completions]

theorem Held.handleResp_of_gt (h : Held s₀ a g n s) (hk : a.size < addAddr n k) (lat : ℕ) :
    s.handleResp s₀.req k lat = .error (.assertion "state->totBytes >= state->numBytes") := by
  unfold DmaAtomic.handleResp
  rw [DmaPort.handleResp_of_gt h.heap hk]
  rfl

theorem Sent.handleResp (h : Sent s₀ a d g (d + n) s) (hn : d + n ≤ a.size)
    (hfits : s₀.Fits a) (lat : ℕ) :
    Ends (s.handleResp s₀.req n lat) fun s' => Responded s n s'
      ∧ (d + n = a.size → Completed s₀ a lat s')
      ∧ (d + n < a.size → Sent s₀ a (d + n) g (d + n) s') := by
  have hsum : addAddr d n = d + n := addAddr_eq (by have := hfits.2; omega)
  rcases hn.lt_or_eq with hlt | heq
  · refine (h.handleResp_of_lt (hsum.trans_lt hlt) lat).mono fun s' hs' => ?_
    obtain ⟨hheld, hresp, htick⟩ := hs'
    rw [hsum] at hheld
    refine ⟨hresp, fun heq => by omega, fun _ => ⟨hheld, ?_, ?_, htick.trans h.curTick⟩⟩
    · exact hresp.store.trans h.store
    · rw [hresp.acked, h.acked, Nat.add_assoc]
  · refine (h.handleResp_of_eq (hsum.trans heq) lat).mono fun s' hs' => ?_
    obtain ⟨hpend, hcomp, -, hresp⟩ := hs'
    refine ⟨hresp, fun _ => ⟨?_, ?_, hpend, ?_⟩, fun hlt => by omega⟩
    · rw [hresp.store, h.store, heq]
    · rw [hresp.acked, h.acked, Nat.add_assoc, heq]
    · rw [hcomp, h.curTick]

theorem createPacket_frame (st : DmaReqState) (j : ℕ) : (st.createPacket j).senderState = some j
    ∧ (st.createPacket j).cmd = st.cmd ∧ (st.createPacket j).req.size = st.gen.size := by
  unfold DmaReqState.createPacket
  cases st.isDdioReq <;> exact ⟨rfl, rfl, rfl⟩

theorem handleRespPacket_response (s : DmaAtomic) {st : DmaReqState} {j : ℕ}
    (hcmd : st.cmd = .readReq ∨ st.cmd = .writeReq) :
    s.handleRespPacket (response (st.createPacket j)) lat = s.handleResp j st.gen.size lat := by
  obtain ⟨hpst, hpcmd, hpsize⟩ := createPacket_frame st j
  have hresp : (response (st.createPacket j)).cmd.isResponse = true := by
    rw [response, hpcmd]
    exact DmaPort.isResponse_responseCommand hcmd
  have hsize : (response (st.createPacket j)).req.size = st.gen.size := hpsize
  unfold DmaAtomic.handleRespPacket DmaAtomic.handleResp
  rw [DmaPort.handleRespPacket_eq hresp hpst, hsize]

theorem Sent.setGen (h : Sent s₀ a d g n s) (g' : ChunkGenerator) :
    Sent s₀ a d g' n (s.setState s₀.req { s₀.during a g d with gen := g' }) :=
  ⟨⟨update_self .., h.pending, h.completions⟩, h.store, h.acked, h.curTick⟩

theorem Sent.packet (h : Sent s₀ a d g d s) (hcmd : a.cmd = .readReq ∨ a.cmd = .writeReq)
    (hat : g.At s₀.port.cacheLineSize a.addr a.size d) (hfits : s₀.Fits a)
    (rs : List AddrRange) (lat : ℕ) :
    Ends (handleRespPacket { (s.sendAtomic ((s₀.during a g d).createPacket s₀.req)).setState s₀.req
          { s₀.during a g d with gen := g.next.2 } with memBackdoors := rs }
      (response ((s₀.during a g d).createPacket s₀.req)) lat) fun s' =>
      s'.memBackdoors = rs ∧ s'.calls = s.calls + 1
      ∧ (d + g.curSize = a.size → Completed s₀ a lat s')
      ∧ (d + g.curSize < a.size → Sent s₀ a (d + g.curSize) g.next.2 (d + g.curSize) s') := by
  have hmoved : Sent s₀ a d g (d + g.curSize)
      (s.sendAtomic ((s₀.during a g d).createPacket s₀.req)) := by
    refine ⟨⟨h.heap, h.pending, h.completions⟩, ?_, h.acked, h.curTick⟩
    rw [DmaPort.createPacket_during hat, ← Store.access_access, ← h.store]
    simp only [sendAtomic, DmaAction.chunk, Nat.add_sub_cancel_left]
  have hset := hmoved.setGen g.next.2
  have hs : Sent s₀ a d g.next.2 (d + g.curSize) { (s.sendAtomic _).setState s₀.req
      { s₀.during a g d with gen := g.next.2 } with memBackdoors := rs } :=
    ⟨⟨hset.heap, hset.pending, hset.completions⟩, hset.store, hset.acked, hset.curTick⟩
  rw [handleRespPacket_response _ hcmd]
  refine (hs.handleResp hat.size_le hfits lat).mono fun s' hs' => ?_
  exact ⟨hs'.1.memBackdoors, hs'.1.calls, hs'.2⟩

theorem not_next_eq (hat : g.At s₀.port.cacheLineSize a.addr a.size d)
    (hc : 0 < s₀.port.cacheLineSize) : g.next.1 = decide (d + g.curSize < a.size) := by
  have hle := hat.size_le
  cases hl : g.last with
  | true =>
    have := hat.last_iff.1 hl
    simp [ChunkGenerator.next, hl, this]
  | false =>
    obtain ⟨hnext, hat'⟩ := hat.next hc hl
    rw [hnext, decide_eq_true hat'.lt]

def Between (s₀ : DmaAtomic) (a : DmaAction) (d : ℕ) (s : DmaAtomic) : Prop :=
  ∃ g, g.At s₀.port.cacheLineSize a.addr a.size d ∧ Sent s₀ a d g d s

/-- What a turn that copies `n` bytes and ends with the latency `lat` leads to. -/
def Turn (s₀ : DmaAtomic) (a : DmaAction) (d n lat : ℕ) (r : Bool × DmaAtomic) : Prop :=
  r.1 = decide (d + n = a.size) ∧ (d + n = a.size → Completed s₀ a lat r.2)
    ∧ (d + n < a.size → Between s₀ a (d + n) r.2)

theorem Sent.turn (hat : g.At s₀.port.cacheLineSize a.addr a.size d)
    (hc : 0 < s₀.port.cacheLineSize)
    (hdone : d + g.curSize = a.size → Completed s₀ a lat s')
    (hmore : d + g.curSize < a.size → Sent s₀ a (d + g.curSize) g.next.2 (d + g.curSize) s') :
    Turn s₀ a d g.curSize lat (!g.next.1, s') := by
  have hle := hat.size_le
  refine ⟨?_, hdone, fun hlt => ?_⟩
  · rw [not_next_eq hat hc]
    by_cases h : d + g.curSize = a.size
    · simp [h]
    · have : d + g.curSize < a.size := by omega
      simp [h, this]
  · have hl : g.last = false := by
      by_contra hl
      have := hat.last_iff.1 (Bool.not_eq_false _ ▸ hl)
      omega
    exact ⟨_, (hat.next hc hl).2, hmore hlt⟩

section Packets

variable (hcmd : a.cmd = .readReq ∨ a.cmd = .writeReq) (hfits : s₀.Fits a)
  (hline : isPowerOf2 s₀.port.cacheLineSize = true)

include hcmd hfits hline

theorem Between.sendAtomicReq (h : Between s₀ a d s) :
    Ends (s.sendAtomicReq env s₀.req) fun r =>
      r.2.calls = s.calls + 1
      ∧ Turn s₀ a d (first s₀.port.cacheLineSize (a.addr + d) (a.size - d)) (env.latency s.calls) r := by
  obtain ⟨g, hat, hs⟩ := h
  unfold DmaAtomic.sendAtomicReq
  simp only [DmaPort.deref, hs.heap, ok_bind]
  rw [← hat.curSize]
  refine (hs.packet hcmd hat hfits s.memBackdoors (env.latency s.calls)).bind fun s' hs' => ?_
  exact ⟨hs'.2.1, Sent.turn hat (isPowerOf2_pos hline) hs'.2.2.1 hs'.2.2.2⟩

theorem Between.sendAtomicBdReq_none (h : Between s₀ a d s)
    (hnone : containsAddr s.memBackdoors (a.addr + d) = none) :
    Ends (s.sendAtomicBdReq env s₀.req) fun r =>
      r.2.calls = s.calls + 1
      ∧ r.2.memBackdoors = insertRange s.memBackdoors (env.backdoor s.calls (a.addr + d))
      ∧ Turn s₀ a d (first s₀.port.cacheLineSize (a.addr + d) (a.size - d)) (env.latency s.calls) r := by
  obtain ⟨g, hat, hs⟩ := h
  have hgen : (s₀.during a g d).gen.addr = a.addr + d := hat.curAddr
  have haddr : ((s₀.during a g d).createPacket
      s₀.req).addr = a.addr + d := by
    rw [DmaPort.createPacket_during hat]
    rfl
  unfold DmaAtomic.sendAtomicBdReq
  simp only [DmaPort.deref, hs.heap, ok_bind, hgen, hnone, sendAtomicBackdoor, haddr]
  rw [← hat.curSize]
  refine (hs.packet hcmd hat hfits (insertRange s.memBackdoors (env.backdoor s.calls (a.addr + d)))
    (env.latency s.calls)).bind fun s' hs' => ?_
  exact ⟨hs'.2.1, hs'.1, Sent.turn hat (isPowerOf2_pos hline) hs'.2.2.1 hs'.2.2.2⟩

end Packets

section Backdoors

variable {r : AddrRange}

theorem contains_of_eq_some {rs : List AddrRange} {x : ℕ} (h : containsAddr rs x = some r) :
    r.Contains x := by
  have := List.find?_some h
  exact of_decide_eq_true this

theorem useBackdoor_eq {j : ℕ} {st : DmaReqState} {addr off tot : ℕ} (haddr : st.gen.addr = addr)
    (hoff : st.gen.complete = off) (htot : st.totBytes = tot) (hle : off ≤ tot) (hlt : tot < 2 ^ 64)
    (hr : r.Contains addr) : s.useBackdoor j st r
      = s.accessBackdoor j st addr (min (tot - off) (r.stop - addr)) := by
  have hstop := r.bound
  obtain ⟨h1, h2⟩ := hr
  have hsub : subAddr addr r.start = addr - r.start := subAddr_eq h1 (by omega)
  have hsize : subAddr r.size (addr - r.start) = r.stop - addr := by
    rw [AddrRange.size, subAddr_eq (by omega) hstop, subAddr_eq (by omega) (by omega)]
    omega
  have hrem : subAddr tot off = tot - off := subAddr_eq hle hlt
  simp only [DmaAtomic.useBackdoor, haddr, hoff, htot, hsub, hsize, hrem, Nat.add_sub_cancel' h1]

theorem Sent.accessBackdoor (h : Sent s₀ a d g d s)
    (hat : g.At s₀.port.cacheLineSize a.addr a.size d) (hfits : s₀.Fits a)
    (hline : isPowerOf2 s₀.port.cacheLineSize = true) (hn : g.curSize ≤ n) (hle : d + n ≤ a.size) :
    Ends (s.accessBackdoor s₀.req (s₀.during a g d) (a.addr + d) n)
      fun t => t.2.calls = s.calls ∧ t.2.memBackdoors = s.memBackdoors
        ∧ t.1 = decide (d + n = a.size) ∧ (d + n = a.size → Completed s₀ a 0 t.2)
        ∧ (d + n < a.size →
          ∃ g', ChunkGenerator.Resumed s₀.port.cacheLineSize a.addr a.size (d + n) g'
            ∧ Sent s₀ a (d + n) g' (d + n) t.2) := by
  have hb := hfits.2
  have hc := isPowerOf2_pos hline
  obtain ⟨gen, hgen, hlast, hmore⟩ := hat.setNext hc hb hn hle
  have hnext : (s₀.during a g d).gen.setNext
      (addAddr (s₀.during a g d).gen.addr n) = .ok gen := by
    rw [← hgen, show (s₀.during a g d).gen.addr = a.addr + d from
      hat.curAddr, addAddr_eq (by omega)]
    rfl
  have hmoved : Sent s₀ a d g (d + n) { s with
      store := s.store.access a.cmd (a.addr + d) (if a.data then some g.complete else none) n } := by
    refine ⟨⟨h.heap, h.pending, h.completions⟩, ?_, h.acked, h.curTick⟩
    rw [← Store.access_access, ← h.store, hat.complete]
  unfold DmaAtomic.accessBackdoor
  rw [hnext, ok_bind]
  refine ((hmoved.setGen _).handleResp hle hfits _).bind fun s' hs' => ?_
  refine ⟨hs'.1.calls, hs'.1.memBackdoors, ?_, hs'.2.1,
    fun hlt => ⟨_, (hmore hlt).2, hs'.2.2 hlt⟩⟩
  rcases hle.lt_or_eq with hlt | heq
  · simp [(hmore hlt).1, hlt.ne]
  · simp [hlast heq, heq]

theorem Sent.sendAtomicBdReq_some (h : Sent s₀ a d g d s)
    (hat : g.At s₀.port.cacheLineSize a.addr a.size d) (hfits : s₀.Fits a)
    (hsome : containsAddr s.memBackdoors (a.addr + d) = some r) :
    s.sendAtomicBdReq env s₀.req
      = s.accessBackdoor s₀.req (s₀.during a g d) (a.addr + d)
        (min (a.size - d) (r.stop - (a.addr + d))) := by
  have hb := hfits.2
  have hlt := hat.lt
  have hgen : (s₀.during a g d).gen.addr = a.addr + d := hat.curAddr
  have htot : (s₀.during a g d).totBytes = a.size := rfl
  unfold DmaAtomic.sendAtomicBdReq
  simp only [DmaPort.deref, h.heap, ok_bind, hgen, hsome]
  exact useBackdoor_eq hgen hat.complete htot hlt.le (by omega) (contains_of_eq_some hsome)

theorem Between.useBackdoor (h : Between s₀ a d s) (hfits : s₀.Fits a)
    (hline : isPowerOf2 s₀.port.cacheLineSize = true)
    (hsome : containsAddr s.memBackdoors (a.addr + d) = some r)
    (huse : r.stop - (a.addr + d) < a.size - d →
      first s₀.port.cacheLineSize (a.addr + d) (a.size - d) ≤ r.stop - (a.addr + d)
      ∧ ((a.addr + d + (r.stop - (a.addr + d))) % s₀.port.cacheLineSize = 0
        ∨ s₀.port.cacheLineSize - (a.addr + d + (r.stop - (a.addr + d))) % s₀.port.cacheLineSize
          ≤ a.size - d - (r.stop - (a.addr + d)))) :
    Ends (s.sendAtomicBdReq env s₀.req) fun t =>
      t.2.calls = s.calls ∧ t.2.memBackdoors = s.memBackdoors
      ∧ Turn s₀ a d (min (a.size - d) (r.stop - (a.addr + d))) 0 t := by
  obtain ⟨g, hat, hs⟩ := h
  have hb := hfits.2
  have hpos := hat.size_pos (isPowerOf2_pos hline)
  have hle := hat.size_le
  have hlt := hat.lt
  rw [hs.sendAtomicBdReq_some env hat hfits hsome]
  rcases Nat.lt_or_ge (r.stop - (a.addr + d)) (a.size - d) with hpart | hall
  · obtain ⟨hfirst, hfit⟩ := huse hpart
    rw [← hat.curSize] at hfirst
    rw [Nat.add_assoc, Nat.sub_sub] at hfit
    rw [Nat.min_eq_right hpart.le]
    refine (hs.accessBackdoor hat hfits hline hfirst (by omega)).mono fun t ht => ?_
    refine ⟨ht.1, ht.2.1, ht.2.2.1, ht.2.2.2.1, fun hlt' => ?_⟩
    obtain ⟨g', hres, hs'⟩ := ht.2.2.2.2 hlt'
    exact ⟨g', hres.at (by omega) hlt' (by omega) hfit, hs'⟩
  · rw [Nat.min_eq_left hall]
    refine (hs.accessBackdoor hat hfits hline (by omega) (by omega)).mono fun t ht => ?_
    exact ⟨ht.1, ht.2.1, ht.2.2.1, ht.2.2.2.1, fun hlt' => by omega⟩

theorem Between.backdoor_short (h : Between s₀ a d s) (hfits : s₀.Fits a)
    (hsome : containsAddr s.memBackdoors (a.addr + d) = some r)
    (hpart : r.stop - (a.addr + d) < a.size - d)
    (hshort : r.stop - (a.addr + d) < first s₀.port.cacheLineSize (a.addr + d) (a.size - d)) :
    ∃ e, s.sendAtomicBdReq env s₀.req = .error e := by
  obtain ⟨g, hat, hs⟩ := h
  have hb := hfits.2
  have hgen : (s₀.during a g d).gen.addr = a.addr + d := hat.curAddr
  rw [← hat.curSize] at hshort
  obtain ⟨e, he⟩ := hat.setNext_fails hshort
  refine ⟨e, ?_⟩
  rw [hs.sendAtomicBdReq_some env hat hfits hsome, Nat.min_eq_right hpart.le, DmaAtomic.accessBackdoor,
    hgen, addAddr_eq (by omega)]
  change (g.setNext _ >>= _) = _
  rw [he]
  rfl

/-- The generator gives a chunk that is larger than the rest of the region. -/
def Overrun (s₀ : DmaAtomic) (a : DmaAction) (d : ℕ) (s : DmaAtomic) : Prop :=
  ∃ g, ChunkGenerator.Resumed s₀.port.cacheLineSize a.addr a.size d g ∧ d < a.size
    ∧ a.size - d < g.curSize ∧ g.curSize ≤ s₀.port.cacheLineSize ∧ Sent s₀ a d g d s

theorem Between.backdoor_overrun (h : Between s₀ a d s) (hfits : s₀.Fits a)
    (hline : isPowerOf2 s₀.port.cacheLineSize = true)
    (hsome : containsAddr s.memBackdoors (a.addr + d) = some r)
    (hpart : r.stop - (a.addr + d) < a.size - d)
    (hfirst : first s₀.port.cacheLineSize (a.addr + d) (a.size - d) ≤ r.stop - (a.addr + d))
    (h0 : (a.addr + d + (r.stop - (a.addr + d))) % s₀.port.cacheLineSize ≠ 0)
    (hlarge : a.size - d - (r.stop - (a.addr + d)) < s₀.port.cacheLineSize
      - (a.addr + d + (r.stop - (a.addr + d))) % s₀.port.cacheLineSize) :
    Ends (s.sendAtomicBdReq env s₀.req) fun t =>
      t.1 = false ∧ Overrun s₀ a (d + (r.stop - (a.addr + d))) t.2 := by
  obtain ⟨g, hat, hs⟩ := h
  rw [← hat.curSize] at hfirst
  rw [Nat.add_assoc] at h0 hlarge
  rw [Nat.sub_sub] at hlarge
  rw [hs.sendAtomicBdReq_some env hat hfits hsome, Nat.min_eq_right hpart.le]
  refine (hs.accessBackdoor hat hfits hline hfirst (by omega)).mono fun t ht => ?_
  have hlt : d + (r.stop - (a.addr + d)) < a.size := by omega
  obtain ⟨g', hres, hs'⟩ := ht.2.2.2.2 hlt
  obtain ⟨hover, hle⟩ := hres.large h0 hlarge
  refine ⟨?_, g', hres, hlt, hover, hle, hs'⟩
  rw [ht.2.2.1]
  exact decide_eq_false hlt.ne

theorem Overrun.fails (h : Overrun s₀ a d s) (hcmd : a.cmd = .readReq ∨ a.cmd = .writeReq)
    (hfits : s₀.Fits a) : ∃ e, s.sendAtomicBdReq env s₀.req = .error e := by
  obtain ⟨g, hres, hlt, hlarge, hc, hs⟩ := h
  have hb := hfits.2
  have hgen : (s₀.during a g d).gen.addr = a.addr + d := hres.curAddr
  have htot : (s₀.during a g d).totBytes = a.size := rfl
  have hcomplete : g.complete = d := by
    rw [ChunkGenerator.complete, hres.curAddr, hres.startAddr, subAddr_eq (by omega) (by omega)]
    omega
  unfold DmaAtomic.sendAtomicBdReq
  simp only [DmaPort.deref, hs.heap, ok_bind, hgen]
  cases hbd : containsAddr s.memBackdoors (a.addr + d) with
  | none =>
    refine ⟨.assertion "state->totBytes >= state->numBytes", ?_⟩
    have hgt : a.size < addAddr d (s₀.during a g d).gen.size := by
      rw [show (s₀.during a g d).gen.size = g.curSize from rfl, addAddr_eq (by omega)]
      omega
    simp only [sendAtomicBackdoor]
    rw [handleRespPacket_response _ hcmd, Held.handleResp_of_gt (g := g.next.2) ?_ hgt]
    · rfl
    · exact ⟨update_self .., hs.pending, hs.completions⟩
  | some r =>
    refine ⟨.assertion "next >= nextAddr", ?_⟩
    simp only
    rw [useBackdoor_eq hgen hcomplete htot hlt.le (by omega) (contains_of_eq_some hbd),
      DmaAtomic.accessBackdoor, hgen, addAddr_eq (by omega)]
    change (g.setNext _ >>= _) = _
    rw [ChunkGenerator.setNext, require, if_neg]
    · rfl
    · rw [hres.nextAddr, hres.curAddr]
      omega

end Backdoors

section Loops

variable (hcmd : a.cmd = .readReq ∨ a.cmd = .writeReq) (hfits : s₀.Fits a)
  (hline : isPowerOf2 s₀.port.cacheLineSize = true)

include hcmd hfits hline

theorem Between.sendLoop_packets {turns : ℕ} : ∀ {d : ℕ} {s : DmaAtomic}, Between s₀ a d s →
    a.size - d ≤ turns → Ends (sendLoop env false s₀.req (turns + 1) s) fun s' =>
      Completed s₀ a (env.latency (s'.calls - 1)) s' := by
  induction turns with
  | zero =>
    intro d s ⟨g, hat, _⟩ hturns
    have := hat.lt
    omega
  | succ turns ih =>
    intro d s h hturns
    obtain ⟨g, hat, -⟩ := id h
    have hpos := first_pos (a := a.addr + d) (isPowerOf2_pos hline) (show 0 < a.size - d by
      have := hat.lt
      omega)
    have hle : first s₀.port.cacheLineSize (a.addr + d) (a.size - d) ≤ a.size - d := first_le
    rw [sendLoop]
    refine (h.sendAtomicReq env hcmd hfits hline).bind fun r hr => ?_
    obtain ⟨hcalls, hdone, hlast, hmore⟩ := hr
    beta_reduce
    rw [hdone]
    split_ifs with heq
    · change Completed s₀ a (env.latency (r.2.calls - 1)) r.2
      rw [hcalls, Nat.add_sub_cancel]
      exact hlast (of_decide_eq_true heq)
    · have hne := of_decide_eq_false (Bool.not_eq_true _ ▸ heq)
      exact ih (hmore (by omega)) (by omega)

theorem Between.sendLoop_backdoors {turns : ℕ} : ∀ {d : ℕ} {s : DmaAtomic}, Between s₀ a d s →
    a.size - d ≤ turns →
    Usable env s₀.port.cacheLineSize turns s.memBackdoors s.calls (a.addr + d) (a.size - d) →
    Ends (sendLoop env true s₀.req (turns + 1) s) fun s' =>
      ∃ lat, (lat = 0 ∨ lat = env.latency (s'.calls - 1)) ∧ Completed s₀ a lat s' := by
  induction turns with
  | zero =>
    intro d s ⟨g, hat, _⟩ hturns
    have := hat.lt
    omega
  | succ turns ih =>
    intro d s h hturns huse
    obtain ⟨g, hat, -⟩ := id h
    have hlt := hat.lt
    have hpos := first_pos (a := a.addr + d) (isPowerOf2_pos hline) (show 0 < a.size - d by omega)
    have hle : first s₀.port.cacheLineSize (a.addr + d) (a.size - d) ≤ a.size - d := first_le
    rw [sendLoop]
    rw [Usable] at huse
    cases hbd : containsAddr s.memBackdoors (a.addr + d) with
    | none =>
      simp only [hbd] at huse
      refine (h.sendAtomicBdReq_none env hcmd hfits hline hbd).bind fun r hr => ?_
      obtain ⟨hcalls, hranges, hdone, hlast, hmore⟩ := hr
      beta_reduce
      rw [hdone]
      split_ifs with heq
      · refine ⟨_, .inr rfl, ?_⟩
        rw [hcalls, Nat.add_sub_cancel]
        exact hlast (of_decide_eq_true heq)
      · have hne := of_decide_eq_false (Bool.not_eq_true _ ▸ heq)
        refine ih (hmore (by omega)) (by omega) ?_
        rw [hcalls, hranges, ← Nat.add_assoc, ← Nat.sub_sub a.size d]
        exact huse (by omega)
    | some r =>
      simp only [hbd] at huse
      have hr := contains_of_eq_some hbd
      refine (h.useBackdoor env hfits hline hbd fun hpart => ⟨(huse hpart).1, (huse hpart).2.1⟩).bind
        fun t ht => ?_
      obtain ⟨hcalls, hranges, hdone, hlast, hmore⟩ := ht
      beta_reduce
      rw [hdone]
      split_ifs with heq
      · exact ⟨0, .inl rfl, hlast (of_decide_eq_true heq)⟩
      · have hne := of_decide_eq_false (Bool.not_eq_true _ ▸ heq)
        have hpart : r.stop - (a.addr + d) < a.size - d := by omega
        rw [Nat.min_eq_right hpart.le] at hmore
        have := hr.2
        refine ih (hmore (by omega)) (by omega) ?_
        rw [hcalls, hranges, ← Nat.add_assoc, ← Nat.sub_sub a.size d]
        exact (huse hpart).2.2

theorem Between.sendLoop_fails {turns : ℕ} : ∀ {d : ℕ} {s : DmaAtomic}, Between s₀ a d s →
    a.size - d ≤ turns →
    ¬Usable env s₀.port.cacheLineSize turns s.memBackdoors s.calls (a.addr + d) (a.size - d) →
    ∃ e, sendLoop env true s₀.req (turns + 1) s = .error e := by
  induction turns with
  | zero => exact fun _ _ h => absurd trivial h
  | succ turns ih =>
    intro d s h hturns huse
    obtain ⟨g, hat, -⟩ := id h
    have hlt := hat.lt
    have hpos := first_pos (a := a.addr + d) (isPowerOf2_pos hline) (show 0 < a.size - d by omega)
    rw [sendLoop]
    simp only [if_true]
    rw [Usable] at huse
    cases hbd : containsAddr s.memBackdoors (a.addr + d) with
    | none =>
      simp only [hbd, Classical.not_imp] at huse
      obtain ⟨hpart, huse⟩ := huse
      obtain ⟨r, hr, hcalls, hranges, hdone, -, hmore⟩ :=
        (h.sendAtomicBdReq_none env hcmd hfits hline hbd).exists
      rw [hr, ok_bind, hdone, if_neg (by simp; omega)]
      refine ih (hmore (by omega)) (by omega) ?_
      rwa [hcalls, hranges, ← Nat.add_assoc, ← Nat.sub_sub a.size d]
    | some r =>
      simp only [hbd, Classical.not_imp] at huse
      obtain ⟨hpart, huse⟩ := huse
      have hr := (contains_of_eq_some hbd).2
      by_cases hfirst : first s₀.port.cacheLineSize (a.addr + d) (a.size - d) ≤ r.stop - (a.addr + d)
      · by_cases hfit : (a.addr + d + (r.stop - (a.addr + d))) % s₀.port.cacheLineSize = 0
            ∨ s₀.port.cacheLineSize - (a.addr + d + (r.stop - (a.addr + d))) % s₀.port.cacheLineSize
              ≤ a.size - d - (r.stop - (a.addr + d))
        · obtain ⟨t, ht, hcalls, hranges, hdone, -, hmore⟩ :=
            (h.useBackdoor env hfits hline hbd fun _ => ⟨hfirst, hfit⟩).exists
          rw [Nat.min_eq_right hpart.le] at hdone hmore
          rw [ht, ok_bind, hdone, if_neg (by simp; omega)]
          refine ih (hmore (by omega)) (by omega) ?_
          rw [hcalls, hranges, ← Nat.add_assoc, ← Nat.sub_sub a.size d]
          exact fun hu => huse ⟨hfirst, hfit, hu⟩
        · obtain ⟨h0, hlarge⟩ := not_or.1 hfit
          obtain ⟨t, ht, hdone, hover⟩ := (h.backdoor_overrun env hfits hline hbd hpart hfirst
            h0 (not_le.1 hlarge)).exists
          rw [ht, ok_bind, hdone, if_neg Bool.false_ne_true]
          obtain ⟨e, he⟩ := hover.fails env hcmd hfits
          refine ⟨e, ?_⟩
          rw [sendLoop, if_pos rfl, he]
          rfl
      · obtain ⟨e, he⟩ := h.backdoor_short env hfits hbd hpart (not_le.1 hfirst)
        exact ⟨e, by rw [he]; rfl⟩

end Loops

theorem between_start (hline : isPowerOf2 s.port.cacheLineSize = true) (hfits : s.Fits a) :
    ∃ s₁, Between s a 0 s₁ ∧ s₁.memBackdoors = s.memBackdoors ∧ s₁.calls = s.calls
    ∧ ∀ bypass, s.dma env bypass a
      = sendLoop env bypass s.port.actions.length (a.size + 1) s₁ := by
  have hb := hfits.2
  obtain ⟨g, hg, hat⟩ := ChunkGenerator.create_at (n := a.size) hline hfits.1
    (show a.addr + a.size < 2 ^ 64 by omega) (by omega)
  have hdone : g.done = false := by
    have := hat.size_pos (isPowerOf2_pos hline)
    rw [ChunkGenerator.done, beq_eq_false_iff_ne]
    omega
  refine ⟨{ s with port := { s.port with
    heap := update s.port.heap s.port.actions.length (some (.create a s.port.requestorId g))
    pendingCount := s.port.pendingCount + 1
    actions := s.port.actions ++ [a] } }, ⟨g, hat, ?_⟩, rfl, rfl, fun bypass => ?_⟩
  · exact ⟨⟨update_self .., rfl, rfl⟩, Store.access_zero.symm, rfl, rfl⟩
  · rw [dma, hg, ok_bind, if_neg (by rw [hdone]; exact Bool.false_ne_true)]

theorem Completed.same {lat' : ℕ} (h : Completed s₀ a lat s) (h' : Completed s₀ a lat' s') :
    SameTransfer s s' where
  mem := by rw [h.store, h'.store]
  buf := by rw [h.store, h'.store]
  acked := by rw [h.acked, h'.acked]
  pending := by rw [h.pending, h'.pending]
  completions := by
    rw [h.completions, h'.completions]
    cases a.event <;> simp

/-- A DMA in atomic mode, with packets, copies its bytes and completes with the latency of its last
packet. Through backdoors it ends in the same state exactly if the chunk generator can follow each
one that is used, and completes then with the latency of its last access, which is none for a
backdoor. -/
theorem backdoor_same_transfer (env : MemSystem) (s : DmaAtomic) (a : DmaAction)
    (hcmd : a.cmd = .readReq ∨ a.cmd = .writeReq)
    (hline : isPowerOf2 s.port.cacheLineSize = true) (hfits : s.Fits a) :
    ∃ s₁, s.dma env false a = .ok s₁ ∧ Completed s a (env.latency (s₁.calls - 1)) s₁
    ∧ ((∃ s₂, s.dma env true a = .ok s₂ ∧ SameTransfer s₁ s₂) ↔
      Usable env s.port.cacheLineSize a.size s.memBackdoors s.calls a.addr a.size)
    ∧ ∀ s₂, s.dma env true a = .ok s₂ →
      ∃ lat, (lat = 0 ∨ lat = env.latency (s₂.calls - 1)) ∧ Completed s a lat s₂ := by
  obtain ⟨t, ht, hranges, hcalls, hdma⟩ := between_start env hline hfits
  obtain ⟨s₁, hs₁, hdone⟩ :=
    (ht.sendLoop_packets env hcmd hfits hline (Nat.sub_le _ _)).exists
  have hok : Usable env s.port.cacheLineSize a.size s.memBackdoors s.calls a.addr a.size →
      Ends (s.dma env true a) fun s₂ =>
        ∃ lat, (lat = 0 ∨ lat = env.latency (s₂.calls - 1)) ∧ Completed s a lat s₂ := by
    intro huse
    rw [hdma]
    refine ht.sendLoop_backdoors env hcmd hfits hline (Nat.sub_le _ _) ?_
    rwa [hranges, hcalls]
  have hfail : ¬Usable env s.port.cacheLineSize a.size s.memBackdoors s.calls a.addr a.size →
      ∃ e, s.dma env true a = .error e := by
    intro huse
    rw [hdma]
    refine ht.sendLoop_fails env hcmd hfits hline (Nat.sub_le _ _) ?_
    rwa [hranges, hcalls]
  refine ⟨s₁, (hdma false).trans hs₁, hdone, ⟨?_, fun huse => ?_⟩,
    fun s₂ hs₂ => ?_⟩
  · rintro ⟨s₂, hs₂, -⟩
    by_contra huse
    obtain ⟨e, he⟩ := hfail huse
    simp [he] at hs₂
  · obtain ⟨s₂, hs₂, lat, -, hdone₂⟩ := (hok huse).exists
    exact ⟨s₂, hs₂, hdone.same hdone₂⟩
  · by_cases huse : Usable env s.port.cacheLineSize a.size s.memBackdoors s.calls a.addr a.size
    · exact (hok huse).result hs₂
    · obtain ⟨e, he⟩ := hfail huse
      simp [he] at hs₂

def fresh (rs : List AddrRange) : DmaAtomic :=
  ⟨.init 16 0 1 0, ⟨fun x => BitVec.ofNat 8 x, fun i => BitVec.ofNat 8 (200 - i)⟩, rs, 0, 0⟩

def giving (r : Option AddrRange) : MemSystem := ⟨fun _ => 3, fun k _ => if k = 0 then r else none⟩

/-- The second chunk goes through the backdoor that comes with the first, and the rest, from inside
the third chunk on, with packets. -/
theorem backdoor_same_transfer_fresh : ∃ s₁ s₂,
    (fresh []).dma (giving (some ⟨0, 40, by decide⟩)) false (DmaPort.writeAction 8 56) = .ok s₁
    ∧ (fresh []).dma (giving (some ⟨0, 40, by decide⟩)) true (DmaPort.writeAction 8 56) = .ok s₂
    ∧ SameTransfer s₁ s₂ := by
  obtain ⟨s₁, hs₁, -, hiff, -⟩ := backdoor_same_transfer (giving (some ⟨0, 40, by decide⟩)) (fresh [])
    (DmaPort.writeAction 8 56) (.inr rfl) (by decide) ⟨by decide, by decide⟩
  obtain ⟨s₂, hs₂, hsame⟩ := hiff.2 (by decide)
  exact ⟨s₁, s₂, hs₁, hs₂, hsame⟩

/-- A backdoor that ends in the second chunk, where the DMA ends too: the generator gives a packet to
the end of that chunk. -/
theorem backdoor_overruns :
    Ends ((fresh [⟨0, 18, by decide⟩]).dma (giving none) false (DmaPort.writeAction 0 20))
      (fun s => s.acked = 20)
    ∧ (fresh [⟨0, 18, by decide⟩]).dma (giving none) true (DmaPort.writeAction 0 20)
      = .error (.assertion "state->totBytes >= state->numBytes") :=
  ⟨by decide, EndsUnless.fails (by decide)⟩

end DmaAtomic

end Gem5
