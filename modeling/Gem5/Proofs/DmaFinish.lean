import Gem5.DmaReadFifo
import Gem5.Proofs.DmaAtomic

/-!
# When a DMA in atomic mode finishes

A turn of the loop is a turn of the chunk generator, followed by the response for the bytes it has
handled. So the DMA finishes exactly if these bytes come to its size with the last chunk. A DMA of no
bytes has no chunk, so no response ever takes it from the pending count.
-/

namespace Gem5

open Machine Pieces ChunkGenerator Function

namespace DmaAtomic

variable (env : MemSystem) {s₀ s s' : DmaAtomic} {a : DmaAction} {g : ChunkGenerator}
  {n k lat tot : ℕ} {bypass : Bool} {e : Halt} {addr calls size : ℕ} {rs : List AddrRange}

theorem Held.not_finished (h : Held s₀ a g n s) : ¬Finished s₀ a s := by
  rintro ⟨hp, -⟩
  rw [h.pending] at hp
  omega

section Turns

theorem addr_createPacket (st : DmaReqState) (j : ℕ) : (st.createPacket j).addr = st.gen.addr := by
  unfold DmaReqState.createPacket
  rcases st.isDdioReq with _ | _ <;> rfl

def sendReq (bypass : Bool) (j : ℕ) (s : DmaAtomic) : Except Halt (Bool × DmaAtomic) :=
  if bypass then s.sendAtomicBdReq env j else s.sendAtomicReq env j

/-- What is left of a turn when the chunk generator has moved on. -/
def Answers (s₀ : DmaAtomic) (a : DmaAction) (n : ℕ) (t : ChunkTurn)
    (x : Except Halt (Bool × DmaAtomic)) : Prop :=
  ∃ s₁ lat, Held s₀ a t.gen n s₁ ∧ s₁.memBackdoors = t.memBackdoors ∧ s₁.calls = t.calls ∧
    x = do return (!t.more, ← s₁.handleResp s₀.req t.handled lat)

theorem Held.sendReq_of_ok {t : ChunkTurn} (h : Held s₀ a g n s)
    (hcmd : a.cmd = .readReq ∨ a.cmd = .writeReq)
    (ht : chunkTurn env bypass a.size s.memBackdoors s.calls g = .ok t) :
    Answers s₀ a n t (sendReq env bypass s₀.req s) := by
  have hgen : (s₀.during a g n).gen = g := rfl
  rcases bypass with _ | _
  · simp only [chunkTurn, Bool.false_eq_true, if_false] at ht
    cases ht
    refine ⟨(s.sendAtomic ((s₀.during a g n).createPacket
        s₀.req)).setState s₀.req
          (s₀.during a g.next.2 n),
      env.latency s.calls, ⟨update_self .., h.pending, h.completions⟩, rfl, rfl, ?_⟩
    simp only [sendReq, Bool.false_eq_true, if_false, sendAtomicReq, DmaPort.deref, h.heap, ok_bind]
    rw [handleRespPacket_response _ hcmd]
    rfl
  · simp only [chunkTurn, if_true] at ht
    rcases hbd : containsAddr s.memBackdoors g.addr with _ | r
    · simp only [hbd] at ht
      cases ht
      refine ⟨{ (s.sendAtomic ((s₀.during a g n).createPacket
          s₀.req)).setState s₀.req
            (s₀.during a g.next.2 n) with
        memBackdoors := insertRange s.memBackdoors (env.backdoor s.calls g.addr) },
        env.latency s.calls, ⟨update_self .., h.pending, h.completions⟩, rfl, rfl, ?_⟩
      simp only [sendReq, if_true, sendAtomicBdReq, DmaPort.deref, h.heap, ok_bind, hgen, hbd,
        sendAtomicBackdoor, addr_createPacket]
      rw [handleRespPacket_response _ hcmd]
      rfl
    · simp only [hbd] at ht
      obtain ⟨gen, hnext, hret⟩ := bind_ok.1 ht
      cases hret
      let store := s.store.access a.cmd (r.start + subAddr g.addr r.start)
        (if a.data then some g.complete else none)
        (min (subAddr a.size g.complete) (subAddr r.size (subAddr g.addr r.start)))
      refine ⟨setState { s with store := store } s₀.req
          (s₀.during a gen.next.2 n),
        0, ⟨update_self .., h.pending, h.completions⟩, rfl, rfl, ?_⟩
      simp only [sendReq, if_true, sendAtomicBdReq, DmaPort.deref, h.heap, ok_bind, hgen, hbd,
        useBackdoor, accessBackdoor]
      rw [show (s₀.during a g n).totBytes = a.size from rfl, hnext]
      rfl

theorem Held.sendReq_of_error (h : Held s₀ a g n s)
    (ht : chunkTurn env bypass a.size s.memBackdoors s.calls g = .error e) :
    sendReq env bypass s₀.req s = .error e := by
  have hgen : (s₀.during a g n).gen = g := rfl
  rcases bypass with _ | _
  · simp [chunkTurn] at ht
  · simp only [chunkTurn, if_true] at ht
    rcases hbd : containsAddr s.memBackdoors g.addr with _ | r
    · simp [hbd] at ht
    · simp only [hbd] at ht
      rcases hnext : g.setNext (addAddr g.addr (min (subAddr a.size g.complete)
          (subAddr r.size (subAddr g.addr r.start)))) with e' | gen
      · rw [hnext] at ht
        cases ht
        simp only [sendReq, if_true, sendAtomicBdReq, DmaPort.deref, h.heap, ok_bind, hgen, hbd,
          useBackdoor, accessBackdoor]
        rw [show (s₀.during a g n).totBytes = a.size from rfl, hnext]
        rfl
      · rw [hnext] at ht
        cases ht

end Turns

section Loop

theorem sendLoop_succ (bypass : Bool) (j turns : ℕ) (s : DmaAtomic) :
    sendLoop env bypass j (turns + 1) s = sendReq env bypass j s >>= fun r =>
      if r.1 then .ok r.2 else sendLoop env bypass j turns r.2 := by
  rcases bypass with _ | _ <;> rfl

theorem sendLoop_freed {j : ℕ} (hs : s.port.heap j = none) (turns : ℕ) :
    sendLoop env bypass j (turns + 1) s =
      .error (.undefined "use of a freed DmaReqState") := by
  rw [sendLoop_succ]
  rcases bypass with _ | _ <;>
    simp only [sendReq, sendAtomicReq, sendAtomicBdReq, DmaPort.deref, hs, Bool.false_eq_true,
      if_false, if_true] <;> rfl

theorem not_ends_error {P : DmaAtomic → Prop} {x : Except Halt DmaAtomic}
    (h : x = .error e) : ¬Ends x P := by
  rw [h]
  exact id

theorem Held.sendLoop_iff (hcmd : a.cmd = .readReq ∨ a.cmd = .writeReq) :
    ∀ (turns : ℕ) {g : ChunkGenerator} {n : ℕ} {s : DmaAtomic}, Held s₀ a g n s →
      (Ends (sendLoop env bypass s₀.req turns s) (Finished s₀ a) ↔
        Finishes env bypass a.size turns s.memBackdoors s.calls g n) := by
  intro turns
  induction turns with
  | zero => exact fun _ => Iff.rfl
  | succ turns ih =>
    intro g n s h
    rw [sendLoop_succ, Finishes]
    rcases ht : chunkTurn env bypass a.size s.memBackdoors s.calls g with e | t
    · rw [h.sendReq_of_error env ht]
      exact Iff.rfl
    obtain ⟨s₁, lat, hs₁, hbd, hcalls, hreq⟩ := h.sendReq_of_ok env hcmd ht
    rw [hreq, bind_assoc]
    dsimp only
    rcases Nat.lt_trichotomy (addAddr n t.handled) a.size with hlt | heq | hgt
    · -- more bytes are to come
      obtain ⟨s₂, hs₂, hheld, hresp, -⟩ := (hs₁.handleResp_of_lt hlt lat).exists
      rw [hs₂, ok_bind, pure_bind]
      rcases t.more with _ | _
      · simp only [Bool.not_false, if_true, Bool.false_eq_true, if_false, hlt.ne, iff_false]
        exact hheld.not_finished
      · simp only [Bool.not_true, Bool.false_eq_true, if_false, if_true, hlt, true_and]
        rw [ih hheld, hresp.memBackdoors, hresp.calls, hbd, hcalls]
    · -- all bytes are there
      obtain ⟨s₂, hs₂, hpend, hcomp, hfreed, -⟩ := (hs₁.handleResp_of_eq heq lat).exists
      rw [hs₂, ok_bind, pure_bind]
      rcases t.more with _ | _
      · simp only [Bool.not_false, if_true, Bool.false_eq_true, if_false, heq, iff_true]
        exact ⟨hpend, _, hcomp⟩
      · simp only [Bool.not_true, Bool.false_eq_true, if_false, if_true, heq, lt_irrefl, false_and,
          iff_false]
        rcases turns with _ | turns
        · exact id
        · exact not_ends_error (sendLoop_freed env hfreed turns)
    · -- there are more than were asked for
      rw [hs₁.handleResp_of_gt hgt lat]
      rcases t.more with _ | _
      · simp only [Bool.false_eq_true, if_false, hgt.ne', iff_false]
        exact id
      · simp only [if_true, not_lt.2 hgt.le, false_and, iff_false]
        exact id

end Loop

section Packets

variable {c : ℕ}

/-- After `n` bytes the current chunk and those after it have the rest of the `tot` bytes. -/
structure Left (c tot n : ℕ) (g : ChunkGenerator) : Prop where
  sum : n + g.curSize + g.sizeLeft = tot
  pos : 0 < g.curSize
  nextSize : g.nextSize = min g.sizeLeft c
  chunkSize : g.chunkSize = c

theorem Left.next (hc : 0 < c) (ht : tot < 2 ^ 64) (h : Left c tot n g) (hl : g.last = false) :
    g.next.1 = true ∧ Left c tot (n + g.curSize) g.next.2 := by
  have hsum := h.sum
  have hns := h.nextSize
  have hleft : g.sizeLeft ≠ 0 := by
    rwa [last, beq_eq_false_iff_ne] at hl
  have hsub : subAddr g.sizeLeft g.nextSize = g.sizeLeft - g.nextSize :=
    subAddr_eq (by omega) (by omega)
  simp only [ChunkGenerator.next, hl, Bool.false_eq_true, if_false, true_and, hsub]
  refine ⟨?_, ?_, ?_, h.chunkSize⟩
  · dsimp only
    omega
  · dsimp only
    omega
  · dsimp only
    rw [h.chunkSize]

theorem Left.finishes (hc : 0 < c) (ht : tot < 2 ^ 64) : ∀ (turns : ℕ) {g : ChunkGenerator}
    {n calls : ℕ} {rs : List AddrRange}, Left c tot n g → tot - n ≤ turns →
      Finishes env false tot turns rs calls g n := by
  intro turns
  induction turns with
  | zero =>
    intro g n calls rs h hturns
    have hsum := h.sum
    have hpos := h.pos
    omega
  | succ turns ih =>
    intro g n calls rs h hturns
    have hsum := h.sum
    have hpos := h.pos
    have hadd : addAddr n g.size = n + g.curSize := addAddr_eq (by unfold size; omega)
    simp only [Finishes, chunkTurn, Bool.false_eq_true, if_false, hadd]
    rcases hl : g.last with _ | _
    · obtain ⟨hmore, hleft⟩ := h.next hc ht hl
      have hsum' := hleft.sum
      have hpos' := hleft.pos
      rw [if_pos hmore]
      exact ⟨by omega, ih hleft (by omega)⟩
    · have hzero : g.sizeLeft = 0 := by
        rwa [last, beq_iff_eq] at hl
      have hmore : g.next.1 = false := by simp [ChunkGenerator.next, hl]
      rw [if_neg (by rw [hmore]; exact Bool.false_ne_true)]
      omega

theorem not_finishes_of_gt {turns : ℕ} (hg : g.curSize < 2 ^ 64)
    (h : tot < g.curSize) : ¬Finishes env false tot turns rs calls g 0 := by
  rcases turns with _ | turns
  · exact id
  · have hadd : addAddr 0 g.size = g.curSize := (addAddr_eq (by unfold size; omega)).trans
      (Nat.zero_add _)
    simp only [Finishes, chunkTurn, Bool.false_eq_true, if_false, hadd]
    split_ifs <;> omega

end Packets

section Start

theorem held_start (hline : isPowerOf2 s.port.cacheLineSize = true) (a : DmaAction) :
    ∃ g s₁, create a.addr a.size s.port.cacheLineSize = .ok g ∧ Held s a g 0 s₁ ∧
      s₁.memBackdoors = s.memBackdoors ∧ s₁.calls = s.calls ∧
      ∀ bypass, s.dma env bypass a =
        if g.done then .ok s₁
        else sendLoop env bypass s.port.actions.length (a.size + 1) s₁ := by
  have hg : ∃ g, create a.addr a.size s.port.cacheLineSize = .ok g := by
    simp only [create, require, hline, or_true, if_true]
    exact ⟨_, rfl⟩
  obtain ⟨g, hg⟩ := hg
  refine ⟨g, { s with port := { s.port with
    heap := update s.port.heap s.port.actions.length
      (some (.create a s.port.requestorId g))
    pendingCount := s.port.pendingCount + 1
    actions := s.port.actions ++ [a] } }, hg, ⟨update_self .., rfl, rfl⟩, rfl, rfl, ?_⟩
  intro bypass
  rw [dma, hg, ok_bind]
  rfl

theorem create_fields {c : ℕ} (hc : isPowerOf2 c = true)
    (hg : create addr size c = .ok g) :
    g = { curAddr := addr
          nextAddr := firstNext addr size c
          curSize := subAddr (firstNext addr size c) addr
          nextSize := min (subAddr size (subAddr (firstNext addr size c) addr)) c
          sizeLeft := subAddr size (subAddr (firstNext addr size c) addr)
          startAddr := addr
          chunkSize := c
          isFirstOfChunk := true } := by
  simp only [create, require, hc, or_true, if_true, ok_bind] at hg
  cases hg
  rfl

theorem finished_iff (hcmd : a.cmd = .readReq ∨ a.cmd = .writeReq)
    (hg : create a.addr a.size s.port.cacheLineSize = .ok g)
    (hline : isPowerOf2 s.port.cacheLineSize = true) (bypass : Bool) :
    Ends (s.dma env bypass a) (Finished s a) ↔ g.done = false ∧
      Finishes env bypass a.size (a.size + 1) s.memBackdoors s.calls g 0 := by
  obtain ⟨g', s₁, hg', hheld, hbd, hcalls, hdma⟩ := held_start env hline a
  obtain rfl : g = g' := by
    rw [hg] at hg'
    cases hg'
    rfl
  rw [hdma]
  rcases hd : g.done with _ | _
  · simp only [Bool.false_eq_true, if_false, true_and]
    rw [hheld.sendLoop_iff env hcmd, hbd, hcalls]
  · simp only [if_true, Bool.true_eq_false, false_and, iff_false]
    exact hheld.not_finished

theorem finished_packets_iff (hcmd : a.cmd = .readReq ∨ a.cmd = .writeReq)
    (hline : isPowerOf2 s.port.cacheLineSize = true) (hc : s.port.cacheLineSize < 2 ^ 64)
    (haddr : a.addr < 2 ^ 64) (hsize : a.size < 2 ^ 64) :
    Ends (s.dma env false a) (Finished s a) ↔
      0 < a.size ∧ (a.addr + s.port.cacheLineSize < 2 ^ 64 ∨ 2 ^ 64 ≤ a.addr + a.size) := by
  obtain ⟨g, -, hg, -⟩ := held_start env hline a
  have hfields := create_fields hline hg
  have hcur : g.curSize = subAddr (firstNext a.addr a.size s.port.cacheLineSize) a.addr := by
    rw [hfields]
  have hlt : g.curSize < 2 ^ 64 := by
    rw [hcur]
    exact Nat.mod_lt _ (by norm_num)
  have hsizes : g.sizeLeft = subAddr a.size g.curSize
      ∧ g.nextSize = min g.sizeLeft s.port.cacheLineSize
      ∧ g.chunkSize = s.port.cacheLineSize := by
    rw [hfields]
    exact ⟨rfl, rfl, rfl⟩
  obtain ⟨hleft, hnext, hchunk⟩ := hsizes
  rw [finished_iff env hcmd hg hline, ← first_chunk_iff hline hc haddr hsize, ← hcur]
  have hdone : g.done = false ↔ 0 < g.curSize := by
    rw [done, beq_eq_false_iff_ne]
    omega
  rw [hdone]
  constructor
  · rintro ⟨hpos, hfin⟩
    refine ⟨hpos, ?_⟩
    by_contra hgt
    exact not_finishes_of_gt env hlt (by omega) hfin
  · rintro ⟨hpos, hle⟩
    refine ⟨hpos, Left.finishes env (isPowerOf2_pos hline) hsize _ ?_ (by omega)⟩
    refine ⟨?_, hpos, hnext, hchunk⟩
    rw [hleft, subAddr_eq hle (by omega)]
    omega

theorem finished_backdoors_iff (hcmd : a.cmd = .readReq ∨ a.cmd = .writeReq)
    (hline : isPowerOf2 s.port.cacheLineSize = true) (hfits : s.Fits a) :
    Ends (s.dma env true a) (Finished s a) ↔
      Usable env s.port.cacheLineSize a.size s.memBackdoors s.calls a.addr a.size := by
  obtain ⟨s₁, hs₁, hranges, hcalls, hdma⟩ := between_start env hline hfits
  rw [hdma, ← hranges, ← hcalls]
  constructor
  · intro hend
    by_contra huse
    obtain ⟨e, he⟩ := hs₁.sendLoop_fails env hcmd hfits hline (Nat.sub_le _ _) huse
    exact not_ends_error he hend
  · intro huse
    refine (hs₁.sendLoop_backdoors env hcmd hfits hline (Nat.sub_le _ _) huse).mono ?_
    rintro s' ⟨lat, -, hdone⟩
    exact ⟨hdone.pending, _, hdone.completions⟩

end Start

section Ending

variable {c : ℕ} {m x y : ℕ}

/-- Where the generator stands when `n` of `tot` bytes are acknowledged, also in the last line,
where addresses wrap around. -/
structure Going (c tot n : ℕ) (g : ChunkGenerator) : Prop where
  start : g.startAddr < 2 ^ 64
  cur : g.curAddr = addAddr g.startAddr n
  nextAddr : g.nextAddr = addAddr g.curAddr g.curSize
  pos : 0 < g.curSize
  bound : n + g.curSize < 2 ^ 64
  left : g.sizeLeft = subAddr (tot - n) g.curSize
  nextPos : g.sizeLeft ≠ 0 → 0 < g.nextSize
  nextLe : g.nextSize ≤ c
  chunkSize : g.chunkSize = c
  le : n ≤ tot

theorem more_iff : g.next.1 = true ↔ g.sizeLeft ≠ 0 := by
  rcases hl : g.last with _ | _
  · rw [last, beq_eq_false_iff_ne] at hl
    simp [ChunkGenerator.next, last, hl]
  · rw [last, beq_iff_eq] at hl
    simp [ChunkGenerator.next, last, hl]

theorem next_of_more (h : g.next.1 = true) : g.next.2 = { g with
    curAddr := g.nextAddr
    curSize := g.nextSize
    sizeLeft := subAddr g.sizeLeft g.nextSize
    nextAddr := addAddr g.nextAddr g.nextSize
    nextSize := min (subAddr g.sizeLeft g.nextSize) g.chunkSize
    isFirstOfChunk := false } := by
  have hl : g.last = false := by
    rw [last, beq_eq_false_iff_ne]
    exact more_iff.1 h
  simp only [ChunkGenerator.next, hl, Bool.false_eq_true, if_false]

theorem Going.of_next (hc : 0 < c) (hc32 : c < 2 ^ 32) (htot : tot < 2 ^ 31)
    (hmore : g.next.1 = true) (hstart : g.startAddr < 2 ^ 64) (hm : m < tot)
    (hnext : g.nextAddr = addAddr g.startAddr m) (hleft : g.sizeLeft = tot - m)
    (hpos : 0 < g.nextSize) (hle : g.nextSize ≤ c) (hchunk : g.chunkSize = c) :
    Going c tot m g.next.2 := by
  rw [next_of_more hmore]
  refine ⟨hstart, hnext, rfl, hpos, ?_, ?_, ?_, ?_, hchunk, hm.le⟩
  · exact (Nat.add_le_add hm.le hle).trans_lt (by omega)
  · exact congrArg (subAddr · _) hleft
  · intro h
    exact lt_min (Nat.pos_of_ne_zero h) (hchunk.symm ▸ hc)
  · exact (min_le_right _ _).trans hchunk.le

theorem Going.packet (hc : 0 < c) (hc32 : c < 2 ^ 32) (htot : tot < 2 ^ 31)
    (h : Going c tot n g) (hmore : g.next.1 = true) (hk : n + g.curSize < tot) :
    Going c tot (n + g.curSize) g.next.2 := by
  have hb := h.bound
  have hleft : g.sizeLeft = tot - (n + g.curSize) := by
    rw [h.left, subAddr_eq (by omega) (by omega)]
    omega
  refine Going.of_next hc hc32 htot hmore h.start hk ?_ hleft (h.nextPos (more_iff.1 hmore))
    h.nextLe h.chunkSize
  rw [h.nextAddr, h.cur]
  unfold addAddr
  omega

theorem roundUp_sub_lt (hc : 0 < c) (hc32 : c < 2 ^ 32) (hx : x < 2 ^ 64) :
    subAddr (roundUp x c) x < c := by
  have hdiv := Nat.div_add_mod (addAddr x (c - 1)) c
  have hmod := Nat.mod_lt (addAddr x (c - 1)) hc
  rw [roundUp, Nat.mul_comm]
  rcases Nat.lt_or_ge (x + (c - 1)) (2 ^ 64) with hlt | hge
  · have hadd : addAddr x (c - 1) = x + (c - 1) := addAddr_eq hlt
    rw [hadd] at hdiv hmod ⊢
    unfold subAddr
    omega
  · have hsmall : addAddr x (c - 1) < c := by
      unfold addAddr
      omega
    rw [Nat.div_eq_of_lt hsmall]
    unfold subAddr
    omega

theorem setNext_ok {next : ℕ} {g' : ChunkGenerator} (h : g.setNext next = .ok g') :
    g.chunkSize ≠ 0 ∧ g'.startAddr = g.startAddr ∧ g'.chunkSize = g.chunkSize ∧
      g'.nextAddr = next ∧
      g'.sizeLeft = subAddr g.sizeLeft (min (subAddr next g.nextAddr) g.sizeLeft) ∧
      g'.nextSize = if subAddr (roundUp next g.chunkSize) next = 0 then
        min g'.sizeLeft g.chunkSize else subAddr (roundUp next g.chunkSize) next := by
  obtain ⟨_, -, h⟩ := bind_ok.1 h
  obtain ⟨_, hc, rfl⟩ := bind_pure_ok.1 h
  exact ⟨require_ok.1 hc, rfl, rfl, rfl, rfl, rfl⟩

theorem subAddr_of_lt (h : x < y) (hy : y < 2 ^ 64) :
    subAddr x y = 2 ^ 64 + x - y := by
  unfold subAddr
  omega

theorem subAddr_addAddr_addAddr {z : ℕ} (hy : y < 2 ^ 64) (hz : z < 2 ^ 64) :
    subAddr (addAddr x y) (addAddr x z) = subAddr y z := by
  unfold subAddr addAddr
  omega

theorem Going.left_of_setNext (htot : tot < 2 ^ 31) (h : Going c tot n g)
    (hm : m ≤ tot - n)
    (hne : subAddr g.sizeLeft (min (subAddr (addAddr g.addr m) g.nextAddr) g.sizeLeft) ≠ 0) :
    subAddr g.sizeLeft (min (subAddr (addAddr g.addr m) g.nextAddr) g.sizeLeft) =
      tot - (n + m) := by
  have hb := h.bound
  have hpos := h.pos
  have hn := h.le
  have hskip : subAddr (addAddr g.addr m) g.nextAddr = subAddr m g.curSize := by
    rw [h.nextAddr]
    exact subAddr_addAddr_addAddr (by omega) (by omega)
  rw [hskip, h.left] at hne ⊢
  rcases Nat.lt_or_ge m g.curSize with hlt | hge
  · rw [subAddr_of_lt hlt (by omega)] at hne ⊢
    rcases Nat.lt_or_ge (tot - n) g.curSize with hlarge | hfit
    · rw [subAddr_of_lt hlarge (by omega), Nat.min_eq_left (by omega),
        subAddr_eq (by omega) (by omega)]
      omega
    · -- the assertion is passed only because the chunk ends at address 0
      rw [subAddr_eq hfit (by omega), Nat.min_eq_right (by omega), subAddr_eq le_rfl (by omega)]
        at hne
      omega
  · have hl : subAddr (tot - n) g.curSize = tot - n - g.curSize :=
      subAddr_eq (by omega) (by omega)
    rw [subAddr_eq hge (by omega), hl, Nat.min_eq_left (by omega),
      subAddr_eq (by omega) (by omega)]
    omega

theorem Going.backdoor {r : AddrRange} {g' : ChunkGenerator} (hc32 : c < 2 ^ 32)
    (htot : tot < 2 ^ 31) (h : Going c tot n g) (hr : r.Contains g.addr)
    (hm : m = min (subAddr tot g.complete) (subAddr r.size (subAddr g.addr r.start)))
    (hnext : g.setNext (addAddr g.addr m) = .ok g') (hmore : g'.next.1 = true) :
    0 < m ∧ n + m < tot ∧ Going c tot (n + m) g'.next.2 := by
  have hn := h.le
  have hstart := h.start
  have hcomplete : g.complete = n := by
    rw [ChunkGenerator.complete, h.cur]
    unfold subAddr addAddr
    omega
  have hm' : m = min (tot - n) (r.stop - g.addr) := by
    rw [hm, hcomplete, subAddr_eq hn (by omega)]
    have hstop := r.bound
    obtain ⟨h1, h2⟩ := hr
    rw [AddrRange.size, subAddr_eq h1 (by omega), subAddr_eq (by omega) hstop,
      subAddr_eq (by omega) (by omega)]
    omega
  have hr2 := hr.2
  obtain ⟨hc0, hstart', hchunk, hna, hsl, hns⟩ := setNext_ok hnext
  rw [h.chunkSize] at hc0 hchunk hns
  have hc : 0 < c := Nat.pos_of_ne_zero hc0
  have hne := more_iff.1 hmore
  have hleft : g'.sizeLeft = tot - (n + m) := by
    rw [hsl] at hne ⊢
    exact h.left_of_setNext htot (by omega) hne
  have hlt : n + m < tot := by omega
  have hdiff : subAddr (roundUp (addAddr g.addr m) c) (addAddr g.addr m) < c :=
    roundUp_sub_lt hc hc32 (Nat.mod_lt _ (by norm_num))
  refine ⟨by omega, hlt, Going.of_next hc hc32 htot hmore (hstart'.trans_lt hstart) hlt ?_ hleft
    ?_ ?_ hchunk⟩
  · rw [hna, hstart', addr, h.cur]
    unfold addAddr
    omega
  · rw [hns]
    split_ifs with h0
    · exact lt_min (Nat.pos_of_ne_zero hne) hc
    · exact Nat.pos_of_ne_zero h0
  · rw [hns]
    split_ifs
    · exact min_le_right _ _
    · exact hdiff.le

theorem Going.turn {t : ChunkTurn} (hc : 0 < c)
    (hc32 : c < 2 ^ 32) (htot : tot < 2 ^ 31) (h : Going c tot n g)
    (ht : chunkTurn env bypass tot rs calls g = .ok t) (hmore : t.more = true) :
    n < addAddr n t.handled ∧
      (addAddr n t.handled < tot → Going c tot (addAddr n t.handled) t.gen) := by
  have hpacket : n < addAddr n g.size ∧ (g.next.1 = true → addAddr n g.size < tot →
      Going c tot (addAddr n g.size) g.next.2) := by
    have hadd : addAddr n g.size = n + g.curSize := addAddr_eq h.bound
    have hpos := h.pos
    rw [hadd]
    exact ⟨by omega, h.packet hc hc32 htot⟩
  unfold chunkTurn at ht
  rcases hbd : (if bypass then containsAddr rs g.addr else none) with _ | r
  · rw [hbd] at ht
    cases ht
    exact ⟨hpacket.1, hpacket.2 hmore⟩
  · rw [hbd] at ht
    obtain ⟨g', hnext, hret⟩ := bind_ok.1 ht
    cases hret
    have hr : r.Contains g.addr := by
      rcases bypass with _ | _
      · simp at hbd
      · exact contains_of_eq_some hbd
    obtain ⟨hpos, hlt, hgoing⟩ := h.backdoor hc32 htot hr rfl hnext hmore
    have hadd := addAddr_eq (show n + min (subAddr tot g.complete)
      (subAddr r.size (subAddr g.addr r.start)) < 2 ^ 64 by omega)
    rw [hadd]
    exact ⟨by omega, fun _ => hgoing⟩

theorem firstNext_lt (hc : 0 < c) : firstNext addr size c < 2 ^ 64 := by
  simp only [firstNext, hc.ne', if_false]
  exact (min_le_right _ _).trans_lt (Nat.mod_lt _ (by norm_num))

theorem addAddr_subAddr (hx : x < 2 ^ 64) (hy : y < 2 ^ 64) :
    addAddr x (subAddr y x) = y := by
  unfold addAddr subAddr
  omega

theorem going_create (hc : isPowerOf2 c = true) (haddr : addr < 2 ^ 64)
    (hg : create addr size c = .ok g) (hd : g.done = false) : Going c size 0 g := by
  have hpos := isPowerOf2_pos hc
  rw [done, beq_eq_false_iff_ne] at hd
  rw [create_fields hc hg] at hd ⊢
  refine ⟨haddr, ?_, ?_, Nat.pos_of_ne_zero hd, ?_, rfl, ?_, min_le_right _ _, rfl,
    Nat.zero_le _⟩
  · exact (Nat.mod_eq_of_lt haddr).symm
  · exact (addAddr_subAddr haddr (firstNext_lt hpos)).symm
  · rw [Nat.zero_add]
    exact Nat.mod_lt _ (by norm_num)
  · exact fun h => lt_min (Nat.pos_of_ne_zero h) hpos

theorem chunkTurn_error
    (h : chunkTurn env bypass tot rs calls g = .error e) : ∃ m, e = .assertion m := by
  unfold chunkTurn at h
  rcases hbd : (if bypass then containsAddr rs g.addr else none) with _ | r
  · simp [hbd] at h
  · simp only [hbd, setNext, require] at h
    split_ifs at h <;> cases h <;> exact ⟨_, rfl⟩

theorem Held.sendLoop_ends {c : ℕ} (hcmd : a.cmd = .readReq ∨ a.cmd = .writeReq)
    (hc : 0 < c) (hc32 : c < 2 ^ 32) (hsize : a.size < 2 ^ 31) :
    ∀ (turns : ℕ) {g : ChunkGenerator} {n : ℕ} {s : DmaAtomic}, Held s₀ a g n s →
      Going c a.size n g → a.size - n < turns →
        sendLoop env bypass s₀.req turns s ≠
          .error (.undefined "while (!done)") := by
  intro turns
  induction turns with
  | zero =>
    intro g n s _ _ hturns
    omega
  | succ turns ih =>
    intro g n s h hgoing hturns
    rw [sendLoop_succ]
    rcases ht : chunkTurn env bypass a.size s.memBackdoors s.calls g with e | t
    · obtain ⟨m, rfl⟩ := chunkTurn_error env ht
      rw [h.sendReq_of_error env ht]
      exact nofun
    obtain ⟨s₁, lat, hs₁, -, -, hreq⟩ := h.sendReq_of_ok env hcmd ht
    rw [hreq, bind_assoc]
    rcases Nat.lt_trichotomy (addAddr n t.handled) a.size with hlt | heq | hgt
    · obtain ⟨s₂, hs₂, hheld, -⟩ := (hs₁.handleResp_of_lt hlt lat).exists
      rw [hs₂, ok_bind, pure_bind]
      rcases hm : t.more with _ | _
      · exact nofun
      · obtain ⟨hinc, hnext⟩ := hgoing.turn env hc hc32 hsize ht hm
        simp only [Bool.not_true, Bool.false_eq_true, if_false]
        exact ih hheld (hnext hlt) (by omega)
    · obtain ⟨s₂, hs₂, -, -, hfreed, -⟩ := (hs₁.handleResp_of_eq heq lat).exists
      rw [hs₂, ok_bind, pure_bind]
      rcases hm : t.more with _ | _
      · exact nofun
      · obtain ⟨hinc, -⟩ := hgoing.turn env hc hc32 hsize ht hm
        obtain ⟨k, rfl⟩ : ∃ k, turns = k + 1 := ⟨turns - 1, by omega⟩
        simp only [Bool.not_true, Bool.false_eq_true, if_false]
        rw [sendLoop_freed env hfreed]
        simp
    · rw [hs₁.handleResp_of_gt hgt lat]
      exact nofun

theorem dma_ends (hcmd : a.cmd = .readReq ∨ a.cmd = .writeReq)
    (hline : isPowerOf2 s.port.cacheLineSize = true) (hc : s.port.cacheLineSize < 2 ^ 32)
    (haddr : a.addr < 2 ^ 64) (hsize : a.size < 2 ^ 31) (bypass : Bool) :
    s.dma env bypass a ≠ .error (.undefined "while (!done)") := by
  obtain ⟨g, s₁, hg, hheld, -, -, hdma⟩ := held_start env hline a
  rw [hdma]
  split_ifs with hd
  · exact nofun
  · have hgoing := going_create hline haddr hg (Bool.not_eq_true _ ▸ hd)
    exact hheld.sendLoop_ends env hcmd (isPowerOf2_pos hline) hc hsize _ hgoing (by omega)

end Ending

/-- With packets, a DMA in atomic mode leaves the pending count as it was and schedules its
completion event once exactly if it has a byte and does not lie in the last line without reaching
its end. Through backdoors it does so exactly if the bytes of its turns come to its size with the last
chunk, which means, below the last line, that the chunk generator can follow each backdoor that is
used. In any case the loop ends. -/
theorem atomic_dma_finishes_iff (env : MemSystem) (s : DmaAtomic) (a : DmaAction)
    (hcmd : a.cmd = .readReq ∨ a.cmd = .writeReq)
    (hline : isPowerOf2 s.port.cacheLineSize = true) (hc : s.port.cacheLineSize < 2 ^ 32)
    (haddr : a.addr < 2 ^ 64) (hsize : a.size < 2 ^ 31) :
    (Ends (s.dma env false a) (Finished s a) ↔
      0 < a.size ∧ (a.addr + s.port.cacheLineSize < 2 ^ 64 ∨ 2 ^ 64 ≤ a.addr + a.size)) ∧
    (∃ g, create a.addr a.size s.port.cacheLineSize = .ok g ∧
      (Ends (s.dma env true a) (Finished s a) ↔ g.done = false ∧
        Finishes env true a.size (a.size + 1) s.memBackdoors s.calls g 0)) ∧
    (s.Fits a → (Ends (s.dma env true a) (Finished s a) ↔
      Usable env s.port.cacheLineSize a.size s.memBackdoors s.calls a.addr a.size)) ∧
    ∀ bypass, s.dma env bypass a ≠ .error (.undefined "while (!done)") := by
  obtain ⟨g, -, hg, -⟩ := held_start env hline a
  exact ⟨finished_packets_iff env hcmd hline (by omega) haddr (by omega),
    ⟨g, hg, finished_iff env hcmd hg hline true⟩, finished_backdoors_iff env hcmd hline,
    dma_ends env hcmd hline hc haddr hsize⟩

theorem atomic_dma_finishes_fresh :
    Ends ((fresh []).dma (giving none) false (DmaPort.writeAction 8 56))
      (Finished (fresh []) (DmaPort.writeAction 8 56)) ∧
    ¬Ends ((fresh []).dma (giving none) false (DmaPort.writeAction 8 0))
      (Finished (fresh []) (DmaPort.writeAction 8 0)) := by
  have hsome := atomic_dma_finishes_iff (giving none) (fresh []) (DmaPort.writeAction 8 56)
    (.inr rfl) (by decide) (by decide) (by decide) (by decide)
  have hnone := atomic_dma_finishes_iff (giving none) (fresh []) (DmaPort.writeAction 8 0)
    (.inr rfl) (by decide) (by decide) (by decide) (by decide)
  refine ⟨hsome.1.2 (by decide), fun h => ?_⟩
  exact absurd (hnone.1.1 h).1 (lt_irrefl 0)

/-- A DMA of no bytes returns without a completion event and stays in the pending count. The read
FIFO makes one each time it is to read on at the end of a block. -/
theorem empty_dma_stays_pending :
    Ends ((fresh []).dma (giving none) false (DmaPort.writeAction 48 0))
      (fun s => s.port.pendingCount = 1 ∧ s.port.completions = []) ∧
    Ends ((fresh []).dma (giving none) true (DmaPort.writeAction 48 0))
      (fun s => s.port.pendingCount = 1 ∧ s.port.completions = []) ∧
    (DmaReadFifo.init 16 8 1).atEndOfBlock = true ∧
    Ends ((DmaReadFifo.init 16 8 1).resumeFillBypass (giving none) {} (fresh []))
      (fun r => r.2.port.pendingCount = 1) :=
  ⟨by decide, by decide, by decide, by decide⟩

end DmaAtomic

end Gem5
