import Gem5.Proofs.ChunkGenerator

/-!
# Chunks that are grown

The current chunk can be grown over bytes that are already handled (`setNext`). The sizes go on
adding up to the region if the skip ends at a multiple of the chunk size, at the end of the region,
or where the region has the rest of an aligned chunk.
-/

namespace Gem5

open Machine Pieces

namespace ChunkGenerator

variable {c a n : ℕ} {g : ChunkGenerator}

/-- The bytes of the chunk are in one aligned chunk. -/
def OneChunk (g : ChunkGenerator) : Prop :=
  0 < g.size → g.addr / g.chunkSize = (g.addr + g.size - 1) / g.chunkSize

/-- `next()` is not called on the last chunk, and `setNext(x)` goes to the end of what remains, to a
multiple of the chunk size or to where the rest of an aligned chunk remains. -/
def Lands (g : ChunkGenerator) : Op → Prop
  | .next => g.last = true → g.done = true
  | .setNext x => 0 < g.chunkSize ∧ g.nextAddr ≤ x ∧ x ≤ g.nextAddr + g.sizeLeft
    ∧ (x = g.nextAddr + g.sizeLeft ∨ x % g.chunkSize = 0
      ∨ x + (g.chunkSize - x % g.chunkSize) ≤ g.nextAddr + g.sizeLeft)

instance Lands.dec (g : ChunkGenerator) : ∀ o, Decidable (g.Lands o)
  | .next => inferInstanceAs (Decidable (_ → _))
  | .setNext _ => inferInstanceAs (Decidable (_ ∧ _))

/-- The chunk ends where the next one starts, and from there on the rest of the region is left. -/
structure Kept (c a n : ℕ) (g : ChunkGenerator) : Prop where
  startAddr : g.startAddr = a
  chunkSize : g.chunkSize = c
  start : a ≤ g.curAddr
  nextAddr : g.nextAddr = g.curAddr + g.curSize
  left : g.nextAddr + g.sizeLeft = a + n
  nextSize : g.nextSize ≤ c
  fits : 0 < g.sizeLeft → 0 < c ∧ g.nextSize = first c g.nextAddr g.sizeLeft

theorem first_le_left : first c a n ≤ c := (min_le_left _ _).trans (Nat.sub_le _ _)

theorem kept_create (hc : c = 0 ∨ isPowerOf2 c = true) (hb : a + n + c < 2 ^ 64) :
    ∃ g, create a n c = .ok g ∧ Kept c a n g ∧ g.OneChunk := by
  -- without chunking the first chunk is the region
  obtain ⟨m, hm, hle, hcut⟩ : ∃ m, firstNext a n c = a + m ∧ m ≤ n
      ∧ (m = n ∧ c = 0 ∨ 0 < c ∧ m = first c a n) := by
    rcases hc with rfl | hc
    · exact ⟨n, addAddr_eq (by omega), le_rfl, .inl ⟨rfl, rfl⟩⟩
    · have hpos := isPowerOf2_pos hc
      exact ⟨_, firstNext_eq hpos (by omega) (by omega), first_le, .inr ⟨hpos, rfl⟩⟩
  have hcur : subAddr (a + m) a = m := by
    rw [subAddr_eq (by omega) (by omega), Nat.add_sub_cancel_left]
  have hleft : subAddr n m = n - m := subAddr_eq hle (by omega)
  refine ⟨_, bind_ok.2 ⟨(), require_ok.2 hc, rfl⟩, ?_, ?_⟩ <;> simp only [hm, hcur, hleft]
  · refine ⟨rfl, rfl, le_rfl, rfl, ?_, min_le_right _ _, fun hlt => ?_⟩
    · show a + m + (n - m) = a + n
      omega
    · have hlt : 0 < n - m := hlt
      rcases hcut with ⟨rfl, -⟩ | ⟨hpos, rfl⟩
      · omega
      · exact ⟨hpos, (first_of_aligned (first_aligned hpos (by omega))).symm⟩
  · intro hpos
    have hpos : 0 < m := hpos
    show a / c = (a + m - 1) / c
    rcases hcut with ⟨-, rfl⟩ | ⟨hc, rfl⟩
    · rw [Nat.div_zero, Nat.div_zero]
    · exact first_within hc (by omega)

theorem Kept.next (h : Kept c a n g) (hb : a + n + c < 2 ^ 64)
    (hlast : g.last = true → g.done = true) : Kept c a n g.next.2 ∧ g.next.2.OneChunk := by
  have hleft := h.left
  rcases hl : g.last with _ | _
  · have hpos : 0 < g.sizeLeft := by
      simp only [last, beq_eq_false_iff_ne] at hl
      omega
    obtain ⟨hc, hsize⟩ := h.fits hpos
    have hle : g.nextSize ≤ g.sizeLeft := hsize ▸ first_le
    have hsub : subAddr g.sizeLeft g.nextSize = g.sizeLeft - g.nextSize :=
      subAddr_eq hle (by omega)
    have hadd : addAddr g.nextAddr g.nextSize = g.nextAddr + g.nextSize := addAddr_eq (by omega)
    have hstart := h.start
    have hna := h.nextAddr
    simp only [ChunkGenerator.next, hl, Bool.false_eq_true, if_false, hsub, hadd]
    refine ⟨⟨h.startAddr, h.chunkSize, ?_, rfl, ?_, h.chunkSize ▸ min_le_right _ _, ?_⟩, ?_⟩
    · show a ≤ g.nextAddr
      omega
    · show g.nextAddr + g.nextSize + (g.sizeLeft - g.nextSize) = a + n
      omega
    · intro hmore
      have hmore : 0 < g.sizeLeft - g.nextSize := hmore
      refine ⟨hc, ?_⟩
      rw [h.chunkSize, first_of_aligned]
      rw [hsize]
      exact first_aligned hc (by omega)
    · intro hsz
      simp only [addr, size, h.chunkSize, hsize] at hsz ⊢
      exact first_within hc hpos
  · have hdone : g.curSize = 0 := by simpa [done] using hlast hl
    simp only [ChunkGenerator.next, hl, if_true]
    refine ⟨{ h with nextAddr := by rw [h.nextAddr, hdone] }, fun hsz => ?_⟩
    exact absurd hsz (lt_irrefl 0)

theorem Kept.setNext (h : Kept c a n g) (hb : a + n + c < 2 ^ 64) {x : ℕ}
    (hx : g.Lands (.setNext x)) : Ends (g.setNext x) (Kept c a n) := by
  obtain ⟨hc, hge, hle, hfit⟩ := hx
  rw [h.chunkSize] at hc hfit
  have hstart := h.start
  have hleft := h.left
  have hna := h.nextAddr
  have hmod := Nat.mod_lt x hc
  refine .of_ok (setNext_eq hc h.chunkSize hge hle (by omega) (by omega))
    ⟨h.startAddr, h.chunkSize, h.start, ?_, ?_, ?_, ?_⟩
  · show x = g.curAddr + (g.curSize + (x - g.nextAddr))
    omega
  · show x + (g.nextAddr + g.sizeLeft - x) = a + n
    omega
  · show (if x % c = 0 then min (g.nextAddr + g.sizeLeft - x) c else c - x % c) ≤ c
    split_ifs <;> omega
  · intro hmore
    have hmore : 0 < g.nextAddr + g.sizeLeft - x := hmore
    refine ⟨hc, ?_⟩
    show (if x % c = 0 then min (g.nextAddr + g.sizeLeft - x) c else c - x % c)
      = first c x (g.nextAddr + g.sizeLeft - x)
    split_ifs with h0
    · exact (first_of_aligned h0).symm
    · rw [first]
      omega

theorem Kept.step (h : Kept c a n g) (hb : a + n + c < 2 ^ 64) :
    ∀ {o : Op}, g.Lands o → Ends (g.step o) fun s => Kept c a n s ∧ (o = .next → s.OneChunk)
  | .next, ho => ⟨(h.next hb ho).1, fun _ => (h.next hb ho).2⟩
  | .setNext _, ho => (h.setNext hb ho).mono fun _ hs => ⟨hs, by simp⟩

theorem Kept.sum (h : Kept c a n g) (hb : a + n + c < 2 ^ 64) :
    g.complete + g.size + g.sizeLeft = n := by
  have hstart := h.start
  have hleft := h.left
  have hna := h.nextAddr
  rw [complete, h.startAddr, subAddr_eq hstart (by omega), size]
  omega

end ChunkGenerator

end Gem5
