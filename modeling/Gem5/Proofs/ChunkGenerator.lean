import Gem5.ChunkGenerator
import Gem5.Pieces

/-!
# The chunks of a region are its pieces

While the chunks are taken one after the other, the generator stands at the pieces of the region, cut
at the multiples of the chunk size (`At`), as long as no address wraps around.
-/

namespace Gem5

open Machine Pieces

theorem addAddr_eq {a b : ℕ} (h : a + b < 2 ^ 64) : addAddr a b = a + b := Nat.mod_eq_of_lt h

theorem subAddr_eq {a b : ℕ} (h : b ≤ a) (ha : a < 2 ^ 64) : subAddr a b = a - b := by
  rw [subAddr, show a + 2 ^ 64 - b = (a - b) + 2 ^ 64 by omega, Nat.add_mod_right,
    Nat.mod_eq_of_lt (by omega)]

theorem roundUp_eq {a c : ℕ} (hc : 0 < c) (h : a + c < 2 ^ 64) :
    roundUp a c = if a % c = 0 then a else a + (c - a % c) := by
  have hr := Nat.mod_lt a hc
  have ha := Nat.div_add_mod a c
  rw [roundUp, addAddr_eq (by omega)]
  split_ifs with h0
  · rw [show a + (c - 1) = c * (a / c) + (c - 1) by omega, Nat.mul_add_div hc,
      Nat.div_eq_of_lt (show c - 1 < c by omega), Nat.add_zero, Nat.mul_comm]
    omega
  · have hcarry : (a % c + (c - 1)) / c = 1 :=
      Nat.div_eq_of_lt_le (by omega) (by omega)
    rw [show a + (c - 1) = c * (a / c) + (a % c + (c - 1)) by omega, Nat.mul_add_div hc, hcarry,
      Nat.add_mul, Nat.one_mul, Nat.mul_comm]
    omega

theorem isPowerOf2_pos {c : ℕ} (h : isPowerOf2 c = true) : 0 < c := by
  rw [isPowerOf2, Bool.and_eq_true, bne_iff_ne] at h
  exact Nat.pos_of_ne_zero h.1

theorem isPowerOf2_dvd {c k : ℕ} (h : isPowerOf2 c = true) (hk : c < 2 ^ k) : c ∣ 2 ^ k := by
  have hpos := isPowerOf2_pos h
  rw [isPowerOf2, Bool.and_eq_true, beq_iff_eq] at h
  have hlog : c < 2 ^ (Nat.log2 c + 1) := Nat.lt_log2_self
  have hle : 2 ^ Nat.log2 c ≤ c := Nat.log2_self_le hpos.ne'
  have hc : c = 2 ^ Nat.log2 c := by
    by_contra hne
    -- otherwise the highest bit is set in both numbers
    have h1 : c.testBit (Nat.log2 c) = true :=
      Nat.testBit_of_two_pow_le_and_two_pow_add_one_gt hle hlog
    have h2 : (c - 1).testBit (Nat.log2 c) = true :=
      Nat.testBit_of_two_pow_le_and_two_pow_add_one_gt (by omega) (by omega)
    have h3 := congrArg (Nat.testBit · (Nat.log2 c)) h.2
    simp only [Nat.testBit_and, h1, h2, Bool.and_self, Nat.zero_testBit, Bool.true_eq_false] at h3
  rw [hc] at hk ⊢
  exact Nat.pow_dvd_pow 2 ((Nat.pow_lt_pow_iff_right (by norm_num)).1 hk).le

namespace ChunkGenerator

variable {c a n d : ℕ} {g : ChunkGenerator}

theorem boundary_eq (hc : 0 < c) (hac : a + c < 2 ^ 64) :
    (if a = roundUp a c then addAddr (roundUp a c) c else roundUp a c) = a + (c - a % c) := by
  have hr := Nat.mod_lt a hc
  rw [roundUp_eq hc hac]
  split_ifs with h0 h1 h2
  · rw [addAddr_eq hac, h0, Nat.sub_zero]
  · exact absurd rfl h1
  · omega
  · rfl

theorem firstNext_eq (hc : 0 < c) (han : a + n < 2 ^ 64) (hac : a + c < 2 ^ 64) :
    firstNext a n c = a + first c a n := by
  simp only [firstNext, hc.ne', if_false]
  rw [boundary_eq hc hac, addAddr_eq han, first, Nat.add_min_add_left]

theorem firstNext_of_wrap (hc : 0 < c) (ha : a < 2 ^ 64) (hn : n < 2 ^ 64)
    (han : 2 ^ 64 ≤ a + n) (hac : a + c < 2 ^ 64) : subAddr (firstNext a n c) a = n := by
  have hend : addAddr a n = a + n - 2 ^ 64 := by
    unfold addAddr
    omega
  simp only [firstNext, hc.ne', if_false]
  rw [boundary_eq hc hac, hend, Nat.min_eq_right (by omega)]
  unfold subAddr
  omega

theorem firstNext_of_last (hc : isPowerOf2 c = true) (hc64 : c < 2 ^ 64) (ha : a < 2 ^ 64)
    (hac : 2 ^ 64 ≤ a + c) : firstNext a n c = 0 := by
  have hpos := isPowerOf2_pos hc
  have hround : (if a = roundUp a c then addAddr (roundUp a c) c else roundUp a c) = 0 := by
    rcases hac.eq_or_lt with heq | hlt
    · obtain ⟨q, hq⟩ := isPowerOf2_dvd hc hc64
      have hdiv : addAddr a (c - 1) / c = q - 1 := by
        rw [addAddr_eq (by omega)]
        have hq0 : q ≠ 0 := by
          rintro rfl
          simp at hq
        obtain ⟨p, rfl⟩ : ∃ p, q = p + 1 := ⟨q - 1, by omega⟩
        refine Nat.div_eq_of_lt_le ?_ ?_
        · rw [Nat.mul_add, Nat.mul_one] at hq
          rw [Nat.add_sub_cancel, Nat.mul_comm]
          omega
        · rw [Nat.add_sub_cancel, Nat.mul_comm]
          omega
      have hr : roundUp a c = a := by
        rw [roundUp, hdiv, Nat.sub_mul, Nat.one_mul, Nat.mul_comm q c]
        omega
      rw [hr, if_pos rfl]
      unfold addAddr
      omega
    · have hsmall : addAddr a (c - 1) < c := by
        unfold addAddr
        omega
      have hr : roundUp a c = 0 := by rw [roundUp, Nat.div_eq_of_lt hsmall, Nat.zero_mul]
      rw [hr, if_neg (by omega)]
  simp only [firstNext, hpos.ne', if_false]
  rw [hround, Nat.zero_min]

theorem first_chunk_iff (hc : isPowerOf2 c = true) (hc64 : c < 2 ^ 64) (ha : a < 2 ^ 64)
    (hn : n < 2 ^ 64) :
    (0 < subAddr (firstNext a n c) a ∧ subAddr (firstNext a n c) a ≤ n) ↔
      0 < n ∧ (a + c < 2 ^ 64 ∨ 2 ^ 64 ≤ a + n) := by
  have hpos := isPowerOf2_pos hc
  rcases Nat.lt_or_ge (a + c) (2 ^ 64) with hac | hac
  · rcases Nat.lt_or_ge (a + n) (2 ^ 64) with han | han
    · have hle : first c a n ≤ n := first_le
      have hsub : subAddr (firstNext a n c) a = first c a n := by
        rw [firstNext_eq hpos han hac, subAddr_eq (by omega) (by omega)]
        omega
      rw [hsub]
      refine ⟨fun h => ⟨by omega, .inl hac⟩, fun h => ⟨first_pos hpos h.1, hle⟩⟩
    · rw [firstNext_of_wrap hpos ha hn han hac]
      omega
  · have hsub : subAddr 0 a = 2 ^ 64 - a := by
      unfold subAddr
      omega
    rw [firstNext_of_last hc hc64 ha hac, hsub]
    omega

/-- The first `d` bytes of the region of `n` bytes from `a` on are handed out, and the next piece is
the current chunk. -/
structure At (c a n d : ℕ) (g : ChunkGenerator) : Prop where
  startAddr : g.startAddr = a
  chunkSize : g.chunkSize = c
  curAddr : g.curAddr = a + d
  curSize : g.curSize = first c (a + d) (n - d)
  sizeLeft : g.sizeLeft = n - d - g.curSize
  nextAddr : g.nextAddr = g.curAddr + g.curSize
  nextSize : g.nextSize = min g.sizeLeft c
  isFirstOfChunk : g.isFirstOfChunk = decide (d = 0)
  lt : d < n
  bound : a + n < 2 ^ 64

theorem create_at (hc : isPowerOf2 c = true) (hn : 0 < n) (han : a + n < 2 ^ 64)
    (hac : a + c < 2 ^ 64) : ∃ g, create a n c = .ok g ∧ At c a n 0 g := by
  have hpos := isPowerOf2_pos hc
  have hle : first c a n ≤ n := first_le
  refine ⟨_, by simp only [create, require, hc, or_true, if_true]; rfl, ?_⟩
  have hcur : subAddr (firstNext a n c) a = first c a n := by
    rw [firstNext_eq hpos han hac, subAddr_eq (by omega) (by omega)]
    omega
  have hleft : subAddr n (first c a n) = n - first c a n := subAddr_eq hle (by omega)
  exact {
    startAddr := rfl
    chunkSize := rfl
    curAddr := rfl
    curSize := hcur
    sizeLeft := by rw [hcur, hleft, Nat.sub_zero]
    nextAddr := by rw [hcur, firstNext_eq hpos han hac]
    nextSize := rfl
    isFirstOfChunk := rfl
    lt := hn
    bound := han }

theorem At.size_pos (h : At c a n d g) (hc : 0 < c) : 0 < g.curSize := by
  rw [h.curSize]
  exact first_pos hc (by have := h.lt; omega)

theorem At.size_le (h : At c a n d g) : d + g.curSize ≤ n := by
  have hle : first c (a + d) (n - d) ≤ n - d := first_le
  have := h.lt
  rw [h.curSize]
  omega

theorem At.complete (h : At c a n d g) : g.complete = d := by
  have := h.bound
  have := h.lt
  rw [ChunkGenerator.complete, h.curAddr, h.startAddr, subAddr_eq (by omega) (by omega)]
  omega

theorem At.isHead (h : At c a n d g) : g.isHead = decide (a + d = a) := by
  rw [ChunkGenerator.isHead, h.isFirstOfChunk]
  simp

theorem At.last_iff (h : At c a n d g) : g.last = true ↔ d + g.curSize = n := by
  have := h.size_le
  have := h.lt
  rw [last, beq_iff_eq, h.sizeLeft]
  omega

theorem At.aligned (h : At c a n d g) (hc : 0 < c) (hl : g.last = false) :
    (a + d + g.curSize) % c = 0 := by
  have hlast : d + g.curSize ≠ n := fun he => by simp [h.last_iff.2 he] at hl
  have hle := h.size_le
  have hcur := h.curSize
  rw [hcur]
  exact first_aligned hc (by omega)

theorem At.next (h : At c a n d g) (hc : 0 < c) (hl : g.last = false) :
    g.next.1 = true ∧ At c a n (d + g.curSize) g.next.2 := by
  have hal := h.aligned hc hl
  have hle := h.size_le
  have hlast : d + g.curSize ≠ n := fun he => by simp [h.last_iff.2 he] at hl
  have hb := h.bound
  have hsl := h.sizeLeft
  have hns := h.nextSize
  have hna : g.nextAddr = a + (d + g.curSize) := by
    rw [h.nextAddr, h.curAddr, Nat.add_assoc]
  have hfirst : first c (a + (d + g.curSize)) (n - (d + g.curSize)) = g.nextSize := by
    rw [first_of_aligned (by rwa [← Nat.add_assoc]), hns, hsl]
    omega
  have hsub : subAddr g.sizeLeft g.nextSize = n - (d + g.curSize) - g.nextSize := by
    rw [subAddr_eq (by omega) (by omega)]
    omega
  simp only [ChunkGenerator.next, hl, Bool.false_eq_true, if_false]
  refine ⟨trivial, ?_⟩
  exact {
    startAddr := h.startAddr
    chunkSize := h.chunkSize
    curAddr := hna
    curSize := hfirst.symm
    sizeLeft := hsub
    nextAddr := addAddr_eq (by omega)
    nextSize := by rw [h.chunkSize]
    isFirstOfChunk := by
      have := h.size_pos hc
      exact (decide_eq_false (by omega)).symm
    lt := by omega
    bound := hb }

theorem done_next_of_last (hl : g.last = true) : g.next.2.done = true := by
  simp [ChunkGenerator.next, hl, done]

/-- Which chunks of a list are reported as the first and as the last of the region. -/
def Marked (cs : List ChunkGenerator) (head : Bool) : Prop :=
  ∀ i g, cs[i]? = some g → g.isHead = (head && decide (i = 0))
    ∧ g.last = decide (i + 1 = cs.length)

theorem Marked.cons {cs : List ChunkGenerator} (hcs : Marked cs false)
    (hl : g.last = decide (cs = [])) : Marked (g :: cs) g.isHead := by
  rintro (_ | i) g' hg'
  · obtain rfl : g = g' := by simpa using hg'
    refine ⟨by simp, hl.trans ?_⟩
    simp
  · obtain ⟨hh, hlast⟩ := hcs i g' (by simpa using hg')
    refine ⟨by simpa using hh, hlast.trans ?_⟩
    simp

theorem At.chunks (hc : 0 < c) : ∀ (turns : ℕ) {d : ℕ} {g : ChunkGenerator}, At c a n d g →
    n - d < turns → ∃ cs, g.chunks turns = some (g :: cs)
      ∧ ((g :: cs).map fun g => (g.addr, g.size)) = pieces c (a + d) (n - d)
      ∧ Marked (g :: cs) (decide (d = 0)) ∧ ∀ g' ∈ g :: cs, ∃ d, At c a n d g' := by
  intro turns
  induction turns with
  | zero =>
    intro d g h ht
    omega
  | succ turns ih =>
    intro d g h ht
    have hpos := h.size_pos hc
    have hlt := h.lt
    have hle := h.size_le
    have hp : pieces c (a + d) (n - d)
        = (g.addr, g.size) :: pieces c (a + (d + g.curSize)) (n - (d + g.curSize)) := by
      rw [pieces_eq hc (by omega), ← h.curSize, Nat.add_assoc, Nat.sub_sub, addr, h.curAddr, size]
    have hdone : g.done = false := by
      rw [done, beq_eq_false_iff_ne]
      omega
    have hstep : g.chunks (turns + 1) = (g.next.2.chunks turns).map (g :: ·) := by
      simp only [ChunkGenerator.chunks, hdone, Bool.false_eq_true, if_false]
    rcases hl : g.last with _ | _
    · obtain ⟨-, hat⟩ := h.next hc hl
      obtain ⟨cs, hcs, hpieces, hmarked, hats⟩ := ih hat (by omega)
      have hd : decide (d + g.curSize = 0) = false := decide_eq_false (by omega)
      rw [hd] at hmarked
      refine ⟨g.next.2 :: cs, by rw [hstep, hcs, Option.map_some], ?_, ?_, ?_⟩
      · rw [List.map_cons, hpieces, hp]
      · rw [← h.isFirstOfChunk]
        exact hmarked.cons (by simp [hl])
      · exact List.forall_mem_cons.2 ⟨⟨d, h⟩, hats⟩
    · have hend := h.last_iff.1 hl
      obtain ⟨turns, rfl⟩ : ∃ k, turns = k + 1 := ⟨turns - 1, by omega⟩
      have hnil : g.next.2.chunks (turns + 1) = some [] := by
        simp only [ChunkGenerator.chunks, done_next_of_last hl, if_true]
      refine ⟨[], by rw [hstep, hnil, Option.map_some], ?_, ?_, ?_⟩
      · rw [hp, hend, Nat.sub_self, pieces_zero]
        rfl
      · rw [← h.isFirstOfChunk]
        have hempty : Marked [] false := by simp [Marked]
        exact hempty.cons (by simp [hl])
      · exact List.forall_mem_singleton.2 ⟨d, h⟩

theorem chunks_create (hc : isPowerOf2 c = true) (han : a + n < 2 ^ 64) (hac : a + c < 2 ^ 64)
    {turns : ℕ} (ht : n < turns) : ∃ g cs, create a n c = .ok g ∧ g.chunks turns = some cs
      ∧ (cs.map fun g => (g.addr, g.size)) = pieces c a n
      ∧ Marked cs true ∧ ∀ g ∈ cs, ∃ d, At c a n d g := by
  rcases n.eq_zero_or_pos with rfl | hn
  · obtain ⟨turns, rfl⟩ : ∃ k, turns = k + 1 := ⟨turns - 1, by omega⟩
    have hcur : subAddr (firstNext a 0 c) a = 0 := by
      rw [firstNext_eq (isPowerOf2_pos hc) han hac, subAddr_eq (by omega) (by simp [first]; omega)]
      simp [first]
    refine ⟨_, [], by simp only [create, require, hc, or_true, if_true]; rfl, ?_, rfl,
      by simp [Marked], by simp⟩
    simp only [chunks, done, hcur, beq_self_eq_true, if_true]
  · obtain ⟨g, hg, hat⟩ := create_at hc hn han hac
    obtain ⟨cs, hcs, hpieces, hmarked, hats⟩ := hat.chunks (isPowerOf2_pos hc) turns (by omega)
    exact ⟨g, g :: cs, hg, hcs, hpieces, hmarked, hats⟩

/-- The chunk that follows when the current one was grown to `m` bytes and the region goes on. -/
structure Resumed (c a n d : ℕ) (g : ChunkGenerator) : Prop where
  startAddr : g.startAddr = a
  chunkSize : g.chunkSize = c
  curAddr : g.curAddr = a + d
  curSize : g.curSize = if (a + d) % c = 0 then min (n - d) c else c - (a + d) % c
  sizeLeft : g.sizeLeft = subAddr (n - d) g.curSize
  nextAddr : g.nextAddr = g.curAddr + g.curSize
  nextSize : g.nextSize = min g.sizeLeft c
  isFirstOfChunk : g.isFirstOfChunk = false

theorem setNext_eq (hc : 0 < c) (hs : g.chunkSize = c) {x : ℕ} (hx : g.nextAddr ≤ x)
    (hle : x ≤ g.nextAddr + g.sizeLeft) (hb : g.nextAddr + g.sizeLeft + c < 2 ^ 64)
    (hcur : g.curSize ≤ g.nextAddr) : g.setNext x = .ok { g with
      sizeLeft := g.nextAddr + g.sizeLeft - x
      curSize := g.curSize + (x - g.nextAddr)
      nextAddr := x
      nextSize := if x % c = 0 then min (g.nextAddr + g.sizeLeft - x) c else c - x % c } := by
  have hmod := Nat.mod_lt x hc
  have hskip : min (subAddr x g.nextAddr) g.sizeLeft = x - g.nextAddr := by
    rw [subAddr_eq hx (by omega)]
    omega
  have hleft : subAddr g.sizeLeft (x - g.nextAddr) = g.nextAddr + g.sizeLeft - x := by
    rw [subAddr_eq (by omega) (by omega)]
    omega
  have hround : subAddr (roundUp x c) x = if x % c = 0 then 0 else c - x % c := by
    rw [roundUp_eq hc (by omega)]
    split_ifs
    · rw [subAddr_eq le_rfl (by omega), Nat.sub_self]
    · rw [subAddr_eq (by omega) (by omega)]
      omega
  simp only [ChunkGenerator.setNext, hs]
  rw [require_of hx, ok_bind, require_of hc.ne', ok_bind, hskip, hleft, hround,
    addAddr_eq (by omega)]
  by_cases h0 : x % c = 0
  · rw [if_pos h0, if_pos rfl, if_pos h0]
    rfl
  · rw [if_neg h0, if_neg (by omega), if_neg h0]
    rfl

theorem At.setNext (h : At c a n d g) (hc : 0 < c) (hb : a + n + c < 2 ^ 64) {m : ℕ}
    (hm : g.curSize ≤ m) (hle : d + m ≤ n) : ∃ g', g.setNext (a + d + m) = .ok g'
      ∧ (d + m = n → g'.next.1 = false)
      ∧ (d + m < n → g'.next.1 = true ∧ Resumed c a n (d + m) g'.next.2) := by
  have hmod := Nat.mod_lt (a + d + m) hc
  have hnext : g.nextAddr = a + d + g.curSize := by rw [h.nextAddr, h.curAddr]
  have hsl := h.sizeLeft
  have hleft : g.nextAddr + g.sizeLeft - (a + d + m) = n - (d + m) := by omega
  refine ⟨_, setNext_eq hc h.chunkSize (by omega) (by omega) (by omega) (by omega),
    fun heq => ?_, fun hlt => ?_⟩
  · simp only [ChunkGenerator.next, last, show g.nextAddr + g.sizeLeft - (a + d + m) = 0 by omega,
      beq_self_eq_true, if_true]
  · have hl : ((n - (d + m)) == 0) = false := by
      rw [beq_eq_false_iff_ne]
      omega
    simp only [ChunkGenerator.next, last, hleft, hl, Bool.false_eq_true, if_false, true_and]
    exact {
      startAddr := h.startAddr
      chunkSize := h.chunkSize
      curAddr := Nat.add_assoc a d m
      curSize := by rw [← Nat.add_assoc]
      sizeLeft := rfl
      nextAddr := addAddr_eq (by split_ifs <;> omega)
      nextSize := by rw [h.chunkSize]
      isFirstOfChunk := rfl }

theorem At.setNext_fails (h : At c a n d g) {m : ℕ} (hm : m < g.curSize) :
    ∃ e, g.setNext (a + d + m) = .error e := by
  have hnext : g.nextAddr = a + d + g.curSize := by rw [h.nextAddr, h.curAddr]
  refine ⟨.assertion "next >= nextAddr", ?_⟩
  rw [ChunkGenerator.setNext, require, if_neg (by omega)]
  rfl

theorem Resumed.at (h : Resumed c a n d g) (hd : 0 < d) (hlt : d < n) (hb : a + n < 2 ^ 64)
    (hfit : (a + d) % c = 0 ∨ c - (a + d) % c ≤ n - d) : At c a n d g := by
  have hsize : g.curSize = first c (a + d) (n - d) := by
    rw [h.curSize, first]
    split_ifs with h0
    · rw [h0, Nat.sub_zero, Nat.min_comm]
    · rw [Nat.min_eq_left (hfit.resolve_left h0)]
  have hle : first c (a + d) (n - d) ≤ n - d := first_le
  exact {
    startAddr := h.startAddr
    chunkSize := h.chunkSize
    curAddr := h.curAddr
    curSize := hsize
    sizeLeft := by rw [h.sizeLeft, hsize, subAddr_eq hle (by omega)]
    nextAddr := h.nextAddr
    nextSize := h.nextSize
    isFirstOfChunk := h.isFirstOfChunk.trans (decide_eq_false hd.ne').symm
    lt := hlt
    bound := hb }

theorem Resumed.large (h : Resumed c a n d g) (h0 : (a + d) % c ≠ 0)
    (hlarge : n - d < c - (a + d) % c) : n - d < g.curSize ∧ g.curSize ≤ c := by
  rw [h.curSize, if_neg h0]
  exact ⟨hlarge, Nat.sub_le _ _⟩

end ChunkGenerator

end Gem5
