import Gem5.AddrRange
import Gem5.Interleave

/-!
# Interleaved ranges split an interval

In one range the lowest bit of a mask is determined by the bits above it. So two addresses of a range
differ first at a bit that is kept, and the offset is strictly increasing. It takes every value below
the size, because the `2 ^ n` ranges together have `2 ^ n` times the size many addresses.
-/

namespace Gem5.Base

open Interleave

/-! ## Bits -/

theorem toNat_maskBits {k : ℕ} (hk : k < 64) : (maskBits k).toNat = 2 ^ k - 1 := by
  have hlt : 2 ^ k < 2 ^ 64 := Nat.pow_lt_pow_right (by decide) hk
  have hpos := Nat.two_pow_pos k
  have hone : (1#64).toNat = 1 := rfl
  rw [maskBits, if_neg (by omega), BitVec.toNat_sub, BitVec.toNat_shiftLeft, hone, Nat.shiftLeft_eq,
    one_mul, Nat.mod_eq_of_lt hlt]
  omega

theorem getLsbD_maskBits {k : ℕ} (hk : k < 64) (j : ℕ) : (maskBits k).getLsbD j = decide (j < k) := by
  rw [← BitVec.testBit_toNat, toNat_maskBits hk, Nat.testBit_two_pow_sub_one]

theorem popCount_succ {x y : Addr} {t : ℕ} (ht : t < 64) (hx : x.getLsbD t = false)
    (hy : y.getLsbD t = true) (hsame : ∀ j ≠ t, x.getLsbD j = y.getLsbD j) :
    popCount y = popCount x + 1 := by
  have hinsert : ((Finset.range 64).filter fun j => y.getLsbD j = true) =
      insert t ((Finset.range 64).filter fun j => x.getLsbD j = true) := by
    ext j
    by_cases hj : j = t
    · simp [hj, hy, ht]
    · simp [hj, hsame j hj]
  rw [popCount, popCount, hinsert, Finset.card_insert_of_notMem (by simp [hx])]

theorem ctz64_lt {m : Addr} (hm : m ≠ 0) : ctz64 m < 64 := by
  have h := BitVec.ctz_lt_iff_ne_zero.2 hm
  rwa [ctz64, if_pos hm]

theorem getLsbD_ctz64 {m : Addr} (hm : m ≠ 0) : m.getLsbD (ctz64 m) = true := by
  rw [ctz64, if_pos hm]
  exact BitVec.getLsbD_true_ctz_of_ne_zero hm

theorem getLsbD_lt_ctz64 {m : Addr} (hm : m ≠ 0) {j : ℕ} (hj : j < ctz64 m) : m.getLsbD j = false := by
  rw [ctz64, if_pos hm] at hj
  exact BitVec.getLsbD_false_of_lt_ctz hj

namespace AddrRange

open List

variable {a b : Addr}

/-! ## The selected bits -/

theorem testBit_sel (a : Addr) : ∀ (masks : List Addr) (i j : ℕ), (sel a i masks).testBit j =
    (decide (i ≤ j) && (masks[j - i]?.elim false fun m => decide (popCount (a &&& m) % 2 = 1)))
  | [], i, j => by simp [sel]
  | m :: masks, i, j => by
    rw [sel, Nat.testBit_or, Nat.testBit_shiftLeft, testBit_sel a masks (i + 1) j]
    have hbit : ∀ k, (popCount (a &&& m) % 2).testBit (k + 1) = false := by
      intro k
      refine Nat.testBit_lt_two_pow ?_
      have h₁ := Nat.mod_lt (popCount (a &&& m)) (by decide : 0 < 2)
      have h₂ := Nat.two_pow_pos k
      rw [pow_succ]
      omega
    rcases lt_trichotomy j i with hj | rfl | hj
    · have h₁ : ¬i ≤ j := by omega
      have h₂ : ¬i + 1 ≤ j := by omega
      simp [h₁, h₂]
    · simp [Nat.testBit_zero]
    · obtain ⟨k, rfl⟩ : ∃ k, j = i + (k + 1) := ⟨j - i - 1, by omega⟩
      have h₁ : i + (k + 1) - i = k + 1 := by omega
      have h₂ : i + (k + 1) - (i + 1) = k := by omega
      have h₃ : i + 1 ≤ i + (k + 1) := by omega
      simp [h₁, h₂, h₃, hbit]

theorem sel_lt (a : Addr) (masks : List Addr) : sel a 0 masks < 2 ^ masks.length := by
  refine Nat.lt_pow_two_of_testBit _ fun j hj => ?_
  rw [testBit_sel, Nat.sub_zero, getElem?_eq_none hj]
  simp

theorem parity_eq {masks : List Addr} (h : sel a 0 masks = sel b 0 masks) {m : Addr}
    (hm : m ∈ masks) : popCount (a &&& m) % 2 = popCount (b &&& m) % 2 := by
  obtain ⟨j, hj, rfl⟩ := mem_iff_getElem.1 hm
  have hbit := congrArg (·.testBit j) h
  simp only [testBit_sel, Nat.sub_zero, getElem?_eq_getElem hj, Option.elim_some, Nat.zero_le,
    decide_true, Bool.true_and, decide_eq_decide] at hbit
  omega

/-! ## Taking the bits out -/

variable {r : AddrRange}

theorem toNat_removeStep {b i : ℕ} (hi : i ≤ b) (hb : b < 64) (a : Addr) :
    (if 0 < b then insertBits (a >>> 1) ((b + 2 ^ 32 - i - 1) % 2 ^ 32) 0 a else a >>> 1).toNat =
      drop (b - i) a.toNat := by
  refine Nat.eq_of_testBit_eq fun j => ?_
  rw [testBit_drop, BitVec.testBit_toNat, BitVec.testBit_toNat, BitVec.testBit_toNat]
  by_cases hpos : 0 < b
  · -- `first + 1` is the shifted position, also when it is 0 and `first` wraps around.
    have hfirst : ((b + 2 ^ 32 - i - 1) % 2 ^ 32 + 1) % 2 ^ 32 = b - i := by omega
    have hlt : b - i < 64 := by omega
    have hzero : (maskBits 0).getLsbD j = false := by simp [getLsbD_maskBits]
    rw [if_pos hpos, insertBits, maskRange, hfirst]
    simp only [BitVec.getLsbD_or, BitVec.getLsbD_and, BitVec.getLsbD_not, getLsbD_maskBits hlt, hzero,
      BitVec.getLsbD_ushiftRight, BitVec.shiftLeft_zero]
    split_ifs with hj
    · have : j < 64 := by omega
      simp [hj, this]
    · by_cases hj64 : j < 64
      · simp [hj, hj64, Nat.add_comm]
      · have : a.getLsbD (j + 1) = false := BitVec.getLsbD_of_ge _ _ (by omega)
        simp [hj, this, Nat.add_comm]
  · rw [if_neg hpos, if_neg (by omega), BitVec.getLsbD_ushiftRight, Nat.add_comm]

theorem toNat_removeBits : ∀ (ls : List ℕ) (i : ℕ) (a : Addr), ls.Pairwise (· < ·) →
    (∀ l ∈ ls, i ≤ l ∧ l < 64) → (removeBits i ls a).toNat = dropAll i ls a.toNat
  | [], _, _, _, _ => rfl
  | l :: ls, i, a, hs, hl => by
    obtain ⟨hlt, hs⟩ := pairwise_cons.1 hs
    obtain ⟨hil, hl64⟩ := hl l mem_cons_self
    rw [removeBits, dropAll, ← toNat_removeStep hil hl64]
    refine toNat_removeBits ls (i + 1) _ hs fun l' hl' => ?_
    have h₁ := hlt l' hl'
    have h₂ := (hl l' (mem_cons_of_mem _ hl')).2
    omega

/-- What the masks of an interleaved range are like. -/
structure Spread (masks : List Addr) : Prop where
  nonzero : ∀ m ∈ masks, m ≠ 0
  distinct : (masks.map ctz64).Nodup

theorem masksLsb_perm (r : AddrRange) : r.masksLsb.Perm (r.masks.map ctz64) := mergeSort_perm _ _

theorem mem_masksLsb {l : ℕ} : l ∈ r.masksLsb ↔ ∃ m ∈ r.masks, ctz64 m = l := by
  rw [(masksLsb_perm r).mem_iff, mem_map]

theorem length_masksLsb (r : AddrRange) : r.masksLsb.length = r.masks.length := by
  rw [(masksLsb_perm r).length_eq, length_map]

theorem masksLsb_sorted (h : Spread r.masks) : r.masksLsb.Pairwise (· < ·) := by
  have hle : r.masksLsb.Pairwise (· ≤ ·) := by
    unfold masksLsb
    simpa using pairwise_mergeSort' (· ≤ ·) (r.masks.map ctz64)
  have hne : r.masksLsb.Pairwise (· ≠ ·) := (masksLsb_perm r).nodup_iff.2 h.distinct
  exact (hle.and hne).imp fun h => lt_of_le_of_ne h.1 h.2

theorem toNat_removeIntlvBits (h : Spread r.masks) (a : Addr) :
    (r.removeIntlvBits a).toNat = dropAll 0 r.masksLsb a.toNat := by
  unfold removeIntlvBits
  split_ifs with hi
  · refine toNat_removeBits _ 0 a (masksLsb_sorted h) fun l hl => ⟨Nat.zero_le _, ?_⟩
    obtain ⟨m, hm, rfl⟩ := mem_masksLsb.1 hl
    exact ctz64_lt (h.nonzero m hm)
  · have hnil : r.masksLsb = [] := by
      rw [← length_eq_zero_iff, length_masksLsb]
      simpa [interleaved] using hi
    rw [hnil]
    rfl

theorem topDiff_kept (h : Spread r.masks) {t : ℕ} (ht : TopDiff a.toNat b.toNat t)
    (hsel : sel a 0 r.masks = sel b 0 r.masks) : t ∉ r.masksLsb := by
  intro hmem
  obtain ⟨m, hm, rfl⟩ := mem_masksLsb.1 hmem
  have hm₀ := h.nonzero m hm
  have hpop : popCount (b &&& m) = popCount (a &&& m) + 1 := by
    have hlow := ht.low
    have hhigh := ht.high
    rw [BitVec.testBit_toNat] at hlow hhigh
    refine popCount_succ (ctz64_lt hm₀) (by simp [hlow]) (by simp [hhigh, getLsbD_ctz64 hm₀])
      fun j hj => ?_
    rw [BitVec.getLsbD_and, BitVec.getLsbD_and]
    rcases Nat.lt_or_gt_of_ne hj with hj | hj
    · simp [getLsbD_lt_ctz64 hm₀ hj]
    · have habove := ht.above j hj
      rw [BitVec.testBit_toNat, BitVec.testBit_toNat] at habove
      rw [habove]
  have := parity_eq hsel hm
  omega

theorem removeIntlvBits_lt (h : Spread r.masks) (hlt : a < b)
    (hsel : sel a 0 r.masks = sel b 0 r.masks) :
    (r.removeIntlvBits a).toNat < (r.removeIntlvBits b).toNat := by
  obtain ⟨t, ht⟩ := TopDiff.of_lt (BitVec.lt_def.1 hlt)
  rw [toNat_removeIntlvBits h, toNat_removeIntlvBits h]
  exact dropAll_lt (masksLsb_sorted h) (fun _ _ => Nat.zero_le _) ht (topDiff_kept h ht hsel)

/-! ## Offsets -/

/-- The ends of the range are multiples of a power of two above the bits that are taken out. -/
structure Whole (r : AddrRange) (n : ℕ) : Prop where
  spread : Spread r.masks
  above : ∀ l ∈ r.masksLsb, l < n
  start : 2 ^ n ∣ r.start.toNat
  end_ : 2 ^ n ∣ r.end_.toNat
  le : r.start.toNat ≤ r.end_.toNat

theorem exists_whole (h : Spread r.masks) (hle : r.start ≤ r.end_)
    (ha : ∀ m ∈ r.masks, 2 * 2 ^ ctz64 m ∣ r.start.toNat ∧ 2 * 2 ^ ctz64 m ∣ r.end_.toNat) :
    ∃ n, r.Whole n := by
  have hmax : ∃ n, (∀ m ∈ r.masks, ctz64 m < n) ∧ 2 ^ n ∣ r.start.toNat ∧ 2 ^ n ∣ r.end_.toNat := by
    generalize r.masks = masks at ha
    induction masks with
    | nil => exact ⟨0, by simp⟩
    | cons m masks ih =>
      obtain ⟨n, hn, hstart, hend⟩ := ih fun m' hm' => ha m' (mem_cons_of_mem _ hm')
      have hm := ha m mem_cons_self
      rw [← pow_succ'] at hm
      rcases le_total n (ctz64 m + 1) with hle | hle
      · refine ⟨ctz64 m + 1, fun m' hm' => ?_, hm⟩
        rcases mem_cons.1 hm' with rfl | hm'
        · exact Nat.lt_succ_self _
        · exact (hn m' hm').trans_le hle
      · refine ⟨n, fun m' hm' => ?_, hstart, hend⟩
        rcases mem_cons.1 hm' with rfl | hm'
        · exact hle
        · exact hn m' hm'
  obtain ⟨n, hn, hstart, hend⟩ := hmax
  refine ⟨n, h, fun l hl => ?_, hstart, hend, BitVec.le_def.1 hle⟩
  obtain ⟨m, hm, rfl⟩ := mem_masksLsb.1 hl
  exact hn m hm

namespace Whole

variable {n : ℕ}

theorem length_le (h : r.Whole n) : r.masks.length ≤ n := by
  have hsub : r.masksLsb ⊆ List.range n := fun l hl => mem_range.2 (h.above l hl)
  have hnodup : r.masksLsb.Nodup := (masksLsb_sorted h.spread).imp fun h => h.ne
  have := (subperm_of_subset hnodup hsub).length_le
  rwa [length_masksLsb, length_range] at this

theorem removed (h : r.Whole n) (a : Addr) : ∃ g < 2 ^ (n - r.masks.length),
    (r.removeIntlvBits a).toNat = 2 ^ (n - r.masks.length) * (a.toNat / 2 ^ n) + g := by
  have hmod : a.toNat % 2 ^ n < 2 ^ n := Nat.mod_lt _ (Nat.two_pow_pos n)
  obtain ⟨hsplit, hlt⟩ := dropAll_split (a.toNat / 2 ^ n) (masksLsb_sorted h.spread)
    (i := 0) (fun l hl => ⟨Nat.zero_le _, h.above l hl⟩) hmod
  rw [Nat.div_add_mod, length_masksLsb] at hsplit
  rw [length_masksLsb] at hlt
  exact ⟨_, hlt, (toNat_removeIntlvBits h.spread a).trans hsplit⟩

theorem removed_start (h : r.Whole n) :
    (r.removeIntlvBits r.start).toNat = 2 ^ (n - r.masks.length) * (r.start.toNat / 2 ^ n) := by
  obtain ⟨hsplit, -⟩ := dropAll_split (r.start.toNat / 2 ^ n) (masksLsb_sorted h.spread)
    (i := 0) (fun l hl => ⟨Nat.zero_le _, h.above l hl⟩) (Nat.two_pow_pos n)
  rw [Nat.add_zero, Nat.mul_div_cancel' h.start, length_masksLsb, dropAll_zero, Nat.add_zero] at hsplit
  exact (toNat_removeIntlvBits h.spread _).trans hsplit

theorem toNat_length (h : r.Whole n) : r.end_.toNat - r.start.toNat =
    2 ^ n * (r.end_.toNat / 2 ^ n - r.start.toNat / 2 ^ n) := by
  rw [Nat.mul_sub, Nat.mul_div_cancel' h.end_, Nat.mul_div_cancel' h.start]

theorem toNat_size (h : r.Whole n) : r.size.toNat =
    2 ^ (n - r.masks.length) * (r.end_.toNat / 2 ^ n - r.start.toNat / 2 ^ n) := by
  have hsub : (r.end_ - r.start).toNat = r.end_.toNat - r.start.toNat :=
    BitVec.toNat_sub_of_le (BitVec.le_def.2 h.le)
  have hpow : 2 ^ n = 2 ^ r.masks.length * 2 ^ (n - r.masks.length) := by
    rw [← pow_add, Nat.add_sub_cancel' h.length_le]
  rw [size, BitVec.toNat_ushiftRight, hsub, Nat.shiftRight_eq_div_pow, h.toNat_length, hpow,
    Nat.mul_assoc, Nat.mul_div_cancel_left _ (Nat.two_pow_pos _), ← hpow]

theorem card_eq (h : r.Whole n) :
    r.end_.toNat - r.start.toNat = 2 ^ r.masks.length * r.size.toNat := by
  rw [h.toNat_size, h.toNat_length, ← Nat.mul_assoc, ← pow_add, Nat.add_sub_cancel' h.length_le]

theorem getOffset_eq (h : r.Whole n) (hr : r.inRange a = true) :
    (r.getOffset a).toNat = (r.removeIntlvBits a).toNat - (r.removeIntlvBits r.start).toNat
      ∧ (r.removeIntlvBits r.start).toNat ≤ (r.removeIntlvBits a).toNat
      ∧ (r.getOffset a).toNat < r.size.toNat := by
  obtain ⟨g, hg, hremoved⟩ := h.removed a
  simp only [inRange, decide_eq_true_eq] at hr
  have hsa : r.start.toNat / 2 ^ n ≤ a.toNat / 2 ^ n := Nat.div_le_div_right (BitVec.le_def.1 hr.1)
  have hae : a.toNat / 2 ^ n < r.end_.toNat / 2 ^ n := by
    rw [Nat.div_lt_iff_lt_mul (Nat.two_pow_pos n), Nat.div_mul_cancel h.end_]
    exact BitVec.lt_def.1 hr.2
  have hle : (r.removeIntlvBits r.start).toNat ≤ (r.removeIntlvBits a).toNat := by
    rw [h.removed_start, hremoved]
    exact (Nat.mul_le_mul_left _ hsa).trans (Nat.le_add_right _ _)
  have hoff : (r.getOffset a).toNat =
      (r.removeIntlvBits a).toNat - (r.removeIntlvBits r.start).toNat := by
    have hin : r.inRange a = true := by simpa [inRange] using hr
    have hsub : r.getOffset a = r.removeIntlvBits a - r.removeIntlvBits r.start := by
      rw [getOffset, if_pos hin]
      split_ifs with hi
      · rfl
      · rw [removeIntlvBits, if_neg hi, removeIntlvBits, if_neg hi]
    rw [hsub, BitVec.toNat_sub_of_le (BitVec.le_def.2 hle)]
  refine ⟨hoff, hle, ?_⟩
  rw [h.removed_start, hremoved] at hle
  rw [hoff, h.removed_start, hremoved, h.toNat_size]
  have hmul : 2 ^ (n - r.masks.length) * (a.toNat / 2 ^ n + 1) ≤
      2 ^ (n - r.masks.length) * (r.end_.toNat / 2 ^ n) := Nat.mul_le_mul_left _ hae
  rw [Nat.mul_succ] at hmul
  rw [Nat.mul_sub]
  omega

theorem getOffset_lt (h : r.Whole n) (ha : r.inRange a = true) (hb : r.inRange b = true)
    (hsel : sel a 0 r.masks = sel b 0 r.masks) (hlt : a < b) :
    (r.getOffset a).toNat < (r.getOffset b).toNat := by
  obtain ⟨hoa, hla, -⟩ := h.getOffset_eq ha
  obtain ⟨hob, -, -⟩ := h.getOffset_eq hb
  have := removeIntlvBits_lt h.spread hlt hsel
  omega

theorem getOffset_surj (h : r.Whole n) {m : ℕ} (hm : m < 2 ^ r.masks.length) {o : Addr}
    (ho : o < r.size) : ∃ a, r.inRange a = true ∧ sel a 0 r.masks = m ∧ r.getOffset a = o := by
  have hin : ∀ x ∈ Finset.Ico r.start.toNat r.end_.toNat,
      (BitVec.ofNat 64 x).toNat = x ∧ r.inRange (BitVec.ofNat 64 x) = true := by
    intro x hx
    rw [Finset.mem_Ico] at hx
    have hx64 : x < 2 ^ 64 := hx.2.trans r.end_.isLt
    have htoNat : (BitVec.ofNat 64 x).toNat = x := by
      rw [BitVec.toNat_ofNat, Nat.mod_eq_of_lt hx64]
    refine ⟨htoNat, ?_⟩
    simp only [inRange, decide_eq_true_eq, BitVec.le_def, BitVec.lt_def, htoNat]
    exact hx
  obtain ⟨x, hx, hsel, hoff⟩ := surjOn_of_fibers (Finset.Ico r.start.toNat r.end_.toNat)
    (fun x => sel (BitVec.ofNat 64 x) 0 r.masks) (fun x => (r.getOffset (BitVec.ofNat 64 x)).toNat)
    (by rw [Nat.card_Ico, h.card_eq]) (fun x _ => sel_lt _ _)
    (fun x hx => (h.getOffset_eq (hin x hx).2).2.2) (fun x hx y hy hsel hoff => by
      rcases lt_trichotomy x y with hlt | heq | hlt
      · have := h.getOffset_lt (hin x hx).2 (hin y hy).2 hsel (by
          rw [BitVec.lt_def, (hin x hx).1, (hin y hy).1]
          exact hlt)
        omega
      · exact heq
      · have := h.getOffset_lt (hin y hy).2 (hin x hx).2 hsel.symm (by
          rw [BitVec.lt_def, (hin x hx).1, (hin y hy).1]
          exact hlt)
        omega) hm (BitVec.lt_def.1 ho)
  exact ⟨BitVec.ofNat 64 x, (hin x hx).2, hsel, BitVec.eq_of_toNat_eq hoff⟩

end Whole

theorem contains_iff : r.contains a = true ↔
    r.inRange a = true ∧ sel a 0 r.masks = r.intlvMatch.toNat := by
  simp [contains]

/-- The ranges of the `2 ^ n` match values split the interval, and in each the offset is strictly
increasing and takes the values below the size, each once. -/
theorem interleaving_splits (start end_ : Addr) (masks : List Addr) (hn : masks.length ≤ 8)
    (hz : ∀ m ∈ masks, m ≠ 0) (hd : (masks.map ctz64).Nodup)
    (ha : ∀ m ∈ masks, 2 * 2 ^ ctz64 m ∣ start.toNat ∧ 2 * 2 ^ ctz64 m ∣ end_.toNat)
    (hle : start ≤ end_) :
    (∀ a, (start ≤ a ∧ a < end_) ↔ ∃! m : BitVec 8, m.toNat < 2 ^ masks.length
        ∧ (AddrRange.mk start end_ masks m).contains a = true)
      ∧ ∀ m : BitVec 8, m.toNat < 2 ^ masks.length → ∀ r, r = AddrRange.mk start end_ masks m →
        (∀ a b, r.contains a = true → r.contains b = true → a < b → r.getOffset a < r.getOffset b)
        ∧ Set.BijOn r.getOffset {a | r.contains a = true} {o | o < r.size} := by
  refine ⟨fun a => ⟨fun hr => ?_, ?_⟩, ?_⟩
  · have hlt : sel a 0 masks < 2 ^ 8 :=
      (sel_lt a masks).trans_le (Nat.pow_le_pow_right (by decide) hn)
    have htoNat : (BitVec.ofNat 8 (sel a 0 masks)).toNat = sel a 0 masks := by
      rw [BitVec.toNat_ofNat, Nat.mod_eq_of_lt hlt]
    refine ⟨BitVec.ofNat 8 (sel a 0 masks), ⟨by rw [htoNat]; exact sel_lt a masks, ?_⟩, ?_⟩
    · exact contains_iff.2 ⟨by simpa [inRange] using hr, htoNat.symm⟩
    · rintro m ⟨-, hm⟩
      refine BitVec.eq_of_toNat_eq ?_
      rw [htoNat]
      exact (contains_iff.1 hm).2.symm
  · rintro ⟨m, ⟨-, hm⟩, -⟩
    simpa [inRange] using (contains_iff.1 hm).1
  · rintro m hm r rfl
    obtain ⟨n, h⟩ := exists_whole (r := AddrRange.mk start end_ masks m) ⟨hz, hd⟩ hle ha
    have hmono : ∀ a b, (AddrRange.mk start end_ masks m).contains a = true →
        (AddrRange.mk start end_ masks m).contains b = true → a < b →
        (AddrRange.mk start end_ masks m).getOffset a < (AddrRange.mk start end_ masks m).getOffset b := by
      intro a b hca hcb hlt
      obtain ⟨ha, hsa⟩ := contains_iff.1 hca
      obtain ⟨hb, hsb⟩ := contains_iff.1 hcb
      exact BitVec.lt_def.2 (h.getOffset_lt ha hb (hsa.trans hsb.symm) hlt)
    refine ⟨hmono, fun a ha => ?_, fun a ha b hb hab => ?_, fun o ho => ?_⟩
    · exact BitVec.lt_def.2 (h.getOffset_eq (contains_iff.1 ha).1).2.2
    · by_contra hne
      rcases Nat.lt_or_gt_of_ne (fun heq => hne (BitVec.eq_of_toNat_eq heq)) with hlt | hlt
      · have := BitVec.lt_def.1 (hmono a b ha hb (BitVec.lt_def.2 hlt))
        rw [hab] at this
        exact lt_irrefl _ this
      · have := BitVec.lt_def.1 (hmono b a hb ha (BitVec.lt_def.2 hlt))
        rw [hab] at this
        exact lt_irrefl _ this
    · obtain ⟨a, hin, hsel, hoff⟩ := h.getOffset_surj hm ho
      exact ⟨a, contains_iff.2 ⟨hin, hsel⟩, hoff⟩

/-- Two masks that overlap, over two blocks of eight addresses. -/
theorem interleaving_splits_blocks :
    (∃! m : BitVec 8, m.toNat < 2 ^ 2 ∧ (AddrRange.mk 8 24 [0b1110, 0b1100] m).contains 21 = true)
      ∧ Set.BijOn (AddrRange.mk 8 24 [0b1110, 0b1100] 2).getOffset
        {a | (AddrRange.mk 8 24 [0b1110, 0b1100] 2).contains a = true}
        {o | o < (AddrRange.mk 8 24 [0b1110, 0b1100] 2).size} := by
  have h₁ : ctz64 14#64 = 1 := by decide +kernel
  have h₂ : ctz64 12#64 = 2 := by decide +kernel
  obtain ⟨hsplit, hrange⟩ := interleaving_splits 8 24 [0b1110, 0b1100] (by decide) (by simp)
    (by simp [h₁, h₂]) (by simp [h₁, h₂]) (by decide)
  exact ⟨(hsplit 21).1 (by decide), (hrange 2 (by decide) _ rfl).2⟩

/-- Ends in the wrong order: no address, but a size that wraps around. -/
theorem reversed_ends : ∃ r : AddrRange, r.masks = [1] ∧ 2 ∣ r.start.toNat ∧ 2 ∣ r.end_.toNat
    ∧ (∀ a, r.contains a = false) ∧ r.size ≠ 0 := by
  refine ⟨⟨2, 0, [1], 0⟩, rfl, by decide, by decide, fun a => ?_, by decide⟩
  have hout : AddrRange.inRange ⟨2, 0, [1], 0⟩ a = false := by
    simp [inRange]
  rw [contains, hout, Bool.false_and]

end AddrRange

end Gem5.Base
