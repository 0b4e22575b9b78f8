import Gem5.Proofs.AddrRange

/-!
# Interleave bits that are put back

`addIntlvBits` puts a stand-in at each position that `removeIntlvBits` took a bit from, the bit
below it, and then sets one position after the other to the parity of its mask. A mask that has the
lowest bit of a later one sees the stand-in there, and one with lowest bit 31 sees no bit above it.
-/

namespace Interleave

theorem testBit_dropAll_low {k : ℕ} : ∀ {ls : List ℕ} {i a : ℕ}, ls.Pairwise (· < ·) →
    (∀ l ∈ ls, i + k < l) → (dropAll i ls a).testBit k = a.testBit k
  | [], _, _, _, _ => rfl
  | l :: ls, i, a, hs, hl => by
    obtain ⟨hlt, hs⟩ := List.pairwise_cons.1 hs
    have hk := hl l List.mem_cons_self
    rw [dropAll, testBit_dropAll_low hs fun l' hl' => ?_, testBit_drop, if_pos (by omega)]
    have := hlt l' hl'
    omega

theorem testBit_dropAll {k : ℕ} : ∀ {ls : List ℕ} {i a : ℕ}, ls.Pairwise (· < ·) →
    (∀ l ∈ ls, i ≤ l) → i ≤ k → k ∉ ls →
    (dropAll i ls a).testBit (k - i - ls.countP (· < k)) = a.testBit (k - i)
  | [], _, _, _, _, _, _ => rfl
  | l :: ls, i, a, hs, hl, hik, hk => by
    have hlk : k ≠ l := fun h => hk (h ▸ List.mem_cons_self)
    obtain ⟨hlt, hs'⟩ := List.pairwise_cons.1 hs
    have hil := hl l List.mem_cons_self
    rcases lt_or_gt_of_ne hlk with hkl | hkl
    · have hall : ∀ l' ∈ l :: ls, k < l' := by
        intro l' hl'
        rcases List.mem_cons.1 hl' with rfl | hl'
        · exact hkl
        · exact hkl.trans (hlt l' hl')
      rw [List.countP_eq_zero.2 fun l' hl' => by simpa using (hall l' hl').le, Nat.sub_zero]
      exact testBit_dropAll_low hs fun l' hl' => by
        have := hall l' hl'
        omega
    · have ih := testBit_dropAll (k := k) (i := i + 1) (a := drop (l - i) a) hs'
        (fun l' hl' => by have := hlt l' hl'; omega) (by omega)
        fun h => hk (List.mem_cons_of_mem _ h)
      rw [testBit_drop, if_neg (by omega), show k - (i + 1) + 1 = k - i by omega] at ih
      rw [dropAll, ← ih, List.countP_cons_of_pos (by simpa using hkl)]
      congr 1
      omega

end Interleave

namespace Gem5.Base.AddrRange

open Interleave Machine

variable {r : AddrRange} {a b : Addr} {ls : List ℕ} {j : ℕ}

theorem countP_lt_le {l : ℕ} : ∀ {ls : List ℕ}, ls.Pairwise (· < ·) → (∀ l' ∈ ls, l < l') → l < j →
    ls.countP (· < j) ≤ j - l - 1
  | [], _, _, _ => Nat.zero_le _
  | l' :: ls, hs, hl, hj => by
    obtain ⟨hlt, hs⟩ := List.pairwise_cons.1 hs
    have hll := hl l' List.mem_cons_self
    by_cases hj' : l' < j
    · have ih := countP_lt_le hs hlt hj'
      rw [List.countP_cons_of_pos (by simpa using hj')]
      omega
    · rw [List.countP_eq_zero.2]
      · exact Nat.zero_le _
      · intro l'' hl''
        rcases List.mem_cons.1 hl'' with rfl | hl''
        · simpa using hj'
        · have := hlt l'' hl''
          simp
          omega

theorem getLsbD_insertIntlvBit {l : ℕ} (hl : l < 64) (hj : j < 64) :
    (insertIntlvBit l a).getLsbD j
      = if j < l then a.getLsbD j else decide (0 < j) && a.getLsbD (j - 1) := by
  have hshift : (a <<< 1).getLsbD j = (decide (0 < j) && a.getLsbD (j - 1)) := by
    rw [BitVec.getLsbD_shiftLeft]
    rcases j with _ | j <;> simp [hj]
  unfold insertIntlvBit
  by_cases hpos : 0 < l
  · rw [if_pos hpos, insertBits, maskRange, show (l - 1 + 1) % 2 ^ 32 = l by omega]
    simp only [BitVec.getLsbD_or, BitVec.getLsbD_and, BitVec.getLsbD_not, getLsbD_maskBits hl,
      getLsbD_maskBits (show 0 < 64 by decide), BitVec.shiftLeft_zero, hshift, hj]
    by_cases hjl : j < l <;> simp [hjl]
  · rw [if_neg hpos, if_neg (by omega), hshift]

theorem getLsbD_insertIntlv : ∀ {ls : List ℕ} {a : Addr}, ls.Pairwise (· < ·) →
    (∀ l ∈ ls, l < 64) → ∀ {j : ℕ}, j < 64 →
    (insertIntlv ls a).getLsbD j = if j ∈ ls then
      decide (0 < j) && (insertIntlv ls a).getLsbD (j - 1) else a.getLsbD (j - ls.countP (· < j))
  | [], _, _, _, _, _ => by simp [insertIntlv]
  | l :: ls, a, hs, hl, j, hj => by
    obtain ⟨hlt, hs'⟩ := List.pairwise_cons.1 hs
    have hl64 := hl l List.mem_cons_self
    have ih {k : ℕ} (hk : k < 64) := getLsbD_insertIntlv (a := insertIntlvBit l a) hs'
      (fun l' h => hl l' (List.mem_cons_of_mem _ h)) hk
    have hnone {k : ℕ} (hk : k ≤ l) : ls.countP (· < k) = 0 ∧ k ∉ ls := by
      refine ⟨List.countP_eq_zero.2 fun l' h => ?_, fun h => absurd (hlt k h) (by omega)⟩
      have := hlt l' h
      simp only [decide_eq_true_eq]
      omega
    -- below the first position nothing has moved
    have hlow {k : ℕ} (hk : k ≤ l) : (insertIntlv (l :: ls) a).getLsbD k
        = if k < l then a.getLsbD k else decide (0 < k) && a.getLsbD (k - 1) := by
      rw [insertIntlv, ih (by omega), if_neg (hnone hk).2, (hnone hk).1, Nat.sub_zero,
        getLsbD_insertIntlvBit hl64 (by omega)]
    rcases lt_trichotomy j l with hjl | rfl | hjl
    · rw [hlow hjl.le, if_pos hjl, if_neg (by simp [hjl.ne, (hnone hjl.le).2]),
        List.countP_cons_of_neg (by simpa using hjl.le), (hnone hjl.le).1, Nat.sub_zero]
    · rw [hlow le_rfl, if_neg (lt_irrefl _), if_pos List.mem_cons_self]
      rcases Nat.eq_zero_or_pos j with rfl | hpos
      · rfl
      · rw [hlow (by omega), if_pos (by omega)]
    · have hcount := countP_lt_le hs' hlt hjl
      rw [List.countP_cons_of_pos (by simpa using hjl), insertIntlv, ih hj]
      simp only [List.mem_cons, hjl.ne', false_or]
      split_ifs
      · rfl
      · rw [getLsbD_insertIntlvBit hl64 (by omega), if_neg (by omega), decide_eq_true (by omega),
          Bool.true_and]
        congr 1

/-- What stands at a position that a bit is put back at: the next bit below that was kept. -/
def standIn (ls : List ℕ) (a : Addr) : ℕ → Bool
  | 0 => false
  | k + 1 => if k ∈ ls then standIn ls a k else a.getLsbD k

theorem getLsbD_removeIntlvBits (h : Spread r.masks) (a : Addr) (hj : j ∉ r.masksLsb) :
    (r.removeIntlvBits a).getLsbD (j - r.masksLsb.countP (· < j)) = a.getLsbD j := by
  have hkept := testBit_dropAll (a := a.toNat) (masksLsb_sorted h) (fun l _ => Nat.zero_le l)
    (Nat.zero_le j) hj
  rwa [← toNat_removeIntlvBits h, BitVec.testBit_toNat, Nat.sub_zero, BitVec.testBit_toNat] at hkept

theorem getLsbD_refilled (h : Spread r.masks) (a : Addr) (hj : j < 64) :
    (insertIntlv r.masksLsb (r.removeIntlvBits a)).getLsbD j
      = if j ∈ r.masksLsb then standIn r.masksLsb a j else a.getLsbD j := by
  have hlt : ∀ l ∈ r.masksLsb, l < 64 := fun l hl => by
    obtain ⟨m, hm, rfl⟩ := mem_masksLsb.1 hl
    exact ctz64_lt (h.nonzero m hm)
  induction j with
  | zero =>
    rw [getLsbD_insertIntlv (masksLsb_sorted h) hlt hj]
    split_ifs with hmem
    · rfl
    · exact getLsbD_removeIntlvBits h a hmem
  | succ j ih =>
    rw [getLsbD_insertIntlv (masksLsb_sorted h) hlt hj]
    split_ifs with hmem
    · rw [Nat.add_sub_cancel, ih (by omega), standIn, decide_eq_true (Nat.succ_pos j),
        Bool.true_and]
    · exact getLsbD_removeIntlvBits h a hmem

/-! ## Parities -/

/-- The bits of the address that the mask has, except for its lowest bit `l`, as the second loop
sees them when the lowest bits `later` are still to be set. -/
def sees (ls later : List ℕ) (l : ℕ) (a : Addr) (k : ℕ) : Bool :=
  !decide (l = 31 ∧ 32 ≤ k) && if k ∈ later then standIn ls a k else a.getLsbD k

/-- An even number of the bits of the mask are seen as they are not. -/
def SeesParity (ls later : List ℕ) (a mask : Addr) : Prop :=
  ((Finset.range 64).filter fun k => mask.getLsbD k = true ∧ k ≠ ctz64 mask
    ∧ sees ls later (ctz64 mask) a k ≠ a.getLsbD k).card % 2 = 0

instance (ls later : List ℕ) (a mask : Addr) : Decidable (SeesParity ls later a mask) :=
  inferInstanceAs (Decidable (_ = _))

/-- The lowest bit of each mask is below 32, and its parity is seen right. -/
def Restores (ls : List ℕ) (a : Addr) : List Addr → Prop
  | [] => True
  | mask :: masks => ctz64 mask < 32 ∧ SeesParity ls (masks.map ctz64) a mask ∧ Restores ls a masks

instance Restores.dec (ls : List ℕ) (a : Addr) : ∀ masks, Decidable (Restores ls a masks)
  | [] => .isTrue trivial
  | _ :: masks =>
    have := Restores.dec ls a masks
    inferInstanceAs (Decidable (_ ∧ _ ∧ _))

theorem even_card_filter (s : Finset ℕ) (p q : ℕ → Bool) :
    ((s.filter fun k => p k = true).card + (s.filter fun k => q k = true).card
      + (s.filter fun k => p k ≠ q k).card) % 2 = 0 := by
  simp only [Finset.card_filter, ← Finset.sum_add_distrib]
  refine Nat.mod_eq_zero_of_dvd (Finset.dvd_sum fun k _ => ?_)
  rcases p k <;> rcases q k <;> decide

theorem getLsbD_lsbClear {l : ℕ} {c : Addr} (hc : lsbClear l = .ok c) (hj : j < 64) :
    c.getLsbD j = (decide (j ≠ l) && !decide (l = 31 ∧ 32 ≤ j)) := by
  unfold lsbClear at hc
  split_ifs at hc with hl
  cases hc
  rw [BitVec.getLsbD_signExtend, BitVec.msb_eq_getLsbD_last, ← BitVec.twoPow_eq]
  simp only [BitVec.getLsbD_not, BitVec.getLsbD_twoPow, hl, hj]
  by_cases hj32 : j < 32
  · simp [hj32, eq_comm (a := l)]
  · have hne : j ≠ l := by omega
    simp [hj32, hne, not_lt.1 hj32]

theorem getLsbD_insertBit {l : ℕ} (hl : l < 32) (hj : j < 64) (v : Addr) :
    (insertBits b l l v).getLsbD j = if j = l then v.getLsbD 0 else b.getLsbD j := by
  have hmask : (maskRange l l).getLsbD j = decide (j = l) := by
    rw [maskRange, Nat.mod_eq_of_lt (by omega)]
    simp only [BitVec.getLsbD_and, BitVec.getLsbD_not, getLsbD_maskBits (show l + 1 < 64 by omega),
      getLsbD_maskBits (show l < 64 by omega), hj, decide_true, Bool.true_and]
    by_cases h : j = l
    · simp [h]
    · simp [h]
      omega
  simp only [insertBits, BitVec.getLsbD_or, BitVec.getLsbD_and, BitVec.getLsbD_not, hmask,
    BitVec.getLsbD_shiftLeft, hj]
  split_ifs with h <;> simp [h]

/-- The bit that is set is that of the address just when the parity is seen right. -/
theorem lsb_iff {ls later : List ℕ} {mask c : Addr} (hm : mask ≠ 0)
    (hc : lsbClear (ctz64 mask) = .ok c) (hb : ∀ k < 64, b.getLsbD k
      = if k ∈ ctz64 mask :: later then standIn ls a k else a.getLsbD k) :
    (BitVec.ofNat 64 ((decide (popCount (a &&& mask) % 2 = 1)).toNat ^^^
        popCount (b &&& mask &&& c))).getLsbD 0 = a.getLsbD (ctz64 mask)
      ↔ SeesParity ls later a mask := by
  have hl := ctz64_lt hm
  let x : Addr := a &&& mask &&& ~~~BitVec.twoPow 64 (ctz64 mask)
  have hx : ∀ k < 64, x.getLsbD k
      = (a.getLsbD k && mask.getLsbD k && decide (k ≠ ctz64 mask)) := by
    intro k hk
    simp [x, hk, eq_comm (a := k)]
  have hpop : popCount (a &&& mask) = popCount x + (a.getLsbD (ctz64 mask)).toNat := by
    rcases hbit : a.getLsbD (ctz64 mask) with _ | _
    · refine congrArg Finset.card (Finset.filter_congr fun k hk => ?_)
      rw [hx k (Finset.mem_range.1 hk), BitVec.getLsbD_and]
      by_cases hkl : k = ctz64 mask
      · simp [hkl, hbit]
      · simp [hkl]
    · refine popCount_succ hl (by simp [hx _ hl]) (by simp [hbit, getLsbD_ctz64 hm]) fun k hk => ?_
      by_cases hk64 : k < 64
      · simp [hx k hk64, hk]
      · rw [BitVec.getLsbD_of_ge _ _ (by omega), BitVec.getLsbD_of_ge _ _ (by omega)]
  have heven : (popCount x + popCount (b &&& mask &&& c) + _) % 2 = 0 :=
    even_card_filter (Finset.range 64) x.getLsbD (b &&& mask &&& c).getLsbD
  have hwrong : ((Finset.range 64).filter fun k => x.getLsbD k ≠ (b &&& mask &&& c).getLsbD k)
      = (Finset.range 64).filter fun k => mask.getLsbD k = true ∧ k ≠ ctz64 mask
        ∧ sees ls later (ctz64 mask) a k ≠ a.getLsbD k := by
    refine Finset.filter_congr fun k hk => ?_
    have hk := Finset.mem_range.1 hk
    rw [hx k hk, BitVec.getLsbD_and, BitVec.getLsbD_and, hb k hk, getLsbD_lsbClear hc hk, sees]
    by_cases hkl : k = ctz64 mask
    · simp [hkl]
    · rcases mask.getLsbD k
      · simp
      · simp [hkl, Bool.and_comm, eq_comm]
  have hset : (BitVec.ofNat 64 ((decide (popCount (a &&& mask) % 2 = 1)).toNat ^^^
      popCount (b &&& mask &&& c))).getLsbD 0 = true
      ↔ (popCount (a &&& mask) + popCount (b &&& mask &&& c)) % 2 = 1 := by
    rw [← BitVec.testBit_toNat, BitVec.toNat_ofNat, Nat.testBit_mod_two_pow, Nat.testBit_xor,
      Nat.testBit_zero, Nat.testBit_zero]
    rcases Nat.mod_two_eq_zero_or_one (popCount (a &&& mask)) with h | h
    all_goals rcases Nat.mod_two_eq_zero_or_one (popCount (b &&& mask &&& c)) with h' | h'
    all_goals simp [h, h', Nat.add_mod]
  rw [hwrong] at heven
  unfold SeesParity
  rw [Bool.eq_iff_iff, hset, hpop]
  rcases a.getLsbD (ctz64 mask) with _ | _
  · simp only [Bool.toNat_false, Bool.false_eq_true, iff_false]
    omega
  · simp only [Bool.toNat_true, iff_true]
    omega

/-- Only the lowest bits of the masks are set. -/
theorem setLsbs_keeps {v : BitVec 8} : ∀ {masks : List Addr} {i : ℕ} {b c : Addr},
    setLsbs v i masks b = .ok c → ∀ j < 64, j ∉ masks.map ctz64 → c.getLsbD j = b.getLsbD j
  | [], _, _, _, h, _, _, _ => by
    cases h
    rfl
  | mask :: masks, i, b, c, h, j, hj, hmem => by
    obtain ⟨clear, hclear, h⟩ := bind_ok.1 h
    rw [List.map_cons, List.mem_cons, not_or] at hmem
    have hl : ctz64 mask < 32 := by
      unfold lsbClear at hclear
      split_ifs at hclear with hl
      exact hl
    rw [setLsbs_keeps h j hj hmem.2, getLsbD_insertBit hl hj, if_neg hmem.1]

/-- The second loop leads to the address just when every mask sees its parity. -/
theorem setLsbs_iff {v : BitVec 8} {ls : List ℕ} : ∀ {masks : List Addr} {i : ℕ} {b : Addr},
    (∀ m ∈ masks, m ≠ 0) → (masks.map ctz64).Nodup →
    (∀ t m, masks[t]? = some m → v.getLsbD (i + t) = decide (popCount (a &&& m) % 2 = 1)) →
    (∀ k < 64, b.getLsbD k = if k ∈ masks.map ctz64 then standIn ls a k else a.getLsbD k) →
    (setLsbs v i masks b = .ok a ↔ Restores ls a masks)
  | [], i, b, _, _, _, hb => by
    have : b = a := BitVec.eq_of_getLsbD_eq fun k hk => by simpa using hb k hk
    simp [setLsbs, Restores, this]
  | mask :: masks, i, b, hne, hnodup, hpar, hb => by
    rw [List.map_cons, List.nodup_cons] at hnodup
    have hm := hne mask List.mem_cons_self
    have hbit := hpar 0 mask rfl
    rw [Nat.add_zero] at hbit
    rw [setLsbs, Restores, hbit]
    by_cases hl : ctz64 mask < 32
    · obtain ⟨c, hc⟩ : ∃ c, lsbClear (ctz64 mask) = .ok c := ⟨_, if_pos hl⟩
      rw [hc, ok_bind]
      have hiff := lsb_iff hm hc hb
      dsimp only
      generalize BitVec.ofNat 64 _ = bitVal at hiff ⊢
      by_cases hsees : SeesParity ls (masks.map ctz64) a mask
      · have hnext : ∀ k < 64, (insertBits b (ctz64 mask) (ctz64 mask) bitVal).getLsbD k
            = if k ∈ masks.map ctz64 then standIn ls a k else a.getLsbD k := by
          intro k hk
          rw [getLsbD_insertBit hl hk, hiff.2 hsees, hb k hk]
          by_cases hkl : k = ctz64 mask
          · simp [hkl, hnodup.1]
          · simp [hkl]
        rw [setLsbs_iff (fun m h => hne m (List.mem_cons_of_mem _ h)) hnodup.2
          (fun t m h => ?_) hnext]
        · simp [hl, hsees]
        · rw [Nat.add_assoc, Nat.add_comm 1]
          exact hpar (t + 1) m h
      · simp only [hsees, false_and, and_false, iff_false]
        intro h
        have hkept := setLsbs_keeps h _ (by omega) hnodup.1
        rw [getLsbD_insertBit hl (by omega), if_pos rfl] at hkept
        exact hsees (hiff.1 hkept.symm)
    · have herr : lsbClear (ctz64 mask) = .error (.undefined "1 << lsb") := if_neg hl
      rw [herr]
      simp only [hl, false_and, iff_false]
      exact nofun

/-- For every range with masks that are not zero and have different lowest bits, and every address
in it, putting the interleave bits back gives the address exactly if the lowest bit of each mask is
below 32 and each mask has an even number of bits that are not seen as they are: the lowest bits of
masks behind it, where the next bit below that was kept stands in, and for a mask with lowest bit 31
all bits above it. -/
theorem addIntlvBits_removeIntlvBits_iff (h : Spread r.masks) (ha : r.contains a = true) :
    r.addIntlvBits (r.removeIntlvBits a) = .ok a ↔ Restores r.masksLsb a r.masks := by
  have hsel : sel a 0 r.masks = r.intlvMatch.toNat := by
    simp only [contains, Bool.and_eq_true, beq_iff_eq] at ha
    exact ha.2
  have hiff : setLsbs r.intlvMatch 0 r.masks (insertIntlv r.masksLsb (r.removeIntlvBits a)) = .ok a
      ↔ Restores r.masksLsb a r.masks := by
    refine setLsbs_iff h.nonzero h.distinct (fun t m hm => ?_) fun k hk => ?_
    · rw [Nat.zero_add, ← BitVec.testBit_toNat, ← hsel, testBit_sel, Nat.sub_zero, hm]
      rfl
    · rw [getLsbD_refilled h a hk]
      simp only [(masksLsb_perm r).mem_iff]
  unfold addIntlvBits
  split_ifs with hi
  · exact hiff
  · have hnil : r.masks = [] := by simpa [interleaved] using hi
    simp [removeIntlvBits, hi, hnil, Restores]

theorem masksLsb_of_sorted (h : (r.masks.map ctz64).Pairwise (· ≤ ·)) :
    r.masksLsb = r.masks.map ctz64 :=
  List.mergeSort_of_pairwise (by simpa using h)

def hashed : AddrRange := ⟨0, 256, [0x28, 0x10], 1⟩

theorem addIntlvBits_removeIntlvBits_hashed : hashed.contains 0x4a = true ∧
    hashed.addIntlvBits (hashed.removeIntlvBits 0x4a) = .ok 0x4a := by
  have hin : hashed.contains 0x4a = true := by decide +kernel
  refine ⟨hin, (addIntlvBits_removeIntlvBits_iff ⟨?_, ?_⟩ hin).2 ?_⟩
  · simp [hashed]
  · decide +kernel
  · rw [masksLsb_of_sorted (by decide +kernel)]
    decide +kernel

def nested : AddrRange := ⟨0, 256, [3, 2], 3⟩

def high : AddrRange := ⟨0, 0x200000000, [0x180000000], 0⟩

theorem interleave_bits_lost :
    (nested.contains 2 = true ∧ nested.addIntlvBits (nested.removeIntlvBits 2) = .ok 3)
    ∧ high.contains 0x180000000 = true
    ∧ high.addIntlvBits (high.removeIntlvBits 0x180000000) = .ok 0x100000000 := by
  simp only [addIntlvBits, removeIntlvBits]
  have hnested : nested.masksLsb = nested.masks.map ctz64 := masksLsb_of_sorted (by decide +kernel)
  have hhigh : high.masksLsb = high.masks.map ctz64 := masksLsb_of_sorted (by decide +kernel)
  rw [hnested, hhigh]
  decide +kernel

end Gem5.Base.AddrRange
