import Gem5.AddrRange
import Gem5.Proofs.AddrRange

/-!
# When the overlap test of two ranges is exact

`intersects` looks at the intervals, and beyond that only tells parts of one interleaved range from
each other. It panics for other interleaved ranges that overlap, except that of a range of size 1 it
looks at the first address. Where neither misleads it (`Comparable`) it is exact.
-/

namespace Gem5.Base

open Machine

namespace AddrRange

variable {r s t : AddrRange}

/-! ## Ranges -/

def Overlaps (r s : AddrRange) : Prop := r.start < s.end_ ∧ s.start < r.end_

instance (r s : AddrRange) : Decidable (r.Overlaps s) := inferInstanceAs (Decidable (_ ∧ _))

def Shares (r s : AddrRange) : Prop := ∃ a, r.contains a = true ∧ s.contains a = true

/-- If the intervals overlap, the ranges are plain, or parts of one interleaved range, or the test finds
the first address of a range of size 1 and they do have an address in common. Parts of size 1 have to be
told apart by their first address. -/
def Comparable (r s : AddrRange) : Prop :=
  r.Overlaps s → (r.masks = [] ∧ s.masks = []) ∨
    (r.mergesWith s = true ∧ (s.size = 1 → r.contains s.start = (r.intlvMatch == s.intlvMatch))) ∨
    (s.size = 1 ∧ r.contains s.start = true ∧ r.Shares s)

/-- The range has an address, and its granularity can be computed. -/
structure Proper (r : AddrRange) : Prop where
  nonempty : ∃ a, r.contains a = true
  granular : r.interleaved = true → r.combinedMask ≠ 0

theorem interleaved_eq_false : r.interleaved = false ↔ r.masks = [] := by
  simp [interleaved]

theorem mergesWith_iff : r.mergesWith s = true ↔
    s.start = r.start ∧ s.end_ = r.end_ ∧ s.masks = r.masks := by
  simp [mergesWith, and_assoc]

theorem mergesWith_of_common (h : r.mergesWith s = true) (h' : r.mergesWith t = true) :
    s.mergesWith t = true := by
  rw [mergesWith_iff] at h h' ⊢
  exact ⟨h'.1.trans h.1.symm, h'.2.1.trans h.2.1.symm, h'.2.2.trans h.2.2.symm⟩

theorem mergesWith_symm (h : r.mergesWith s = true) : s.mergesWith r = true := by
  rw [mergesWith_iff] at h ⊢
  exact ⟨h.1.symm, h.2.1.symm, h.2.2.symm⟩

theorem inRange_iff {a : Addr} : r.inRange a = true ↔ r.start ≤ a ∧ a < r.end_ := by
  simp [inRange]

theorem Proper.start_lt_end (h : r.Proper) : r.start < r.end_ := by
  obtain ⟨a, ha⟩ := h.nonempty
  have := inRange_iff.1 (contains_iff.1 ha).1
  exact BitVec.lt_def.2 ((BitVec.le_def.1 this.1).trans_lt (BitVec.lt_def.1 this.2))

theorem Proper.contains_plain (h : r.Proper) (hm : r.masks = []) (a : Addr) :
    r.contains a = r.inRange a := by
  obtain ⟨b, hb⟩ := h.nonempty
  have hmatch := (contains_iff.1 hb).2
  rw [hm] at hmatch
  rw [contains, hm, ← hmatch]
  simp [sel]

/-- What `operator<` goes by. -/
def key (r : AddrRange) : ℕ ×ₗ ℕ :=
  toLex (r.start.toNat, if r.interleaved then r.intlvMatch.toNat else 256)

theorem lt_iff_key : r.lt s = true ↔ r.key < s.key := by
  rw [lt, key, key, Prod.Lex.toLex_lt_toLex]
  by_cases hs : r.start = s.start
  · have h₁ := r.intlvMatch.isLt
    have h₂ := s.intlvMatch.isLt
    cases hr : r.interleaved <;> cases hs' : s.interleaved <;> simp [hs, BitVec.lt_def] <;> omega
  · have hne : r.start.toNat ≠ s.start.toNat := fun h => hs (BitVec.eq_of_toNat_eq h)
    simp [hs, hne, BitVec.lt_def]

theorem start_le_of_key_le (h : r.key ≤ s.key) : r.start.toNat ≤ s.start.toNat := by
  rw [key, key, Prod.Lex.toLex_le_toLex] at h
  rcases h with h | h
  · exact h.le
  · exact h.1.le

theorem Proper.granularity (h : r.Proper) (hi : r.interleaved = true) :
    ∃ g, r.granularity = .ok g ∧ 1 ≤ g.toNat := by
  have hne : r.combinedMask.signExtend 64 ≠ 0 := by
    intro h₀
    refine h.granular hi (BitVec.eq_of_getLsbD_eq fun i hi' => ?_)
    have hbit := congrArg (fun x => x.getLsbD i) h₀
    simp only [BitVec.getLsbD_signExtend, if_pos hi', hi'.trans (show 32 < 64 by decide),
      decide_true, Bool.true_and] at hbit
    simpa using hbit
  have hlt := ctz64_lt hne
  refine ⟨_, by rw [AddrRange.granularity, if_pos hi]; exact if_pos hlt, ?_⟩
  have hpow : 2 ^ ctz64 (r.combinedMask.signExtend 64) < 2 ^ 64 :=
    Nat.pow_lt_pow_right (by decide) hlt
  rw [BitVec.toNat_shiftLeft, show (1#64).toNat = 1 from rfl, Nat.shiftLeft_eq, one_mul,
    Nat.mod_eq_of_lt hpow]
  exact Nat.one_le_two_pow

theorem isSubset_ok (hs : s.Proper) (hr : r.interleaved = false) : ∃ b, r.isSubset s = .ok b := by
  rw [isSubset, hr, if_neg Bool.false_ne_true]
  split_ifs with hi hc
  · obtain ⟨g, hg, -⟩ := hs.granularity hi
    exact ⟨_, by rw [hg]; rfl⟩
  · exact ⟨_, rfl⟩
  · exact ⟨_, rfl⟩

theorem toNat_add_one {a : Addr} (ha : a ≠ maxAddr) : (a + 1).toNat = a.toNat + 1 := by
  have hne : a.toNat ≠ 2 ^ 64 - 1 := fun h => ha (BitVec.eq_of_toNat_eq (by simpa [maxAddr] using h))
  have hlt : a.toNat + 1 < 2 ^ 64 := by
    have := a.isLt
    omega
  rw [BitVec.toNat_add, show (1 : Addr).toNat = 1 from rfl, Nat.mod_eq_of_lt hlt]

theorem isSubset_ofSize (hs : s.Proper) {a : Addr} (ha : a ≠ maxAddr) :
    (ofSize a 1).isSubset s = .ok (s.contains a) := by
  have hplain : (ofSize a 1).interleaved = false := rfl
  have hlast : (ofSize a 1).end_ - 1 = a := by simp [ofSize]
  rw [isSubset, hplain, if_neg Bool.false_ne_true, hlast, show (ofSize a 1).start = a from rfl,
    Bool.and_self]
  split_ifs with hi hc
  · obtain ⟨g, hg, hone⟩ := hs.granularity hi
    have hle : (ofSize a 1).size ≤ g := by
      have hsize : (ofSize a 1).size = 1#64 := by simp [ofSize, size]
      rw [hsize]
      exact BitVec.le_def.2 hone
    rw [hg, ok_bind, hc, decide_eq_true hle]
    rfl
  · rw [Bool.eq_false_of_not_eq_true hc]
  · have hm : s.masks = [] := interleaved_eq_false.1 (by simpa using hi)
    rw [hs.contains_plain hm]
    simp only [ofSize, inRange, ge_iff_le, BitVec.le_def, BitVec.lt_def, toNat_add_one ha,
      Nat.succ_le_iff, Bool.decide_and]

def meets (r s : AddrRange) : Bool := (r.intersects s).toOption.getD false

theorem meets_of_intersects {b : Bool} (h : r.intersects s = .ok b) : r.meets s = b := by
  rw [meets, h]
  rfl

theorem not_overlaps_iff : ¬r.Overlaps s ↔ r.start ≥ s.end_ ∨ r.end_ ≤ s.start := by
  simp only [Overlaps, BitVec.lt_def, BitVec.le_def, ge_iff_le]
  omega

theorem overlaps_of_mem {a : Addr} (hr : r.inRange a = true) (hs : s.inRange a = true) :
    r.Overlaps s := by
  rw [inRange_iff] at hr hs
  simp only [BitVec.le_def, BitVec.lt_def] at hr hs
  exact ⟨BitVec.lt_def.2 (by omega), BitVec.lt_def.2 (by omega)⟩

theorem Shares.overlaps : r.Shares s → r.Overlaps s
  | ⟨_, hr, hs⟩ => overlaps_of_mem (contains_iff.1 hr).1 (contains_iff.1 hs).1

theorem Shares.match_eq (hm : r.mergesWith s = true) : r.Shares s → r.intlvMatch = s.intlvMatch := by
  rintro ⟨a, hr, hs⟩
  have hrm := (contains_iff.1 hr).2
  have hsm := (contains_iff.1 hs).2
  rw [(mergesWith_iff.1 hm).2.2, hrm] at hsm
  exact BitVec.eq_of_toNat_eq hsm

theorem intersects_cases (h : r.Comparable s) :
    (¬r.Overlaps s ∧ r.intersects s = .ok false) ∨
    (r.Overlaps s ∧ r.masks = [] ∧ s.masks = [] ∧ r.intersects s = .ok true) ∨
    (r.Overlaps s ∧ r.mergesWith s = true ∧
      r.intersects s = .ok (r.intlvMatch == s.intlvMatch)) ∨
    (r.Shares s ∧ r.intersects s = .ok true) := by
  by_cases ho : r.Overlaps s
  · right
    have hin : ¬(r.start ≥ s.end_ ∨ r.end_ ≤ s.start) := fun hout => not_overlaps_iff.2 hout ho
    by_cases hplain : r.masks = [] ∧ s.masks = []
    · refine .inl ⟨ho, hplain.1, hplain.2, ?_⟩
      rw [intersects, if_neg hin, interleaved, interleaved, hplain.1, hplain.2]
      rfl
    · right
      have hi : ¬(!r.interleaved && !s.interleaved) = true := by
        rw [Bool.and_eq_true, Bool.not_eq_true', Bool.not_eq_true', interleaved_eq_false,
          interleaved_eq_false]
        exact hplain
      rw [intersects, if_neg hin, if_neg hi]
      rcases (h ho).resolve_left hplain with ⟨hm, hsize⟩ | ⟨hsize, hstart, hshare⟩
      · refine .inl ⟨ho, hm, ?_⟩
        split_ifs with h₁
        · rw [hsize h₁]
        · rfl
      · exact .inr ⟨hshare, by rw [if_pos hsize, hstart]⟩
  · exact .inl ⟨ho, by rw [intersects, if_pos (not_overlaps_iff.1 ho)]⟩

theorem intersects_eq (h : r.Comparable s) : r.intersects s = .ok (r.meets s) := by
  rcases intersects_cases h with ⟨-, hi⟩ | ⟨-, -, -, hi⟩ | ⟨-, -, hi⟩ | ⟨-, hi⟩
  all_goals rw [meets_of_intersects hi, hi]

theorem overlaps_of_meets (h : r.Comparable s) (hm : r.meets s = true) : r.Overlaps s := by
  rcases intersects_cases h with ⟨-, hi⟩ | ⟨ho, -⟩ | ⟨ho, -⟩ | ⟨hshare, -⟩
  · simp [meets_of_intersects hi] at hm
  · exact ho
  · exact ho
  · exact hshare.overlaps

theorem shares_of_plain (hr : r.Proper) (hs : s.Proper) (hrm : r.masks = []) (hsm : s.masks = [])
    (ho : r.Overlaps s) : r.Shares s := by
  have hrlt := BitVec.lt_def.1 hr.start_lt_end
  have hslt := BitVec.lt_def.1 hs.start_lt_end
  have ho₁ := BitVec.lt_def.1 ho.1
  have ho₂ := BitVec.lt_def.1 ho.2
  rcases le_total r.start.toNat s.start.toNat with hle | hle
  · refine ⟨s.start, ?_, ?_⟩
    · rw [hr.contains_plain hrm, inRange_iff, BitVec.le_def, BitVec.lt_def]
      exact ⟨hle, ho₂⟩
    · rw [hs.contains_plain hsm, inRange_iff, BitVec.le_def, BitVec.lt_def]
      exact ⟨le_rfl, hslt⟩
  · refine ⟨r.start, ?_, ?_⟩
    · rw [hr.contains_plain hrm, inRange_iff, BitVec.le_def, BitVec.lt_def]
      exact ⟨le_rfl, hrlt⟩
    · rw [hs.contains_plain hsm, inRange_iff, BitVec.le_def, BitVec.lt_def]
      exact ⟨hle, ho₁⟩

theorem Proper.of_plain (hm : r.masks = []) (h : ∃ a, r.contains a = true) : r.Proper :=
  ⟨h, fun hi => absurd hi (by rw [interleaved_eq_false.2 hm]; exact Bool.false_ne_true)⟩

theorem meets_iff (h : r.Comparable s) (hr : ∃ a, r.contains a = true)
    (hs : ∃ a, s.contains a = true) :
    r.meets s = true ↔ r.Shares s := by
  rcases intersects_cases h with ⟨ho, hi⟩ | ⟨ho, hrm, hsm, hi⟩ | ⟨ho, hm, hi⟩ | ⟨hshare, hi⟩
  · rw [meets_of_intersects hi]
    exact ⟨nofun, fun hshare => absurd hshare.overlaps ho⟩
  · rw [meets_of_intersects hi]
    exact ⟨fun _ => shares_of_plain (.of_plain hrm hr) (.of_plain hsm hs) hrm hsm ho, fun _ => rfl⟩
  · rw [meets_of_intersects hi, beq_iff_eq]
    refine ⟨fun hmatch => ?_, fun hshare => hshare.match_eq hm⟩
    obtain ⟨a, ha⟩ := hr
    have heq : s = r := by
      obtain ⟨h₁, h₂, h₃⟩ := mergesWith_iff.1 hm
      cases r
      cases s
      simp only at h₁ h₂ h₃ hmatch
      rw [h₁, h₂, h₃, hmatch]
    exact ⟨a, ha, heq ▸ ha⟩
  · rw [meets_of_intersects hi]
    exact ⟨fun _ => hshare, fun _ => rfl⟩

theorem key_eq_of_merges (hm : r.mergesWith s = true) (hmatch : r.intlvMatch = s.intlvMatch) :
    s.key = r.key := by
  obtain ⟨h₁, -, h₃⟩ := mergesWith_iff.1 hm
  rw [key, key, interleaved, interleaved, h₁, h₃, hmatch]

theorem meets_of_key_eq (hr : r.Proper) (hs : s.Proper) (h : r.Comparable s)
    (heq : r.key = s.key) : r.meets s = true := by
  rw [key, key, toLex_inj, Prod.mk.injEq] at heq
  have h₁ := BitVec.lt_def.1 hr.start_lt_end
  have h₂ := BitVec.lt_def.1 hs.start_lt_end
  rcases intersects_cases h with ⟨ho, -⟩ | ⟨-, -, -, hi⟩ | ⟨-, hm, hi⟩ | ⟨-, hi⟩
  · exact absurd ⟨BitVec.lt_def.2 (by omega), BitVec.lt_def.2 (by omega)⟩ ho
  · exact meets_of_intersects hi
  · rw [meets_of_intersects hi, beq_iff_eq]
    have hsi : s.interleaved = r.interleaved := by
      rw [interleaved, interleaved, (mergesWith_iff.1 hm).2.2]
    cases hri : r.interleaved with
    | false =>
      obtain ⟨a, ha⟩ := hr.nonempty
      obtain ⟨b, hb⟩ := hs.nonempty
      have hra := (contains_iff.1 ha).2
      have hsb := (contains_iff.1 hb).2
      rw [interleaved_eq_false.1 hri] at hra
      rw [interleaved_eq_false.1 (hsi.trans hri)] at hsb
      exact BitVec.eq_of_toNat_eq (hra.symm.trans hsb)
    | true =>
      rw [hsi, hri] at heq
      exact BitVec.eq_of_toNat_eq heq.2
  · exact meets_of_intersects hi

def Apart (r s : AddrRange) : Prop :=
  r.Overlaps s → r.mergesWith s = true ∧ r.intlvMatch ≠ s.intlvMatch

theorem Apart.symm (h : r.Apart s) : s.Apart r := by
  intro ho
  obtain ⟨hm, hne⟩ := h ⟨ho.2, ho.1⟩
  exact ⟨mergesWith_symm hm, hne.symm⟩

theorem Apart.not_shares (h : r.Apart s) : ¬r.Shares s := fun hshare =>
  (h hshare.overlaps).2 (hshare.match_eq (h hshare.overlaps).1)

theorem apart_of_not_meets (h : r.Comparable s) (hno : r.meets s = false) : r.Apart s := by
  intro ho
  rcases intersects_cases h with ⟨hn, -⟩ | ⟨-, -, -, hi⟩ | ⟨-, hm, hi⟩ | ⟨-, hi⟩
  · exact absurd ho hn
  · simp [meets_of_intersects hi] at hno
  · rw [meets_of_intersects hi] at hno
    exact ⟨hm, ne_of_beq_false hno⟩
  · simp [meets_of_intersects hi] at hno

theorem meets_of_between (hr : r.Proper) (hs : s.Proper) (ht : t.Proper) (hrs : r.Comparable s)
    (hrt : r.Comparable t) (hst : s.Apart t) (hlt : r.key < s.key) (hlt' : s.key < t.key)
    (hm : r.meets t = true) : r.meets s = true := by
  have ho := overlaps_of_meets hrt hm
  have h₁ := start_le_of_key_le hlt.le
  have h₂ := start_le_of_key_le hlt'.le
  have h₃ := BitVec.lt_def.1 ho.2
  have h₄ := BitVec.lt_def.1 hs.start_lt_end
  rcases intersects_cases hrs with ⟨hn, -⟩ | ⟨-, -, -, hi⟩ | ⟨-, hrm, -⟩ | ⟨-, hi⟩
  · exact absurd ⟨BitVec.lt_def.2 (by omega), BitVec.lt_def.2 (by omega)⟩ hn
  · exact meets_of_intersects hi
  · -- Then all three are parts of one range, and the outer two the same one.
    obtain ⟨hstart, hend, -⟩ := mergesWith_iff.1 hrm
    have hot : s.Overlaps t := by
      rwa [Overlaps, hstart, hend]
    have hrt' := mergesWith_of_common (mergesWith_symm hrm) (hst hot).1
    have hkey := key_eq_of_merges hrt' (((meets_iff hrt hr.nonempty ht.nonempty).1 hm).match_eq hrt')
    exact absurd (hlt.trans hlt') (by rw [hkey]; exact lt_irrefl _)
  · exact meets_of_intersects hi

end AddrRange

end Gem5.Base
