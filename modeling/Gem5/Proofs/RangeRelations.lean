import Gem5.Proofs.RangeOverlap

/-!
# What `isSubset` and `intersects` decide

No mask has a bit below the granularity, so all addresses of a region of that size are selected
alike. A plain range that is larger than that is never found to be a subset. Of an argument of size 1
only the first address is looked at, which an interleaved range need not have.
-/

namespace Gem5.Base

open Machine

namespace AddrRange

variable {x y : AddrRange} {a b : Addr} {l k : ℕ}

theorem getLsbD_foldl : ∀ (masks : List Addr) (c : BitVec 32), k < 32 →
    (masks.foldl (fun c mask => (c.signExtend 64 ||| mask).setWidth 32) c).getLsbD k
      = (c.getLsbD k || masks.any (·.getLsbD k))
  | [], c, _ => by simp
  | mask :: masks, c, hk => by
    rw [List.foldl_cons, getLsbD_foldl masks _ hk, List.any_cons, ← Bool.or_assoc]
    congr 1
    simp only [BitVec.getLsbD_setWidth, BitVec.getLsbD_or, BitVec.getLsbD_signExtend, hk, if_true,
      decide_true, Bool.true_and, show k < 64 by omega]

theorem granularity_spec {g : Addr} (hi : y.interleaved = true) (h : y.granularity = .ok g) :
    ∃ l < 32, g.toNat = 2 ^ l ∧ ∀ m ∈ y.masks, ∀ k < l, m.getLsbD k = false := by
  rw [granularity, if_pos hi] at h
  dsimp only at h
  split_ifs at h with hl
  cases h
  have hne : y.combinedMask.signExtend 64 ≠ 0 := fun h₀ => by
    rw [h₀] at hl
    exact absurd hl (by decide)
  have htop := getLsbD_ctz64 hne
  have hlt : ctz64 (y.combinedMask.signExtend 64) < 32 := by
    by_contra hge
    -- the bits from 32 on are copies of bit 31, which would be lower
    have hlow := getLsbD_lt_ctz64 hne (show 31 < _ by omega)
    rw [BitVec.getLsbD_signExtend, if_neg (by omega), BitVec.msb_eq_getLsbD_last] at htop
    rw [BitVec.getLsbD_signExtend, if_pos (by omega)] at hlow
    simp_all
  refine ⟨_, hlt, ?_, fun m hm k hk => ?_⟩
  · rw [BitVec.toNat_shiftLeft, show (1#64).toNat = 1 from rfl, Nat.shiftLeft_eq, one_mul]
    exact Nat.mod_eq_of_lt (Nat.pow_lt_pow_right (by decide) hl)
  · have hlow := getLsbD_lt_ctz64 hne hk
    rw [BitVec.getLsbD_signExtend, if_pos (by omega), combinedMask, getLsbD_foldl _ _ (by omega)]
      at hlow
    simp only [Bool.and_eq_false_imp, Bool.or_eq_false_iff, List.any_eq_false] at hlow
    simpa using (hlow (by simpa using by omega)).2 m hm

theorem sel_eq_of_region (h : a.toNat / 2 ^ l = b.toNat / 2 ^ l) : ∀ (masks : List Addr) (i : ℕ),
    (∀ m ∈ masks, ∀ k < l, m.getLsbD k = false) → sel a i masks = sel b i masks
  | [], i, _ => rfl
  | mask :: masks, i, hm => by
    have hand : a &&& mask = b &&& mask := by
      refine BitVec.eq_of_getLsbD_eq fun k hk => ?_
      rw [BitVec.getLsbD_and, BitVec.getLsbD_and]
      by_cases hkl : k < l
      · rw [hm mask List.mem_cons_self k hkl, Bool.and_false, Bool.and_false]
      · have hbit := congrArg (·.testBit (k - l)) h
        simp only [Nat.testBit_div_two_pow, Nat.sub_add_cancel (not_lt.1 hkl)] at hbit
        rw [← BitVec.testBit_toNat, hbit, BitVec.testBit_toNat]
    rw [sel, sel, hand, sel_eq_of_region h masks (i + 1) fun m h => hm m (List.mem_cons_of_mem _ h)]

def Within (x y : AddrRange) : Prop := ∀ a, x.contains a = true → y.contains a = true

theorem within_of_regions (hs : y.contains x.start = true) (he : y.contains (x.end_ - 1) = true)
    (hlt : x.start < x.end_) (hle : x.end_.toNat - x.start.toNat ≤ 2 ^ l)
    (hm : ∀ m ∈ y.masks, ∀ k < l, m.getLsbD k = false) : x.Within y := by
  intro a ha
  rw [contains_iff, inRange_iff] at hs he ha ⊢
  obtain ⟨⟨hs₁, -⟩, hs₂⟩ := hs
  obtain ⟨⟨-, he₁⟩, he₂⟩ := he
  obtain ⟨⟨ha₁, ha₂⟩, -⟩ := ha
  have hlast : (x.end_ - 1).toNat = x.end_.toNat - 1 := by
    rw [BitVec.lt_def] at hlt
    bv_omega
  simp only [BitVec.le_def, BitVec.lt_def, hlast] at hs₁ he₁ ha₁ ha₂ hlt ⊢
  refine ⟨⟨by omega, by omega⟩, ?_⟩
  have h₁ := Nat.div_le_div_right (c := 2 ^ l) ha₁
  have h₂ := Nat.div_le_div_right (c := 2 ^ l) (show a.toNat ≤ x.end_.toNat - 1 by omega)
  have h₃ : (x.end_.toNat - 1) / 2 ^ l ≤ x.start.toNat / 2 ^ l + 1 := by
    rw [← Nat.add_div_right _ (Nat.two_pow_pos l)]
    exact Nat.div_le_div_right (by omega)
  rcases Nat.lt_or_ge (x.start.toNat / 2 ^ l) (a.toNat / 2 ^ l) with h | h
  · rwa [sel_eq_of_region (b := x.end_ - 1) (by rw [hlast]; omega) y.masks 0 hm]
  · rwa [sel_eq_of_region (b := x.start) (by omega) y.masks 0 hm]

theorem isSubset_iff (hx : ∃ a, x.contains a = true) (hy : ∃ a, y.contains a = true) {c : Bool}
    (h : x.isSubset y = .ok c) : (c = true ↔ x.Within y) ↔
      (y.interleaved = true → x.Within y → ∃ g, y.granularity = .ok g ∧ x.size ≤ g) := by
  unfold isSubset at h
  split_ifs at h with hi hyi hc
  · have hxm : x.masks = [] := interleaved_eq_false.1 (by simpa using hi)
    have hxp := Proper.of_plain hxm hx
    rw [Bool.and_eq_true] at hc
    obtain ⟨g, hg, rfl⟩ := bind_pure_ok.1 h
    have hsize : x.size.toNat = x.end_.toNat - x.start.toNat := by
      have := BitVec.lt_def.1 hxp.start_lt_end
      simp only [size, hxm, List.length_nil, BitVec.ushiftRight_zero]
      bv_omega
    have hwithin : x.size ≤ g → x.Within y := fun hle => by
      obtain ⟨l, -, hgl, hm⟩ := granularity_spec hyi hg
      rw [BitVec.le_def, hsize, hgl] at hle
      exact within_of_regions hc.1 hc.2 hxp.start_lt_end hle hm
    simp only [decide_eq_true_eq, hyi, true_implies, hg, Except.ok.injEq, exists_eq_left']
    exact ⟨fun h => h.2, fun h => ⟨hwithin, h⟩⟩
  · have hxm : x.masks = [] := interleaved_eq_false.1 (by simpa using hi)
    have hxp := Proper.of_plain hxm hx
    have hlt := BitVec.lt_def.1 hxp.start_lt_end
    cases h
    have hout : ¬x.Within y := fun hw => hc (by
      rw [hw, hw]
      · rfl
      · rw [hxp.contains_plain hxm, inRange_iff]
        bv_omega
      · rw [hxp.contains_plain hxm, inRange_iff]
        bv_omega)
    simp [hout]
  · have hxm : x.masks = [] := interleaved_eq_false.1 (by simpa using hi)
    have hym : y.masks = [] := interleaved_eq_false.1 (by simpa using hyi)
    have hxp := Proper.of_plain hxm hx
    have hyp := Proper.of_plain hym hy
    have hlt := BitVec.lt_def.1 hxp.start_lt_end
    cases h
    simp only [hyi, Bool.false_eq_true, false_implies, iff_true, Within, hxp.contains_plain hxm,
      hyp.contains_plain hym, inRange_iff, Bool.and_eq_true, decide_eq_true_eq, ge_iff_le]
    refine ⟨fun h a ha => by bv_omega, fun h => ?_⟩
    have h₁ := h x.start (by bv_omega)
    have h₂ := h (x.end_ - 1) (by bv_omega)
    bv_omega

theorem shares_of_single (hy : ∃ a, y.contains a = true) (hm : y.masks = []) (hs : y.size = 1) :
    x.Shares y ↔ x.contains y.start = true := by
  have hyp := Proper.of_plain hm hy
  have hlt := hyp.start_lt_end
  simp only [size, hm, List.length_nil, BitVec.ushiftRight_zero] at hs
  constructor
  · rintro ⟨a, hxa, hya⟩
    rw [hyp.contains_plain hm, inRange_iff] at hya
    obtain rfl : a = y.start := by bv_omega
    exact hxa
  · refine fun hx => ⟨y.start, hx, ?_⟩
    rw [hyp.contains_plain hm, inRange_iff]
    exact ⟨BitVec.le_refl _, hlt⟩

theorem intersects_iff (hx : ∃ a, x.contains a = true) (hy : ∃ a, y.contains a = true) {c : Bool}
    (h : x.intersects y = .ok c) : (c = true ↔ x.Shares y) ↔
      (y.interleaved = true → x.Overlaps y → y.size = 1 →
        (x.contains y.start = true ↔ x.Shares y)) := by
  have comparable : x.Comparable y → (c = true ↔ x.Shares y) := fun hc => by
    rw [← meets_of_intersects h]
    exact meets_iff hc hx hy
  by_cases hone : y.interleaved = true ∧ x.Overlaps y ∧ y.size = 1
  · obtain ⟨hyi, ho, hs⟩ := hone
    rw [intersects, if_neg fun hout => not_overlaps_iff.2 hout ho, if_neg (by simp [hyi]),
      if_pos hs] at h
    cases h
    simp [hyi, ho, hs]
  · have hright : c = true ↔ x.Shares y := by
      by_cases ho : x.Overlaps y
      · rw [intersects, if_neg fun hout => not_overlaps_iff.2 hout ho] at h
        split_ifs at h with hplain hsize hm
        · refine comparable fun _ => .inl ?_
          simpa [interleaved_eq_false] using hplain
        · have hym : y.masks = [] := interleaved_eq_false.1 (by simpa [ho, hsize] using hone)
          cases h
          exact (shares_of_single hy hym hsize).symm
        · exact comparable fun _ => .inr (.inl ⟨hm, fun h => absurd h hsize⟩)
      · exact comparable fun h => absurd h ho
    exact ⟨fun _ hyi ho hs => absurd ⟨hyi, ho, hs⟩ hone, fun _ => hright⟩

end AddrRange

end Gem5.Base
