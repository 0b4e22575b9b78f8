import Mathlib

/-!
# Taking bits out of numbers

`drop k a` is `a` without its bit at position `k`: the bits above move down by one. It keeps the order
of two numbers whose highest differing bit is another one (`TopDiff`), and so does taking out several
bits, lowest first (`dropAll`). Parts of a set that fill it together have every place taken
(`surjOn_of_fibers`).
-/

namespace Interleave

/-- The number without its bit at position `k`. -/
def drop (k a : ℕ) : ℕ := 2 ^ k * (a / 2 ^ (k + 1)) + a % 2 ^ k

theorem testBit_drop (k a j : ℕ) :
    (drop k a).testBit j = if j < k then a.testBit j else a.testBit (j + 1) := by
  have hlt : a % 2 ^ k < 2 ^ k := Nat.mod_lt _ (Nat.two_pow_pos k)
  rw [drop, Nat.testBit_two_pow_mul_add _ hlt]
  split_ifs with hj
  · rw [Nat.testBit_mod_two_pow, decide_eq_true hj, Bool.true_and]
  · rw [Nat.testBit_div_two_pow]
    congr 1
    omega

/-- The high part of a number moves down, the low part loses the bit. -/
theorem drop_split {k n r : ℕ} (h : ℕ) (hk : k ≤ n) :
    drop k (2 ^ (n + 1) * h + r) = 2 ^ n * h + drop k r := by
  have hpow : 2 ^ (n + 1) = 2 ^ (k + 1) * 2 ^ (n - k) := by
    rw [← pow_add]
    congr 1
    omega
  have hpow' : 2 ^ n = 2 ^ k * 2 ^ (n - k) := by
    rw [← pow_add]
    congr 1
    omega
  have hdiv : (2 ^ (n + 1) * h + r) / 2 ^ (k + 1) = 2 ^ (n - k) * h + r / 2 ^ (k + 1) := by
    rw [hpow, Nat.mul_assoc, Nat.mul_add_div (Nat.two_pow_pos _)]
  have hmod : (2 ^ (n + 1) * h + r) % 2 ^ k = r % 2 ^ k := by
    rw [hpow, pow_succ, Nat.mul_assoc, Nat.mul_assoc, Nat.mul_add_mod]
  rw [drop, drop, hdiv, hmod, hpow', Nat.mul_add, Nat.mul_assoc, Nat.add_assoc]

theorem drop_lt {k n r : ℕ} (hr : r < 2 ^ (n + 1)) (hk : k ≤ n) : drop k r < 2 ^ n := by
  refine Nat.lt_pow_two_of_testBit _ fun j hj => ?_
  rw [testBit_drop, if_neg (by omega)]
  exact Nat.testBit_lt_two_pow (hr.trans_le (Nat.pow_le_pow_right (by decide) (by omega)))

/-- The highest bit where the two numbers differ, which makes the first one smaller. -/
structure TopDiff (a b t : ℕ) : Prop where
  low : a.testBit t = false
  high : b.testBit t = true
  above : ∀ j, t < j → a.testBit j = b.testBit j

namespace TopDiff

variable {a b t k : ℕ}

theorem lt (h : TopDiff a b t) : a < b := Nat.lt_of_testBit t h.low h.high h.above

theorem of_lt (h : a < b) : ∃ t, TopDiff a b t := by
  have hne : a ^^^ b ≠ 0 := fun h₀ => h.ne (Nat.xor_eq_zero_iff.1 h₀)
  obtain ⟨t, ht, habove⟩ := Nat.exists_most_significant_bit hne
  have hsame : ∀ j, t < j → a.testBit j = b.testBit j := by
    intro j hj
    have := habove j hj
    rwa [Nat.testBit_xor, bne_eq_false_iff_eq] at this
  rw [Nat.testBit_xor] at ht
  cases ha : a.testBit t with
  | false => exact ⟨t, ha, by simpa [ha] using ht, hsame⟩
  | true =>
    have hb : b.testBit t = false := by simpa [ha] using ht
    exact absurd (Nat.lt_of_testBit t hb ha fun j hj => (hsame j hj).symm) h.not_gt

/-- Taking out another bit leaves the highest differing bit, one lower if it was above. -/
theorem drop (h : TopDiff a b t) (hk : t ≠ k) :
    TopDiff (drop k a) (drop k b) (if t < k then t else t - 1) := by
  split_ifs with ht
  · refine ⟨?_, ?_, fun j hj => ?_⟩
    · rw [testBit_drop, if_pos ht, h.low]
    · rw [testBit_drop, if_pos ht, h.high]
    · rw [testBit_drop, testBit_drop, h.above j hj, h.above (j + 1) (by omega)]
  · have hpred : t - 1 + 1 = t := by omega
    refine ⟨?_, ?_, fun j hj => ?_⟩
    · rw [testBit_drop, if_neg (by omega), hpred, h.low]
    · rw [testBit_drop, if_neg (by omega), hpred, h.high]
    · rw [testBit_drop, testBit_drop, if_neg (by omega), if_neg (by omega), h.above (j + 1) (by omega)]

end TopDiff

/-- The number without the bits at the positions, given in increasing order. `i` bits were taken out
before. -/
def dropAll : ℕ → List ℕ → ℕ → ℕ
  | _, [], a => a
  | i, l :: ls, a => dropAll (i + 1) ls (drop (l - i) a)

/-- Two numbers whose highest differing bit stays keep their order. -/
theorem dropAll_lt : ∀ {ls : List ℕ} {i a b t : ℕ}, ls.Pairwise (· < ·) → (∀ l ∈ ls, i ≤ l) →
    TopDiff a b t → t + i ∉ ls → dropAll i ls a < dropAll i ls b
  | [], _, _, _, _, _, _, h, _ => h.lt
  | l :: ls, i, a, b, t, hs, hi, h, ht => by
    obtain ⟨hl, hs⟩ := List.pairwise_cons.1 hs
    rw [List.mem_cons, not_or] at ht
    have hil := hi l List.mem_cons_self
    rw [dropAll, dropAll]
    refine dropAll_lt hs (fun l' hl' => ?_) (h.drop (k := l - i) (by omega)) ?_
    · have := hl l' hl'
      omega
    · split_ifs with hlt
      · intro hmem
        have := hl _ hmem
        omega
      · have : t - 1 + (i + 1) = t + i := by omega
        rw [this]
        exact ht.2

theorem dropAll_zero : ∀ (ls : List ℕ) (i : ℕ), dropAll i ls 0 = 0
  | [], _ => rfl
  | l :: ls, i => by
    rw [dropAll, drop, Nat.zero_div, Nat.zero_mod]
    exact dropAll_zero ls (i + 1)

theorem dropAll_split : ∀ {ls : List ℕ} {i n r : ℕ} (h : ℕ), ls.Pairwise (· < ·) →
    (∀ l ∈ ls, i ≤ l ∧ l < n + i) → r < 2 ^ n →
    dropAll i ls (2 ^ n * h + r) = 2 ^ (n - ls.length) * h + dropAll i ls r
      ∧ dropAll i ls r < 2 ^ (n - ls.length)
  | [], _, _, _, _, _, _, hr => ⟨rfl, hr⟩
  | l :: ls, i, n, r, h, hs, hi, hr => by
    obtain ⟨hl, hs⟩ := List.pairwise_cons.1 hs
    obtain ⟨hil, hln⟩ := hi l List.mem_cons_self
    obtain ⟨n, rfl⟩ : ∃ m, n = m + 1 := ⟨n - 1, by omega⟩
    have hk : l - i ≤ n := by omega
    have hi' : ∀ l' ∈ ls, i + 1 ≤ l' ∧ l' < n + (i + 1) := by
      intro l' hl'
      have h₁ := hl l' hl'
      have h₂ := (hi l' (List.mem_cons_of_mem _ hl')).2
      omega
    have hlen : n + 1 - (l :: ls).length = n - ls.length := by
      rw [List.length_cons]
      omega
    rw [dropAll, dropAll, drop_split h hk, hlen]
    exact dropAll_split h hs hi' (drop_lt hr hk)

theorem surjOn_of_fibers {α : Type*} (A : Finset α) (sel f : α → ℕ) {k s : ℕ} (hcard : A.card = k * s)
    (hsel : ∀ a ∈ A, sel a < k) (hf : ∀ a ∈ A, f a < s)
    (hinj : ∀ a ∈ A, ∀ b ∈ A, sel a = sel b → f a = f b → a = b) {m o : ℕ} (hm : m < k) (ho : o < s) :
    ∃ a ∈ A, sel a = m ∧ f a = o := by
  classical
  have hle : ∀ i ∈ Finset.range k, (A.filter fun a => sel a = i).card ≤ s := by
    intro i _
    have himage : ((A.filter fun a => sel a = i).image f).card = (A.filter fun a => sel a = i).card := by
      refine Finset.card_image_of_injOn fun a ha b hb hab => ?_
      obtain ⟨ha, hai⟩ := Finset.mem_filter.1 ha
      obtain ⟨hb, hbi⟩ := Finset.mem_filter.1 hb
      exact hinj a ha b hb (hai.trans hbi.symm) hab
    rw [← himage, ← Finset.card_range s]
    refine Finset.card_le_card fun x hx => ?_
    obtain ⟨a, ha, rfl⟩ := Finset.mem_image.1 hx
    exact Finset.mem_range.2 (hf a (Finset.mem_filter.1 ha).1)
  have hsum : ∑ i ∈ Finset.range k, (A.filter fun a => sel a = i).card = ∑ _i ∈ Finset.range k, s := by
    rw [← Finset.card_eq_sum_card_fiberwise (fun a ha => Finset.mem_range.2 (hsel a ha)), hcard,
      Finset.sum_const, Finset.card_range, smul_eq_mul]
  have heq := (Finset.sum_eq_sum_iff_of_le hle).1 hsum m (Finset.mem_range.2 hm)
  have hfull : (A.filter fun a => sel a = m).image f = Finset.range s := by
    refine Finset.eq_of_subset_of_card_le (fun x hx => ?_) ?_
    · obtain ⟨a, ha, rfl⟩ := Finset.mem_image.1 hx
      exact Finset.mem_range.2 (hf a (Finset.mem_filter.1 ha).1)
    · rw [Finset.card_range, Finset.card_image_of_injOn, heq]
      intro a ha b hb hab
      obtain ⟨ha, hai⟩ := Finset.mem_filter.1 ha
      obtain ⟨hb, hbi⟩ := Finset.mem_filter.1 hb
      exact hinj a ha b hb (hai.trans hbi.symm) hab
  have hmem : o ∈ (A.filter fun a => sel a = m).image f := by
    rw [hfull]
    exact Finset.mem_range.2 ho
  obtain ⟨a, ha, rfl⟩ := Finset.mem_image.1 hmem
  obtain ⟨ha, ham⟩ := Finset.mem_filter.1 ha
  exact ⟨a, ha, ham, rfl⟩

end Interleave
