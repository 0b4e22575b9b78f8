import Gem5.TreePlru

/-!
# What tree-PLRU does not evict

The victim is the leaf that every node above it points to. A touch turns all nodes above its leaf
away from it, and of those above another leaf it turns at most one to that leaf: the one where the
two ways part. So a leaf outlives fewer touches than the tree has levels.
-/

namespace Gem5

open List

namespace TreePlru

variable {t t' : List Bool} {i j m n : ℕ}

/-- The node is on level `n`, the root being on level 0. -/
def Level (n i : ℕ) : Prop := 2 ^ n ≤ i + 1 ∧ i + 1 < 2 ^ (n + 1)

/-- How many nodes above `i` point to it. -/
def toward (t : List Bool) (i : ℕ) : ℕ :=
  if i = 0 then 0
  else (if t[parentIndex i]? = some (isRightSubtree i) then 1 else 0) + toward t (parentIndex i)
termination_by i
decreasing_by simp only [parentIndex]; omega

theorem Level.eq_zero (h : Level 0 i) : i = 0 := by
  simp only [Level] at h
  omega

theorem Level.parent (h : Level (n + 1) i) : i ≠ 0 ∧ Level n (parentIndex i) := by
  have hpos := Nat.two_pow_pos n
  simp only [Level, parentIndex, pow_succ] at *
  omega

theorem Level.unique (h : Level m i) (h' : Level n i) : m = n := by
  have hm := (Nat.pow_lt_pow_iff_right (by omega)).1 (h.1.trans_lt h'.2)
  have hn := (Nat.pow_lt_pow_iff_right (by omega)).1 (h'.1.trans_lt h.2)
  omega

theorem toward_zero : toward t 0 = 0 := by rw [toward, if_pos rfl]

theorem toward_of_ne (h : i ≠ 0) : toward t i =
    (if t[parentIndex i]? = some (isRightSubtree i) then 1 else 0) + toward t (parentIndex i) := by
  rw [toward, if_neg h]

/-- Only nodes on the levels above are written. -/
theorem update_get (bit : Bool → Bool) (hi : Level n i) (hj : 2 ^ n ≤ j + 1) :
    (update bit t i)[j]? = t[j]? := by
  induction n generalizing t i with
  | zero => rw [update, if_pos hi.eq_zero]
  | succ n ih =>
    obtain ⟨h0, hp⟩ := hi.parent
    have hlt := hp.2
    rw [update, if_neg h0, ih hp (by rw [pow_succ] at hj; omega), getElem?_set_ne (by omega)]

/-- Only nodes on the levels above are looked at. -/
theorem toward_congr (hi : Level n i) (h : ∀ j, j + 1 < 2 ^ n → t[j]? = t'[j]?) :
    toward t i = toward t' i := by
  induction n generalizing i with
  | zero => rw [hi.eq_zero, toward_zero, toward_zero]
  | succ n ih =>
    obtain ⟨h0, hp⟩ := hi.parent
    rw [toward_of_ne h0, toward_of_ne h0, h _ hp.2,
      ih hp fun j hj => h j (by rw [pow_succ]; omega)]

theorem toward_touch_self (hi : Level n i) : toward (update not t i) i = 0 := by
  induction n generalizing t i with
  | zero => rw [hi.eq_zero, toward_zero]
  | succ n ih =>
    obtain ⟨h0, hp⟩ := hi.parent
    rw [update, if_neg h0, toward_of_ne h0, ih hp, update_get not hp hp.1,
      getElem?_set_self', if_neg]
    cases t[parentIndex i]? <;> simp

theorem toward_touch_le (hi : Level n i) (hj : Level n j) :
    toward (update not t j) i ≤ toward t i + 1 := by
  induction n generalizing t i j with
  | zero =>
    rw [hi.eq_zero, toward_zero]
    omega
  | succ n ih =>
    obtain ⟨hi0, hpi⟩ := hi.parent
    obtain ⟨hj0, hpj⟩ := hj.parent
    rw [update, if_neg hj0, toward_of_ne hi0, toward_of_ne hi0]
    by_cases hp : parentIndex i = parentIndex j
    · rw [hp, toward_touch_self hpj]
      split_ifs <;> omega
    · have hle := ih (t := t.set (parentIndex j) (not (isRightSubtree j))) hpi hpj
      rw [toward_congr hpi fun k hk => getElem?_set_ne (by have := hpj.1; omega)] at hle
      rw [update_get not hpj hpi.1, getElem?_set_ne (Ne.symm hp)]
      omega

theorem Level.child (hi : Level n i) (h : toward t i = n) (hlt : i < t.length)
    (hj : j = 2 * i + 1 + (t.getD i false).toNat) : Level (n + 1) j ∧ toward t j = n + 1 := by
  have hb := Bool.toNat_lt (t.getD i false)
  have hp : parentIndex j = i := by
    unfold parentIndex
    omega
  have hr : isRightSubtree j = t.getD i false := by
    rw [hj, isRightSubtree]
    cases t.getD i false <;> simp
    omega
  constructor
  · simp only [Level, pow_succ] at *
    omega
  · rw [toward_of_ne (by omega), hp, hr, h, if_pos, Nat.add_comm]
    rw [getElem?_eq_getElem hlt, getD_eq_getElem _ _ hlt]

theorem walk_spec (hi : Level n i) (h : toward t i = n) (hle : i ≤ 2 * t.length) :
    ∃ m, Level m (walk t i) ∧ toward t (walk t i) = m ∧ t.length ≤ walk t i
      ∧ walk t i ≤ 2 * t.length := by
  fun_induction walk t i generalizing n with
  | case1 i hlt hb ih =>
    obtain ⟨hc, hn⟩ := hi.child h hlt (by rw [hb])
    exact ih hc hn (by unfold rightSubtreeIndex; omega)
  | case2 i hlt hb ih =>
    obtain ⟨hc, hn⟩ := hi.child h hlt (by rw [eq_false_of_ne_true hb])
    exact ih hc hn (by unfold leftSubtreeIndex; omega)
  | case3 i hge => exact ⟨n, hi, h, by omega, hle⟩

variable (p : TreePlru) {a : ℕ}

/-- Every node above the victim points to it. -/
theorem toward_getVictim :
    p.getVictim < p.numLeaves ∧ toward p.tree (p.index p.getVictim) = p.levels := by
  have hpos := Nat.two_pow_pos p.levels
  obtain ⟨m, hm, hcount, hge, hle⟩ :=
    walk_spec (n := 0) (by simp [Level]) (toward_zero (t := p.tree)) (by omega)
  rw [p.length_tree] at hge hle
  have hlevel : Level p.levels (walk p.tree 0) := by
    simp only [Level, pow_succ]
    omega
  have hindex : p.index p.getVictim = walk p.tree 0 := by
    simp only [index, getVictim, numLeaves]
    omega
  rw [hindex, hcount, hm.unique hlevel]
  refine ⟨?_, rfl⟩
  simp only [getVictim, numLeaves]
  omega

theorem level_index (ha : a < p.numLeaves) : Level p.levels (p.index a) := by
  have hpos := Nat.two_pow_pos p.levels
  simp only [Level, index, numLeaves, pow_succ] at *
  omega

theorem toward_run (ls : List ℕ) (hls : ∀ b ∈ ls, b < p.numLeaves) (hi : Level p.levels i) :
    (ls.foldl touch p).levels = p.levels
      ∧ toward (ls.foldl touch p).tree i ≤ toward p.tree i + ls.length := by
  induction ls generalizing p with
  | nil => exact ⟨rfl, le_rfl⟩
  | cons b ls ih =>
    obtain ⟨hb, hls⟩ := forall_mem_cons.1 hls
    obtain ⟨hlevels, hrun⟩ := ih (p.touch b) hls hi
    have hstep : toward (p.touch b).tree i ≤ _ := toward_touch_le hi (p.level_index hb)
    refine ⟨hlevels, ?_⟩
    rw [foldl_cons, length_cons]
    omega

/-- A leaf is not the victim before as many touches as there are levels have followed its own,
whatever the tree was. -/
theorem getVictim_ne_of_touch (ha : a < p.numLeaves) (ls : List ℕ)
    (hls : ∀ b ∈ ls, b < p.numLeaves) (hlen : ls.length < p.levels) :
    (ls.foldl touch (p.touch a)).getVictim ≠ a := by
  have hi := p.level_index ha
  have hself : toward (p.touch a).tree (p.index a) = 0 := toward_touch_self hi
  obtain ⟨hlevels, hle⟩ := toward_run (p.touch a) ls hls hi
  obtain ⟨-, hv⟩ := toward_getVictim (ls.foldl touch (p.touch a))
  intro h
  rw [h, index, numLeaves, hlevels] at hv
  rw [hself, Nat.zero_add] at hle
  exact (hv.symm.trans_le hle).not_gt hlen

theorem getVictim_ne_of_touch_eight :
    ([6, 3].foldl touch ((instantiate 2).touch 5)).getVictim ≠ 5 :=
  getVictim_ne_of_touch (instantiate 2) (by decide) [6, 3] (by decide) (by decide)

theorem toward_le (hi : Level n i) : toward t i ≤ n := by
  induction n generalizing i with
  | zero => rw [hi.eq_zero, toward_zero]
  | succ n ih =>
    obtain ⟨h0, hp⟩ := hi.parent
    have := ih hp
    rw [toward_of_ne h0]
    split_ifs <;> omega

/-- Where the ways to two leaves part, the node points to the one that was invalidated. -/
theorem toward_invalidate_lt (hi : Level n i) (hj : Level n j) (hne : i ≠ j) :
    toward (update id t j) i < n := by
  induction n generalizing t i j with
  | zero => exact absurd (hi.eq_zero.trans hj.eq_zero.symm) hne
  | succ n ih =>
    obtain ⟨hi0, hpi⟩ := hi.parent
    obtain ⟨hj0, hpj⟩ := hj.parent
    rw [update, if_neg hj0, toward_of_ne hi0]
    by_cases hp : parentIndex i = parentIndex j
    · have hle := toward_le (t := update id (t.set (parentIndex j) (isRightSubtree j))
        (parentIndex j)) hpj
      have hside : isRightSubtree j ≠ isRightSubtree i := by
        simp only [isRightSubtree, parentIndex] at *
        intro h
        rw [Bool.eq_iff_iff, beq_iff_eq, beq_iff_eq] at h
        omega
      rw [hp, update_get id hpj hpj.1, getElem?_set_self', if_neg]
      · exact Nat.lt_succ_of_le (by simpa using hle)
      · cases t[parentIndex j]? <;> simp [hside]
    · have hlt := ih (t := t.set (parentIndex j) (isRightSubtree j)) hpi hpj hp
      simp only [id] at *
      split_ifs <;> omega

/-- An invalidated leaf is the next victim, whatever the tree was. -/
theorem getVictim_invalidate (ha : a < p.numLeaves) : (p.invalidate a).getVictim = a := by
  obtain ⟨hlt, hv⟩ := toward_getVictim (p.invalidate a)
  by_contra hne
  refine (toward_invalidate_lt (t := p.tree) (p.level_index hlt) (p.level_index ha) ?_).ne hv
  have hpos := Nat.two_pow_pos p.levels
  simp only [index, numLeaves]
  omega

theorem getVictim_invalidate_eight : ((instantiate 2).invalidate 5).getVictim = 5 :=
  getVictim_invalidate (instantiate 2) (by decide)

end TreePlru

end Gem5
