import Mathlib

/-!
# An interval cut at the multiples of a number

The `n` numbers from `a` on, cut at the multiples of `c`: each piece is given by its first number and
its length. The pieces are not empty, follow each other without a gap and cover the interval.
-/

namespace Pieces

variable {c a n : ℕ}

def first (c a n : ℕ) : ℕ := min (c - a % c) n

def piecesFuel (c : ℕ) : ℕ → ℕ → ℕ → List (ℕ × ℕ)
  | 0, _, _ => []
  | fuel + 1, a, n =>
    if n = 0 then [] else (a, first c a n) :: piecesFuel c fuel (a + first c a n) (n - first c a n)

/-- Every piece has a length, so `n` pieces are enough. -/
def pieces (c a n : ℕ) : List (ℕ × ℕ) := piecesFuel c n a n

theorem first_pos (hc : 0 < c) (hn : 0 < n) : 0 < first c a n := by
  have := Nat.mod_lt a hc
  simp only [first, lt_min_iff]
  omega

theorem first_le : first c a n ≤ n := min_le_right _ _

/-- A piece that is not the last one ends at a multiple. -/
theorem first_aligned (hc : 0 < c) (h : first c a n < n) : (a + first c a n) % c = 0 := by
  have hr := Nat.mod_lt a hc
  have hdiv := Nat.div_add_mod a c
  have hfirst : first c a n = c - a % c := by
    rw [first] at h ⊢
    omega
  rw [hfirst, show a + (c - a % c) = c * (a / c) + c by omega, Nat.add_mod_right, Nat.mul_mod_right]

theorem first_of_aligned (h : a % c = 0) : first c a n = min n c := by
  rw [first, h, Nat.sub_zero, Nat.min_comm]

theorem piecesFuel_zero : ∀ fuel, piecesFuel c fuel a 0 = []
  | 0 => rfl
  | _ + 1 => rfl

theorem piecesFuel_congr (hc : 0 < c) : ∀ {fuel fuel' a n : ℕ}, n ≤ fuel → n ≤ fuel' →
    piecesFuel c fuel a n = piecesFuel c fuel' a n := by
  intro fuel
  induction fuel with
  | zero =>
    intro fuel' a n hn _
    obtain rfl : n = 0 := by omega
    rw [piecesFuel_zero, piecesFuel_zero]
  | succ fuel ih =>
    intro fuel' a n hn hn'
    rcases n.eq_zero_or_pos with rfl | hpos
    · rw [piecesFuel_zero, piecesFuel_zero]
    · have hfirst : 0 < first c a n := first_pos hc hpos
      obtain ⟨fuel', rfl⟩ : ∃ k, fuel' = k + 1 := ⟨fuel' - 1, by omega⟩
      simp only [piecesFuel, hpos.ne', if_false]
      rw [@ih fuel' _ _ (by omega) (by omega)]

@[simp] theorem pieces_zero : pieces c a 0 = [] := rfl

theorem pieces_eq (hc : 0 < c) (hn : 0 < n) :
    pieces c a n = (a, first c a n) :: pieces c (a + first c a n) (n - first c a n) := by
  have hfirst : 0 < first c a n := first_pos hc hn
  obtain ⟨m, rfl⟩ : ∃ m, n = m + 1 := ⟨n - 1, by omega⟩
  simp only [pieces, piecesFuel, m.succ_ne_zero, if_false]
  rw [piecesFuel_congr hc (show m + 1 - first c a (m + 1) ≤ m by omega) le_rfl]

theorem pieces_induction (hc : 0 < c) {P : ℕ → ℕ → Prop} (zero : ∀ a, P a 0)
    (step : ∀ a n, 0 < n → P (a + first c a n) (n - first c a n) → P a n) : ∀ a n, P a n := by
  intro a n
  induction n using Nat.strong_induction_on generalizing a with
  | _ n ih =>
    rcases n.eq_zero_or_pos with rfl | hpos
    · exact zero a
    · have := first_pos (a := a) hc hpos
      exact step a n hpos (ih _ (by omega) _)

theorem sum_pieces (hc : 0 < c) (a n : ℕ) : ((pieces c a n).map Prod.snd).sum = n := by
  induction a, n using pieces_induction hc with
  | zero a => rfl
  | step a n hn ih =>
    have := first_le (c := c) (a := a) (n := n)
    rw [pieces_eq hc hn, List.map_cons, List.sum_cons, ih]
    omega

theorem pos_of_mem_pieces (hc : 0 < c) (a n : ℕ) : ∀ p ∈ pieces c a n, 0 < p.2 := by
  induction a, n using pieces_induction hc with
  | zero a => simp
  | step a n hn ih =>
    rw [pieces_eq hc hn, List.forall_mem_cons]
    exact ⟨first_pos hc hn, ih⟩

/-- The intervals follow each other without a gap and are together the `n` numbers from `a` on. -/
def Tiles : ℕ → ℕ → List (ℕ × ℕ) → Prop
  | _, n, [] => n = 0
  | a, n, p :: ps => p.1 = a ∧ 0 < p.2 ∧ p.2 ≤ n ∧ Tiles (a + p.2) (n - p.2) ps

instance Tiles.dec : ∀ (a n : ℕ) (ps : List (ℕ × ℕ)), Decidable (Tiles a n ps)
  | _, n, [] => inferInstanceAs (Decidable (n = 0))
  | a, n, p :: ps =>
    have := Tiles.dec (a + p.2) (n - p.2) ps
    inferInstanceAs (Decidable (p.1 = a ∧ 0 < p.2 ∧ p.2 ≤ n ∧ Tiles (a + p.2) (n - p.2) ps))

theorem tiles_pieces (hc : 0 < c) (a n : ℕ) : Tiles a n (pieces c a n) := by
  induction a, n using pieces_induction hc with
  | zero a => exact rfl
  | step a n hn ih =>
    rw [pieces_eq hc hn]
    exact ⟨rfl, first_pos hc hn, first_le, ih⟩

/-- The first and the last number of a piece have the same quotient. -/
theorem first_within (hc : 0 < c) (hn : 0 < n) : a / c = (a + first c a n - 1) / c := by
  have hr := Nat.mod_lt a hc
  have hdiv := Nat.div_add_mod a c
  have hle : first c a n ≤ c - a % c := min_le_left _ _
  have hpos := first_pos (a := a) hc hn
  have he : a + first c a n - 1 = c * (a / c) + (a % c + first c a n - 1) := by omega
  rw [he, Nat.mul_add_div hc, Nat.div_eq_of_lt (show a % c + first c a n - 1 < c by omega),
    Nat.add_zero]

theorem within_of_mem_pieces (hc : 0 < c) (a n : ℕ) :
    ∀ p ∈ pieces c a n, p.1 / c = (p.1 + p.2 - 1) / c := by
  induction a, n using pieces_induction hc with
  | zero a => simp
  | step a n hn ih =>
    rw [pieces_eq hc hn, List.forall_mem_cons]
    exact ⟨first_within hc hn, ih⟩

theorem le_of_mem_pieces (hc : 0 < c) (a n : ℕ) : ∀ p ∈ pieces c a n, a ≤ p.1 := by
  induction a, n using pieces_induction hc with
  | zero a => simp
  | step a n hn ih =>
    rw [pieces_eq hc hn, List.forall_mem_cons]
    exact ⟨le_rfl, fun p hp => (Nat.le_add_right _ _).trans (ih p hp)⟩

end Pieces
