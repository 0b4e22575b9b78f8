import Mathlib

/-!
# Going around a ring

A walk around a ring of `len` slots is at slot `k % len` at its `k`-th step. A stretch of the walk
that stays inside one lap is a stretch of consecutive slots, and the slot after it is the next one,
or the first of the ring where the stretch ends at its end.
-/

namespace Laps

variable {len n k : ℕ}

theorem add_mod_of_lt (h : n % len + k < len) : (n + k) % len = n % len + k := by
  rw [Nat.add_mod, Nat.mod_eq_of_lt (show k < len by omega), Nat.mod_eq_of_lt h]

theorem add_mod_of_eq (hlen : 0 < len) (h : n % len + k = len) : (n + k) % len = 0 := by
  rcases Nat.lt_or_ge k len with hk | hk
  · rw [Nat.add_mod, Nat.mod_eq_of_lt hk, h, Nat.mod_self]
  · have hk' : k = len := by omega
    subst hk'
    rw [Nat.add_mod_right]
    omega

/-- The first `n` steps of a walk: their numbers, each with what `f` has at the slot. -/
def walk {α : Type*} (len : ℕ) (f : ℕ → α) (n : ℕ) : List (ℕ × α) :=
  (List.range n).map fun k => (k, f (k % len))

variable {α : Type*} {f : ℕ → α}

@[simp] theorem walk_zero : walk len f 0 = [] := rfl

@[simp] theorem length_walk : (walk len f n).length = n := by simp [walk]

theorem getElem?_walk (h : k < n) : (walk len f n)[k]? = some (k, f (k % len)) := by
  simp [walk, h]

/-- A walk goes on, inside its lap, through consecutive slots. -/
theorem walk_add (h : n % len + k ≤ len) :
    walk len f (n + k) = walk len f n
      ++ (List.range k).map fun x => (n + x, f (n % len + x)) := by
  unfold walk
  rw [List.range_add, List.map_append, List.map_map]
  congr 1
  refine List.map_congr_left fun x hx => ?_
  have hx' := List.mem_range.1 hx
  simp only [Function.comp_apply]
  rw [add_mod_of_lt (by omega)]

end Laps
