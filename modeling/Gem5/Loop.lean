import Mathlib

/-!
# Loops that may not end

`turn` is the body of a loop with its test: it goes on from a new state or it ends with a result.
`loop` runs it for a number of turns, `after` is the state after so many.
-/

namespace Loop

universe u v

inductive Turn (σ : Type u) (ρ : Type v)
  | again (s : σ)
  | stop (r : ρ)

variable {σ : Type u} {ρ : Type v} {turn : σ → Turn σ ρ}

/-- The result of the loop if it goes on at most `n` times. -/
def loop (turn : σ → Turn σ ρ) : ℕ → σ → Option ρ
  | 0, s =>
    match turn s with
    | .stop r => some r
    | .again _ => none
  | n + 1, s =>
    match turn s with
    | .stop r => some r
    | .again s' => loop turn n s'

/-- The state after the loop has gone on `n` times. -/
def after (turn : σ → Turn σ ρ) : ℕ → σ → Option σ
  | 0, s => some s
  | n + 1, s =>
    match turn s with
    | .stop _ => none
    | .again s' => after turn n s'

variable {s s' t : σ} {r : ρ} {k m n : ℕ}

theorem loop_stop (h : turn s = .stop r) (n : ℕ) : loop turn n s = some r := by
  cases n <;> simp [loop, h]

theorem loop_again (h : turn s = .again s') (n : ℕ) : loop turn (n + 1) s = loop turn n s' := by
  simp [loop, h]

theorem after_again (h : turn s = .again s') (n : ℕ) : after turn (n + 1) s = after turn n s' := by
  simp [after, h]

theorem loop_isSome_iff : (loop turn n s).isSome = true ↔ after turn (n + 1) s = none := by
  induction n generalizing s with
  | zero => cases h : turn s <;> simp [loop, after, h]
  | succ n ih =>
    cases h : turn s with
    | stop r => simp [loop, after, h]
    | again s' => rw [loop_again h, after_again h, ih]

/-- What holds at the start and is kept from each turn to the next holds after `k` turns. -/
theorem after_inv {I : ℕ → σ → Prop} (h₀ : I 0 s)
    (hI : ∀ k t t', after turn k s = some t → I k t → turn t = .again t' → I (k + 1) t')
    (h : after turn k s = some t) : I k t := by
  induction k generalizing s t I with
  | zero =>
    cases h
    exact h₀
  | succ k ih =>
    cases hs : turn s with
    | stop r => simp [after, hs] at h
    | again s' =>
      rw [after_again hs] at h
      refine ih (I := fun k t => I (k + 1) t) (hI 0 s s' rfl h₀ hs) (fun k t t' ht => ?_) h
      exact hI (k + 1) t t' ((after_again hs k).trans ht)

theorem exists_of_after_succ (h : after turn (k + 1) s = some t) :
    ∃ t', after turn k s = some t' ∧ turn t' = .again t := by
  induction k generalizing s with
  | zero =>
    cases hs : turn s with
    | stop r => simp [after, hs] at h
    | again s' =>
      rw [after_again hs] at h
      cases h
      exact ⟨s, rfl, hs⟩
  | succ k ih =>
    cases hs : turn s with
    | stop r => simp [after, hs] at h
    | again s' =>
      rw [after_again hs] at h
      obtain ⟨t', ht', hturn⟩ := ih h
      exact ⟨t', (after_again hs k).trans ht', hturn⟩

theorem loop_of_after (h : after turn k s = some t) (n : ℕ) :
    loop turn (k + n) s = loop turn n t := by
  induction k generalizing s with
  | zero =>
    cases h
    rw [Nat.zero_add]
  | succ k ih =>
    cases hs : turn s with
    | stop r => simp [after, hs] at h
    | again s' =>
      rw [after_again hs] at h
      rw [Nat.add_right_comm, loop_again hs, ih h]

theorem loop_mono (h : loop turn n s = some r) (hle : n ≤ m) : loop turn m s = some r := by
  induction n generalizing s m with
  | zero =>
    cases hs : turn s with
    | stop r' => rw [loop_stop hs] at h ⊢; exact h
    | again s' => simp [loop, hs] at h
  | succ n ih =>
    obtain ⟨m, rfl⟩ : ∃ m', m = m' + 1 := ⟨m - 1, by omega⟩
    cases hs : turn s with
    | stop r' => rw [loop_stop hs] at h ⊢; exact h
    | again s' =>
      rw [loop_again hs] at h ⊢
      exact ih h (by omega)

theorem loop_unique {r' : ρ} (h : loop turn n s = some r) (h' : loop turn m s = some r') :
    r = r' := by
  have h₁ := loop_mono h (le_max_left n m)
  rw [loop_mono h' (le_max_right n m)] at h₁
  exact (Option.some.inj h₁).symm

theorem loop_eq_none {I : σ → Prop} (hI : ∀ t, I t → ∃ t', turn t = .again t' ∧ I t') (h : I s)
    (n : ℕ) : loop turn n s = none := by
  induction n generalizing s with
  | zero =>
    obtain ⟨t', ht', -⟩ := hI s h
    simp [loop, ht']
  | succ n ih =>
    obtain ⟨t', ht', hit⟩ := hI s h
    rw [loop_again ht']
    exact ih hit

theorem exists_of_loop (h : loop turn n s = some r) : ∃ t, turn t = .stop r := by
  induction n generalizing s with
  | zero =>
    cases hs : turn s with
    | stop r' =>
      rw [loop_stop hs] at h
      exact ⟨s, hs.trans (congrArg _ (Option.some.inj h))⟩
    | again s' => simp [loop, hs] at h
  | succ n ih =>
    cases hs : turn s with
    | stop r' =>
      rw [loop_stop hs] at h
      exact ⟨s, hs.trans (congrArg _ (Option.some.inj h))⟩
    | again s' =>
      rw [loop_again hs] at h
      exact ih h

end Loop
