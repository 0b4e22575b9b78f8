import Gem5.ClockedObject

/-!
# Clock edges

An update moves the edge by whole periods, as many as it adds cycles, and by no more than it takes to
reach the current tick (`update_spec`). So edges and cycles go on together, whatever becomes of the
period. An edge that was computed with an earlier period can be further away than the new one.
-/

namespace Gem5

open Machine

namespace ClockedObject

variable {s s' t : ClockedObject} {o : Op} {ops : List Op}

theorem divCeil_spec {a b : ℕ} (hb : 0 < b) : a ≤ divCeil a b * b ∧ divCeil a b * b < a + b := by
  have hdiv := Nat.div_add_mod (a + b - 1) b
  have hmod := Nat.mod_lt (a + b - 1) hb
  rw [Nat.mul_comm] at hdiv
  unfold divCeil
  omega

/-- The edge moves by the least number of periods that brings it to the current tick. -/
theorem update_spec (hp : 0 < s.clockPeriod) : ∃ k, s.update = { s with
      cycle := s.cycle + k
      tick := s.tick + k * s.clockPeriod }
    ∧ s.curTick ≤ s.tick + k * s.clockPeriod
    ∧ (k = 0 ∨ s.tick + k * s.clockPeriod < s.curTick + s.clockPeriod) := by
  unfold update
  split_ifs with h₀
  · exact ⟨0, by simp, by omega, .inl rfl⟩
  · dsimp only
    split_ifs with h₁
    · refine ⟨1, by rw [Nat.one_mul], ?_, .inr ?_⟩ <;> omega
    · obtain ⟨hle, hlt⟩ := divCeil_spec (a := s.curTick - (s.tick + s.clockPeriod)) hp
      refine ⟨1 + divCeil (s.curTick - (s.tick + s.clockPeriod)) s.clockPeriod, ?_, ?_, .inr ?_⟩
      · rw [Nat.add_mul, Nat.one_mul, Nat.add_assoc, Nat.add_assoc]
      · rw [Nat.add_mul]
        omega
      · rw [Nat.add_mul]
        omega

theorem curTick_le_clockEdge (hp : 0 < s.clockPeriod) : s.curTick ≤ s.clockEdge := by
  obtain ⟨k, hk, hle, -⟩ := update_spec hp
  rwa [clockEdge, hk]

theorem update_of_le (h : s.curTick ≤ s.tick) : s.update = s := if_pos h

theorem update_frame (hp : 0 < s.clockPeriod) : s.update.clockPeriod = s.clockPeriod
    ∧ s.update.curTick = s.curTick ∧ s.update.curTick ≤ s.update.tick := by
  obtain ⟨k, hk, hle, -⟩ := update_spec hp
  rw [hk]
  exact ⟨rfl, rfl, hle⟩

/-- Between two queries neither value goes back, and both stay or both change. -/
structure Onward (s s' : ClockedObject) : Prop where
  edge : s.clockEdge ≤ s'.clockEdge
  cycle : s.curCycle ≤ s'.curCycle
  together : s.clockEdge = s'.clockEdge ↔ s.curCycle = s'.curCycle

theorem Onward.of_eq (he : s'.clockEdge = s.clockEdge) (hc : s'.curCycle = s.curCycle) :
    Onward s s' := ⟨he.ge, hc.ge, by rw [he, hc]; simp⟩

theorem Onward.trans (h : Onward s s') (h' : Onward s' t) : Onward s t where
  edge := h.edge.trans h'.edge
  cycle := h.cycle.trans h'.cycle
  together := by
    have h₁ := h.edge
    have h₂ := h'.edge
    have h₃ := h.cycle
    have h₄ := h'.cycle
    have h₅ := h.together
    have h₆ := h'.together
    omega

theorem Onward.advance (hp : 0 < s.clockPeriod) (n : ℕ) :
    Onward s { s with curTick := s.curTick + n } := by
  obtain ⟨k, hk, -, hmin⟩ := update_spec hp
  obtain ⟨k', hk', hle, -⟩ := update_spec (s := { s with curTick := s.curTick + n }) hp
  dsimp only at hle
  have hkk : k ≤ k' := by
    by_contra hlt
    have hmul : (k' + 1) * s.clockPeriod ≤ k * s.clockPeriod :=
      Nat.mul_le_mul_right _ (by omega)
    rw [Nat.add_mul] at hmul
    omega
  have hmul := Nat.mul_le_mul_right s.clockPeriod hkk
  refine ⟨?_, ?_, ?_⟩
  · simp only [clockEdge, hk, hk']
    omega
  · simp only [curCycle, hk, hk']
    omega
  · simp only [clockEdge, curCycle, hk, hk', Nat.mul_zero, Nat.add_zero, Nat.add_left_cancel_iff]
    exact Nat.mul_left_inj hp.ne'

theorem step_onward (hp : 0 < s.clockPeriod) (h : s.step o = .ok s') :
    0 < s'.clockPeriod ∧ Onward s s' := by
  obtain ⟨hperiod, -, hle⟩ := update_frame hp
  rcases o with n | _ | p
  · cases h
    exact ⟨hp, .advance hp n⟩
  · cases h
    refine ⟨hperiod ▸ hp, .of_eq ?_ ?_⟩
    · rw [clockEdge, update_of_le hle]
      rfl
    · rw [curCycle, update_of_le hle]
      rfl
  · obtain ⟨_, hpos, rfl⟩ := bind_pure_ok.1 h
    rw [panicIf_ok] at hpos
    have hsame : update { s.update with clockPeriod := p } = { s.update with clockPeriod := p } :=
      update_of_le hle
    refine ⟨Nat.pos_of_ne_zero hpos, .of_eq ?_ ?_⟩
    · rw [clockEdge, hsame]
      rfl
    · rw [curCycle, hsame]
      rfl

theorem run_onward (hp : 0 < s.clockPeriod) (h : run step s ops = .ok s') :
    0 < s'.clockPeriod ∧ Onward s s' :=
  run_inv (I := fun t => 0 < t.clockPeriod ∧ Onward s t)
    (fun _ _ _ hs h => ⟨(step_onward hs.1 h).1, hs.2.trans (step_onward hs.1 h).2⟩)
    ⟨hp, .of_eq rfl rfl⟩ h

theorem step_near (hp : 0 < s.clockPeriod) (hs : s.tick < s.curTick + s.clockPeriod)
    (ho : s.EdgeNear o) (h : s.step o = .ok s') : s'.tick < s'.curTick + s'.clockPeriod := by
  have hnear : s.update.tick < s.curTick + s.clockPeriod := by
    obtain ⟨k, hk, -, rfl | hlt⟩ := update_spec hp
    · rwa [hk, Nat.zero_mul]
    · rwa [hk]
  obtain ⟨hperiod, hcur, -⟩ := update_frame hp
  rcases o with n | _ | p
  · cases h
    dsimp only
    omega
  · cases h
    rwa [hperiod, hcur]
  · obtain ⟨_, -, rfl⟩ := bind_pure_ok.1 h
    dsimp only
    rwa [hcur]

/-- In every run the next edge is never before the current tick, and between any two states of it
neither the edge nor the cycle goes back, and they are the same or change together. If every new
period is larger than the way to the next edge, the edge is always less than a period away. -/
theorem clock_edges {period t₀ : ℕ} {before after : List Op} (hp : 0 < period)
    (h : run step (init period t₀) before = .ok s) (h' : run step s after = .ok s') :
    s.curTick ≤ s.clockEdge ∧ Onward s s'
    ∧ (Admits step EdgeNear (init period t₀) before → s.clockEdge < s.curTick + s.clockPeriod) := by
  have hpos := (run_onward (s := init period t₀) hp h).1
  refine ⟨curTick_le_clockEdge hpos, (run_onward hpos h').2, fun hadm => ?_⟩
  have hnear := Admits.inv (I := fun t => 0 < t.clockPeriod ∧ t.tick < t.curTick + t.clockPeriod)
    (fun _ _ _ hs ho h => ⟨(step_onward hs.1 h).1, step_near hs.1 hs.2 ho h⟩) hadm
    ⟨hp, by simpa [init] using by omega⟩ h
  have hquery := step_near (o := .query) hnear.1 hnear.2 trivial rfl
  obtain ⟨hperiod, hcur, -⟩ := update_frame hpos
  rwa [hperiod, hcur] at hquery

def slowedOps : List Op := [.advance 3, .query, .setClockPeriod 20, .advance 9]

theorem clock_edges_slowedOps : ∃ s, run step (init 10 0) slowedOps = .ok s
    ∧ s.clockEdge < s.curTick + s.clockPeriod := by
  obtain ⟨s, h, -⟩ := (show Ends (run step (init 10 0) slowedOps) fun _ => True by decide).exists
  have hend : run step s [] = .ok s := rfl
  exact ⟨s, h, (clock_edges (by decide) h hend).2.2 (by decide)⟩

/-- A clock that becomes faster keeps the edge of its last slow cycle. -/
theorem edge_too_far : Ends (run step (init 1000 0) [.advance 1, .setClockPeriod 10]) fun s =>
    s.curTick = 1 ∧ s.clockEdge = 1000 ∧ s.clockPeriod = 10 := by
  decide

end ClockedObject

end Gem5
