import Gem5.Lru

/-!
# The victims of the LRU policy

The search in the part for I/O stops at the first way that was invalidated for I/O. If there is
none, its victim is the least recently touched way of the mask, but the bound on the ways is checked
after the last one as well, so a set of 32 ways has no victim.
-/

namespace Gem5

open Machine List

namespace LRU

variable {wayPart : BitVec 32} {all cs : List LRUReplData} {c : LRUReplData} {n : ℕ}
  {victim : Option (ℕ × LRUReplData)}

def Least (wayPart : BitVec 32) (all : List LRUReplData) (n : ℕ) :
    Option (ℕ × LRUReplData) → Prop
  | none => ∀ w < n, wayPart.getLsbD w = false
  | some v => v.1 < n ∧ all[v.1]? = some v.2 ∧ wayPart.getLsbD v.1 = true ∧
      ∀ w < n, ∀ d, all[w]? = some d → wayPart.getLsbD w = true →
        v.2.lastTouchTick ≤ d.lastTouchTick

theorem Least.next (h : Least wayPart all n victim) (hc : all[n]? = some c) :
    Least wayPart all (n + 1)
      (if wayPart.getLsbD n then some (inPart n c victim) else victim) := by
  split_ifs with hn
  · cases victim with
    | none =>
      refine ⟨Nat.lt_succ_self n, hc, hn, fun w hw d hd hmask => ?_⟩
      rcases Nat.lt_succ_iff_lt_or_eq.1 hw with hlt | rfl
      · simp [h w hlt] at hmask
      · obtain rfl := Option.some.inj (hc.symm.trans hd)
        exact le_rfl
    | some v =>
      obtain ⟨hv, hget, hmask, hmin⟩ := h
      simp only [inPart]
      split_ifs with hlt
      · refine ⟨Nat.lt_succ_self n, hc, hn, fun w hw d hd hw' => ?_⟩
        rcases Nat.lt_succ_iff_lt_or_eq.1 hw with hwn | rfl
        · exact hlt.le.trans (hmin w hwn d hd hw')
        · obtain rfl := Option.some.inj (hc.symm.trans hd)
          exact le_rfl
      · refine ⟨hv.trans (Nat.lt_succ_self n), hget, hmask, fun w hw d hd hw' => ?_⟩
        rcases Nat.lt_succ_iff_lt_or_eq.1 hw with hwn | rfl
        · exact hmin w hwn d hd hw'
        · obtain rfl := Option.some.inj (hc.symm.trans hd)
          exact not_lt.1 hlt
  · rw [Bool.not_eq_true] at hn
    cases victim with
    | none =>
      intro w hw
      rcases Nat.lt_succ_iff_lt_or_eq.1 hw with hlt | rfl
      · exact h w hlt
      · exact hn
    | some v =>
      obtain ⟨hv, hget, hmask, hmin⟩ := h
      refine ⟨hv.trans (Nat.lt_succ_self n), hget, hmask, fun w hw d hd hw' => ?_⟩
      rcases Nat.lt_succ_iff_lt_or_eq.1 hw with hlt | rfl
      · exact hmin w hlt d hd hw'
      · simp [hn] at hw'

theorem getElem?_of_drop_cons (h : all.drop n = c :: cs) :
    all[n]? = some c ∧ all.drop (n + 1) = cs := by
  refine ⟨?_, ?_⟩
  · rw [← Nat.add_zero n, ← getElem?_drop, h]
    rfl
  · rw [← drop_drop, h]
    rfl

theorem wayPartLoop_cases {r : ℕ} (hcs : all.drop n = cs) (hn : n ≤ all.length)
    (hleast : Least wayPart all n victim)
    (hprev : ∀ w < n, ∀ d, all[w]? = some d → d.ioInvalidated = false)
    (h : wayPartLoop wayPart cs n victim = .ok r) :
    (∃ d, all[r]? = some d ∧ d.ioInvalidated = true)
      ∨ ((∀ d ∈ all, d.ioInvalidated = false)
        ∧ ∃ v, Least wayPart all all.length v ∧ r = v.elim 0 Prod.fst) := by
  induction cs generalizing n victim with
  | nil =>
    cases h
    obtain rfl : n = all.length := hn.antisymm (drop_eq_nil_iff.1 hcs)
    refine .inr ⟨fun d hd => ?_, victim, hleast, rfl⟩
    obtain ⟨w, hw, rfl⟩ := mem_iff_getElem.1 hd
    exact hprev w hw _ (getElem?_eq_getElem hw)
  | cons c cs ih =>
    obtain ⟨hc, hrest⟩ := getElem?_of_drop_cons hcs
    unfold wayPartLoop at h
    by_cases hio : c.ioInvalidated = true
    · rw [if_pos hio] at h
      cases h
      exact .inl ⟨c, hc, hio⟩
    rw [if_neg hio] at h
    obtain ⟨_, _, h⟩ := bind_ok.1 h
    have hlt : n < all.length := (List.getElem?_eq_some_iff.1 hc).1
    refine ih hrest hlt (hleast.next hc) (fun w hw d hd => ?_) h
    rcases Nat.lt_succ_iff_lt_or_eq.1 hw with hwn | rfl
    · exact hprev w hwn d hd
    · obtain rfl := Option.some.inj (hc.symm.trans hd)
      exact Bool.eq_false_of_not_eq_true hio

theorem getVictimWayPart_cases {r : ℕ} (h : getVictimWayPart all wayPart = .ok r) :
    all ≠ [] ∧ ((∃ d, all[r]? = some d ∧ d.ioInvalidated = true)
      ∨ ((∀ d ∈ all, d.ioInvalidated = false)
        ∧ ∃ v, Least wayPart all all.length v ∧ r = v.elim 0 Prod.fst)) := by
  unfold getVictimWayPart at h
  split_ifs at h with hempty
  have hstart : Least wayPart all 0 none := fun w hw => absurd hw (Nat.not_lt_zero w)
  refine ⟨fun he => hempty (by simp [he]), ?_⟩
  exact wayPartLoop_cases rfl (Nat.zero_le _) hstart (fun w hw => absurd hw (Nat.not_lt_zero w)) h

theorem wayPartLoop_ends_iff (hinv : ∀ d ∈ cs, d.ioInvalidated = false) :
    (∃ r, wayPartLoop wayPart cs n victim = .ok r) ↔ cs = [] ∨ n + cs.length < 32 := by
  induction cs generalizing n victim with
  | nil => exact ⟨fun _ => .inl rfl, fun _ => ⟨_, rfl⟩⟩
  | cons c cs ih =>
    have hc : c.ioInvalidated = false := hinv c (.head _)
    have hrest : ∀ d ∈ cs, d.ioInvalidated = false := fun d hd => hinv d (.tail _ hd)
    unfold wayPartLoop
    rw [if_neg (by simp [hc])]
    simp only [bind_ok, require_ok, reduceCtorEq, false_or, length_cons]
    constructor
    · rintro ⟨r, -, hlt, h⟩
      rcases (ih hrest).1 ⟨r, h⟩ with rfl | hlen
      · simpa using hlt
      · omega
    · intro hlen
      obtain ⟨r, h⟩ : ∃ r, wayPartLoop wayPart cs (n + 1)
          (if wayPart.getLsbD n then some (inPart n c victim) else victim) = .ok r :=
        (ih hrest).2 (.inr (by omega))
      exact ⟨r, (), by omega, h⟩

/-- When no way was invalidated for I/O and the mask has a way of the set, the victim is the least
recently touched way of the mask, if the set has fewer than 32 ways. -/
theorem victim_least_iff (candidates : List LRUReplData) (wayPart : BitVec 32)
    (hsel : ∃ w < candidates.length, wayPart.getLsbD w = true)
    (hinv : ∀ d ∈ candidates, d.ioInvalidated = false) :
    (∃ w d, getVictimWayPart candidates wayPart = .ok w ∧ candidates[w]? = some d
        ∧ wayPart.getLsbD w = true
        ∧ ∀ w' d', candidates[w']? = some d' → wayPart.getLsbD w' = true →
          d.lastTouchTick ≤ d'.lastTouchTick)
      ↔ candidates.length < 32 := by
  obtain ⟨w₀, hw₀, hmask₀⟩ := hsel
  have hne : candidates ≠ [] := ne_nil_of_length_pos (Nat.zero_lt_of_lt hw₀)
  have hends : (∃ r, getVictimWayPart candidates wayPart = .ok r) ↔ candidates.length < 32 := by
    unfold getVictimWayPart
    rw [if_neg (by simpa using hne), wayPartLoop_ends_iff hinv]
    simp [hne]
  rw [← hends]
  constructor
  · rintro ⟨w, d, h, -⟩
    exact ⟨w, h⟩
  · rintro ⟨r, h⟩
    obtain ⟨-, ⟨d, hd, hio⟩ | ⟨-, v, hleast, rfl⟩⟩ := getVictimWayPart_cases h
    · simp [hinv d (mem_of_getElem? hd)] at hio
    · cases v with
      | none => simp [hleast w₀ hw₀] at hmask₀
      | some v =>
        obtain ⟨-, hget, hmask, hmin⟩ := hleast
        refine ⟨v.1, v.2, h, hget, hmask, fun w' d' hd' hw' => ?_⟩
        exact hmin w' (List.getElem?_eq_some_iff.1 hd').1 d' hd' hw'

def threeWays : List LRUReplData := [⟨3, false⟩, ⟨7, false⟩, ⟨5, false⟩]

theorem victim_least_threeWays :
    ∃ w d, getVictimWayPart threeWays 6 = .ok w ∧ threeWays[w]? = some d
      ∧ (6 : BitVec 32).getLsbD w = true
      ∧ ∀ w' d', threeWays[w']? = some d' → (6 : BitVec 32).getLsbD w' = true →
        d.lastTouchTick ≤ d'.lastTouchTick :=
  (victim_least_iff threeWays 6 ⟨1, by decide, by decide⟩ (by decide)).2 (by decide)

/-- With 32 ways the search stops at its own check. -/
theorem victim_of_32_ways :
    (List.replicate 32 (⟨0, false⟩ : LRUReplData)).length ≤ 32
      ∧ (∃ w < 32, (1 : BitVec 32).getLsbD w = true)
      ∧ (∀ d ∈ List.replicate 32 (⟨0, false⟩ : LRUReplData), d.ioInvalidated = false)
      ∧ getVictimWayPart (List.replicate 32 ⟨0, false⟩) 1 = .error (.assertion "way < 32") :=
  ⟨by decide, ⟨0, by decide, by decide⟩, by decide, by rfl⟩

end LRU

end Gem5
