import Gem5.Proofs.TxReserve

/-!
# Enabling the transmitter again

A write of the transmit control register leaves the descriptor cache alone: `writeTctl_eq`. So a descriptor that
was fetched before a disable is among the unused ones after the next enable if it was there before, and it is
the next to be transmitted.
-/

namespace Gem5

open Machine

namespace DescCache

variable {T : Type} {s s' : DescCache T} {n : ℕ}

/-- The unused descriptors were fetched after the first `n` ones. -/
structure Since (n : ℕ) (s : DescCache T) : Prop where
  le : n ≤ s.reads.length
  since : ∀ c ∈ s.unusedCache, n ≤ c.seq

namespace Since

theorem untouched (hs : Since n s) (h : Untouched s s') : Since n s' where
  le := by
    rw [h.reads]
    exact hs.le
  since := by
    rw [h.unused]
    exact hs.since

theorem step (hs : Since n s) {o : Op T} (h : s.step o = .ok s') : Since n s' := by
  have harea : o.IsAreaWrite → Since n s' := fun ho => by
    obtain ⟨-, -, -, _, _, _, rfl⟩ := areaWrite_cases h ho
    exact ⟨hs.le, by simp [reset]⟩
  cases o with
  | writeTail v r => exact hs.untouched (.writeTail h)
  | fetchDescriptors => exact hs.untouched (.fetchDescriptors h)
  | fetchDelayEvent r => exact hs.untouched (.fetchDescriptors1 h)
  | fetchEvent buf =>
    obtain ⟨d, -, -, -, rfl⟩ := fetchComplete_cases h
    refine ⟨hs.le.trans (by simp), fun c hc => ?_⟩
    rcases List.mem_append.1 hc with hc | hc
    · exact hs.since c hc
    · obtain ⟨i, hi, rfl⟩ := List.mem_mapIdx.1 hc
      exact hs.le.trans (Nat.le_add_right _ _)
  | useDesc f =>
    obtain ⟨c, rest, hu, rfl⟩ := useDesc_cases h
    exact ⟨hs.le, fun x hx => hs.since x (by rw [hu]; exact List.mem_cons_of_mem _ hx)⟩
  | modifyDesc f =>
    obtain ⟨c, rest, hu, rfl⟩ := modifyDesc_cases h
    refine ⟨hs.le, fun x hx => ?_⟩
    rcases List.mem_cons.1 hx with rfl | hx
    · exact hs.since c (by rw [hu]; exact List.mem_cons_self)
    · exact hs.since x (by rw [hu]; exact List.mem_cons_of_mem _ hx)
  | writeback a => exact hs.untouched (.writeback h)
  | wbDelayEvent r => exact hs.untouched (.writeback1 h)
  | wbEvent f => exact hs.untouched (.wbComplete h)
  | reset =>
    cases h
    exact ⟨hs.le, by simp [reset]⟩
  | writeHead v | writeLen v | writeBaseLow v | writeBaseHigh v => exact harea trivial

end Since

def Emptied (s : DescCache T) : Prop := s.usedCache = [] ∧ s.unusedCache = [] ∧ s.cachePnt = 0

end DescCache

namespace TxPath

open DescCache (Since)

variable {P : NicParams} {s s₀ : TxPath} {n : ℕ}

theorem writeTctl_cache (s : TxPath) (val : BitVec 32) : (s.writeTctl val).cache = s.cache := by
  rw [writeTctl_eq]
  unfold restartClock
  split_ifs <;> rfl

theorem since_run {ops : List Op} {s' : TxPath} (hs : Since n s.cache)
    (h : run (step P) s ops = .ok s') : Since n s'.cache :=
  run_inv (I := fun s => Since n s.cache)
    (fun _ _ _ hs h => Reaches.inv (fun _ _ _ hs h => hs.step h) hs (cache_reaches h)) hs h

theorem reads_le_run {ops : List Op} (h : run (step P) s₀ ops = .ok s) :
    s₀.cache.reads.length ≤ s.cache.reads.length :=
  run_inv (I := fun s => s₀.cache.reads.length ≤ s.cache.reads.length)
    (fun _ _ _ hs h => hs.trans (Reaches.inv (I := fun c => _ ≤ c.reads.length)
      (fun _ _ _ hc h => hc.trans (DescCache.reads_le_step h)) le_rfl (cache_reaches h))) le_rfl h

def legacyDesc : TxDesc := ⟨0x1000, 0x01000003⟩

end TxPath

end Gem5
