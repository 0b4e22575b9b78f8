import Gem5.Proofs.DescCache

/-!
# The fetch and the write-back engine

Each of the two engines is idle exactly when its counter is 0 (`Phases`), whatever is done to the
cache. Unless the cache is reset in the middle of a write-back, the descriptors in write-back are
the first ones of the used queue and stay there until its DMA is done (`WbHeld`).
-/

namespace Gem5

namespace DescCache

open Machine

variable {T : Type} {s s' : DescCache T}

structure Phases (s : DescCache T) : Prop where
  fetch_idle : s.fetch.isIdle = true ↔ s.curFetching = 0
  wb_idle : s.wb.isIdle = true ↔ s.wbOut = 0

namespace Phases

theorem init (base len size : ℕ) : Phases (DescCache.init base len size : DescCache T) where
  fetch_idle := by simp [DescCache.init, Phase.isIdle]
  wb_idle := by simp [DescCache.init, Phase.isIdle]

theorem writeback (hs : Phases s) {a : BitVec 64} (h : s.writeback a = .ok s') : Phases s' := by
  rcases writeback_cases h with ⟨-, -, rfl⟩ | ⟨-, -, rfl⟩ | ⟨-, -, rfl⟩ | ⟨-, hne, -, rfl⟩
  · exact { hs with }
  · exact { hs with }
  · exact { hs with }
  · exact { hs with wb_idle := by simpa [Phase.isIdle] using hne }

theorem fetchDescriptors (hs : Phases s) (h : s.fetchDescriptors = .ok s') : Phases s' := by
  rcases fetchDescriptors_cases h with rfl | ⟨-, hne, -, rfl⟩
  · exact hs
  · exact { hs with fetch_idle := by simpa [Phase.isIdle] using hne }

theorem wbMore (hs : Phases s) (h : s.wbMore = .ok s') : Phases s' := by
  rcases wbMore_cases h with ⟨-, h⟩ | ⟨-, rfl⟩
  · exact Phases.writeback (s := { s with moreToWb := false }) { hs with } h
  · exact hs

theorem wbDone (hs : Phases s) (d : WbDma T) : Phases (s.wbDone d) :=
  { hs with wb_idle := by simp [DescCache.wbDone, Phase.isIdle] }

theorem areaWrite (hs : Phases s) {o : Op T} (h : s.step o = .ok s') (ho : o.IsAreaWrite) :
    Phases s' := by
  obtain ⟨-, -, -, _, _, _, rfl⟩ := areaWrite_cases h ho
  exact { hs with }

theorem step (hs : Phases s) {o : Op T} (h : s.step o = .ok s') : Phases s' := by
  cases o with
  | writeTail v r =>
    have hv : Phases { s with descTail := v } := { hs with }
    rcases writeTail_cases h with rfl | h
    · exact hv
    · exact hv.fetchDescriptors h
  | fetchDescriptors => exact hs.fetchDescriptors h
  | fetchDelayEvent r =>
    obtain ⟨-, rfl | ⟨hne, rfl⟩⟩ := fetchDescriptors1_cases h
    · exact hs
    · exact { hs with fetch_idle := by simpa [Phase.isIdle] using hne }
  | fetchEvent buf =>
    obtain ⟨d, -, -, -, rfl⟩ := fetchComplete_cases h
    exact { hs with fetch_idle := by simp [Phase.isIdle] }
  | useDesc f =>
    obtain ⟨c, rest, -, rfl⟩ := useDesc_cases h
    exact { hs with }
  | modifyDesc f =>
    obtain ⟨c, rest, -, rfl⟩ := modifyDesc_cases h
    exact { hs with }
  | writeback a => exact hs.writeback h
  | wbDelayEvent r =>
    obtain ⟨-, rfl | ⟨hne, -, rfl⟩⟩ := writeback1_cases h
    · exact hs
    · exact { hs with wb_idle := by simpa [Phase.isIdle] using hne }
  | wbEvent f =>
    obtain ⟨d, t, -, -, ht, rfl | h⟩ := wbComplete_cases h
    · exact (hs.wbDone d).wbMore ht
    · exact ((hs.wbDone d).wbMore ht).fetchDescriptors h
  | reset =>
    cases h
    exact { hs with }
  | writeHead v | writeLen v | writeBaseLow v | writeBaseHigh v => exact hs.areaWrite h trivial

theorem wb_eq_idle (hs : Phases s) (h : s.wbOut = 0) : s.wb = .idle := by
  have hi := hs.wb_idle.2 h
  rcases hw : s.wb with _ | _ | d
  · rfl
  · simp [hw, Phase.isIdle] at hi
  · simp [hw, Phase.isIdle] at hi

theorem fetch_eq_idle (hs : Phases s) (h : s.curFetching = 0) : s.fetch = .idle := by
  have hi := hs.fetch_idle.2 h
  rcases hw : s.fetch with _ | _ | d
  · rfl
  · simp [hw, Phase.isIdle] at hi
  · simp [hw, Phase.isIdle] at hi

theorem writeback_ok (hs : Phases s) (a : BitVec 64) :
    ∃ t, s.writeback a = .ok t := by
  unfold DescCache.writeback
  split_ifs with h1
  · exact ⟨_, rfl⟩
  · exact ⟨_, rfl⟩
  · exact ⟨_, rfl⟩
  · exact ⟨_, bind_ok.2 ⟨(), require_ok.2 (hs.wb_idle.2 (not_not.1 h1)), rfl⟩⟩

theorem fetchDescriptors_ok (hs : Phases s) :
    ∃ t, s.fetchDescriptors = .ok t := by
  unfold DescCache.fetchDescriptors
  split_ifs with h1
  · exact ⟨_, rfl⟩
  · exact ⟨_, rfl⟩
  · exact ⟨_, bind_ok.2 ⟨(), require_ok.2 (hs.fetch_idle.2 (not_not.1 h1)), rfl⟩⟩

end Phases

structure WbHeld (s : DescCache T) : Prop extends Phases s where
  wbOut_le : s.wbOut ≤ s.usedCache.length
  wbBuf_eq : ∀ d, s.wb = .dma d → d.wbBuf = s.usedCache.take s.wbOut

namespace WbHeld

theorem init (base len size : ℕ) : WbHeld (DescCache.init base len size : DescCache T) where
  toPhases := Phases.init base len size
  wbOut_le := by simp [DescCache.init]
  wbBuf_eq := by simp [DescCache.init]

theorem writeback (hs : WbHeld s) {a : BitVec 64} (h : s.writeback a = .ok s') : WbHeld s' := by
  have hp := hs.toPhases.writeback h
  rcases writeback_cases h with ⟨-, -, rfl⟩ | ⟨-, -, rfl⟩ | ⟨-, -, rfl⟩ | ⟨-, -, -, rfl⟩
  · exact { hs with }
  · exact { hs with }
  · exact { hs with }
  · exact { hp with
      wbOut_le := s.maxToWb_le a
      wbBuf_eq := fun d hd => by simp at hd }

theorem fetchDescriptors (hs : WbHeld s) (h : s.fetchDescriptors = .ok s') : WbHeld s' := by
  have hp := hs.toPhases.fetchDescriptors h
  rcases fetchDescriptors_cases h with rfl | ⟨-, -, -, rfl⟩
  · exact hs
  · exact { hp, hs with }

theorem wbDone (hs : WbHeld s) (d : WbDma T) : WbHeld (s.wbDone d) :=
  { hs.toPhases.wbDone d with
    wbOut_le := by simp [DescCache.wbDone]
    wbBuf_eq := fun d hd => by simp [DescCache.wbDone] at hd }

theorem wbMore (hs : WbHeld s) (h : s.wbMore = .ok s') : WbHeld s' := by
  rcases wbMore_cases h with ⟨-, h⟩ | ⟨-, rfl⟩
  · exact WbHeld.writeback (s := { s with moreToWb := false }) { hs with } h
  · exact hs

theorem reset (hs : WbHeld s) (h : s.wbOut = 0) : WbHeld s.reset :=
  { hs with
    wbOut_le := by simp [DescCache.reset, h]
    wbBuf_eq := fun d hd => by
      rw [show s.reset.wb = s.wb from rfl, hs.wb_eq_idle h] at hd
      cases hd }

theorem areaWrite (hs : WbHeld s) {o : Op T} (h : s.step o = .ok s') (ho : o.IsAreaWrite) :
    WbHeld s' := by
  obtain ⟨-, -, hout, _, _, _, rfl⟩ := areaWrite_cases h ho
  exact WbHeld.reset { hs with } hout

theorem step (hs : WbHeld s) {o : Op T} (ho : o = .reset → s.wbOut = 0)
    (h : s.step o = .ok s') : WbHeld s' := by
  have hp := hs.toPhases.step h
  cases o with
  | writeTail v r =>
    have hv : WbHeld { s with descTail := v } := { hs with }
    rcases writeTail_cases h with rfl | h
    · exact hv
    · exact hv.fetchDescriptors h
  | fetchDescriptors => exact hs.fetchDescriptors h
  | fetchDelayEvent r =>
    obtain ⟨-, rfl | ⟨-, rfl⟩⟩ := fetchDescriptors1_cases h
    · exact hs
    · exact { hp, hs with }
  | fetchEvent buf =>
    obtain ⟨d, -, -, -, rfl⟩ := fetchComplete_cases h
    exact { hp, hs with }
  | useDesc f =>
    obtain ⟨c, rest, -, rfl⟩ := useDesc_cases h
    exact { hp with
      wbOut_le := by
        have := hs.wbOut_le
        simp only [List.length_append]
        omega
      wbBuf_eq := fun d hd => by
        rw [hs.wbBuf_eq d hd, List.take_append_of_le_length hs.wbOut_le] }
  | modifyDesc f =>
    obtain ⟨c, rest, -, rfl⟩ := modifyDesc_cases h
    exact { hs with }
  | writeback a => exact hs.writeback h
  | wbDelayEvent r =>
    obtain ⟨-, rfl | ⟨-, -, rfl⟩⟩ := writeback1_cases h
    · exact hs
    · exact { hp, hs with
        wbBuf_eq := fun d hd => by
          cases hd
          rfl }
  | wbEvent f =>
    obtain ⟨d, t, -, -, ht, rfl | h⟩ := wbComplete_cases h
    · exact (hs.wbDone d).wbMore ht
    · exact ((hs.wbDone d).wbMore ht).fetchDescriptors h
  | reset =>
    cases h
    exact hs.reset (ho rfl)
  | writeHead v | writeLen v | writeBaseLow v | writeBaseHigh v => exact hs.areaWrite h trivial

theorem map_snd_written (hs : WbHeld s) {d : WbDma T} (hd : s.wb = .dma d) :
    (written d).map Prod.snd = s.usedCache.take s.wbOut := by
  refine List.ext_getElem (by simp [written, hs.wbBuf_eq d hd]) fun x h1 h2 => ?_
  simp [written, hs.wbBuf_eq d hd]

end WbHeld

/-- The descriptors the device is done with, whether they are written back or not. -/
def returned (s : DescCache T) : List (Cached T) := s.writes.map Prod.snd ++ s.usedCache

/-- Nothing but requests for fetches and write-backs. -/
structure Serviced (s s' : DescCache T) : Prop extends Untouched s s' where
  used : s'.usedCache = s.usedCache
  writes : s'.writes = s.writes
  held : s.WbHeld → s'.WbHeld

namespace Serviced

theorem refl (s : DescCache T) : Serviced s s := ⟨.refl s, rfl, rfl, id⟩

theorem trans {t : DescCache T} (h : Serviced s s') (h' : Serviced s' t) : Serviced s t where
  toUntouched := h.toUntouched.trans h'.toUntouched
  used := h'.used.trans h.used
  writes := h'.writes.trans h.writes
  held hs := h'.held (h.held hs)

theorem writeback {a : BitVec 64} (h : s.writeback a = .ok s') : Serviced s s' := by
  refine ⟨.writeback h, ?_, ?_, fun hs => hs.writeback h⟩
  · rcases writeback_cases h with ⟨-, -, rfl⟩ | ⟨-, -, rfl⟩ | ⟨-, -, rfl⟩ | ⟨-, -, -, rfl⟩ <;> rfl
  · rcases writeback_cases h with ⟨-, -, rfl⟩ | ⟨-, -, rfl⟩ | ⟨-, -, rfl⟩ | ⟨-, -, -, rfl⟩ <;> rfl

theorem fetchDescriptors (h : s.fetchDescriptors = .ok s') : Serviced s s' := by
  refine ⟨.fetchDescriptors h, ?_, ?_, fun hs => hs.fetchDescriptors h⟩
  · rcases fetchDescriptors_cases h with rfl | ⟨-, -, -, rfl⟩ <;> rfl
  · rcases fetchDescriptors_cases h with rfl | ⟨-, -, -, rfl⟩ <;> rfl

theorem returned (h : Serviced s s') : s'.returned = s.returned := by
  rw [DescCache.returned, h.used, h.writes]
  rfl

end Serviced

/-- The operations that neither use a descriptor nor empty the cache. -/
def Op.IsUpkeep : Op T → Prop
  | .writeTail _ _ | .fetchDelayEvent _ | .fetchEvent _ | .wbDelayEvent _ | .wbEvent _ => True
  | _ => False

theorem WbHeld.returned_wbComplete (hs : WbHeld s) {f : Bool} (h : s.wbComplete f = .ok s') :
    s'.returned = s.returned := by
  obtain ⟨d, t, hd, -, ht, h⟩ := wbComplete_cases h
  have hdone : (s.wbDone d).returned = s.returned := by
    simp only [DescCache.returned, DescCache.wbDone, List.map_append, hs.map_snd_written hd,
      List.append_assoc, List.take_append_drop]
  have hmore : t.returned = (s.wbDone d).returned := by
    rcases wbMore_cases ht with ⟨-, ht⟩ | ⟨-, rfl⟩
    · exact (Serviced.writeback ht).returned
    · rfl
  rcases h with rfl | h
  · exact hmore.trans hdone
  · exact (Serviced.fetchDescriptors h).returned.trans (hmore.trans hdone)

theorem WbHeld.returned_upkeep (hs : WbHeld s) {o : Op T} (ho : o.IsUpkeep)
    (h : s.step o = .ok s') : s'.returned = s.returned := by
  cases o with
  | writeTail v r =>
    rcases writeTail_cases h with rfl | h
    · rfl
    · exact (Serviced.fetchDescriptors h).returned
  | fetchDelayEvent r =>
    obtain ⟨-, rfl | ⟨-, rfl⟩⟩ := fetchDescriptors1_cases h <;> rfl
  | fetchEvent buf =>
    obtain ⟨d, -, -, -, rfl⟩ := fetchComplete_cases h
    rfl
  | wbDelayEvent r =>
    obtain ⟨-, rfl | ⟨-, -, rfl⟩⟩ := writeback1_cases h <;> rfl
  | wbEvent f => exact hs.returned_wbComplete h
  | _ => exact ho.elim

end DescCache

end Gem5
