import Gem5.Proofs.Engines

/-!
# Resetting the descriptor cache

A reset empties both queues and sends the cache pointer to slot 0, whatever the head register holds,
and it does not touch the two engines. The completion of a DMA issued before a reset through the
receive control register adds to, or takes from, the emptied cache.
-/

namespace Gem5

namespace Phase

variable {α : Type}

def onBus : Phase α → Option α
  | dma a => some a
  | _ => none

end Phase

namespace DescCache

open Machine

variable {T : Type} {s s' : DescCache T}

/-- A reset, or a change of the head, the length or the base of the ring. -/
def Op.IsChange : Op T → Prop
  | .reset => True
  | o => o.IsAreaWrite

/-- The operation completes a DMA that was issued before the last change. -/
def StaleDma (s : DescCache T) : Op T → Prop
  | .fetchEvent _ => ∃ d ∈ s.fetch.onBus, d.epoch ≠ s.epoch
  | .wbEvent _ => ∃ d ∈ s.wb.onBus, d.epoch ≠ s.epoch
  | _ => False

/-- The head is at slot 0 after the step if it is a change, and a reset finds no DMA on the bus. -/
def CleanChange (s : DescCache T) : Op T → Prop
  | .reset => s.descHead = 0 ∧ s.fetch.onBus.isNone ∧ s.wb.onBus.isNone
  | .writeHead val => val = 0
  | .writeLen _ | .writeBaseLow _ | .writeBaseHigh _ => s.descHead = 0
  | _ => True

/-- Both DMAs on the bus were issued since the last change. -/
structure Fresh (s : DescCache T) : Prop extends Phases s where
  fetch_fresh : ∀ d ∈ s.fetch.onBus, d.epoch = s.epoch
  wb_fresh : ∀ d ∈ s.wb.onBus, d.epoch = s.epoch

namespace Fresh

theorem init (base len size : ℕ) : Fresh (DescCache.init base len size : DescCache T) where
  toPhases := Phases.init base len size
  fetch_fresh := by simp [DescCache.init, Phase.onBus]
  wb_fresh := by simp [DescCache.init, Phase.onBus]

theorem not_stale (hs : Fresh s) : ∀ o : Op T, ¬ s.StaleDma o
  | .fetchEvent _, ⟨d, hd, hne⟩ => hne (hs.fetch_fresh d hd)
  | .wbEvent _, ⟨d, hd, hne⟩ => hne (hs.wb_fresh d hd)

theorem of_onBus_none (hp : Phases s) (hf : s.fetch.onBus.isNone) (hw : s.wb.onBus.isNone) :
    Fresh s :=
  { hp with
    fetch_fresh := by simp [Option.isNone_iff_eq_none.1 hf]
    wb_fresh := by simp [Option.isNone_iff_eq_none.1 hw] }

theorem writeback (hs : Fresh s) {a : BitVec 64} (h : s.writeback a = .ok s') : Fresh s' := by
  have hp := hs.toPhases.writeback h
  rcases writeback_cases h with ⟨-, -, rfl⟩ | ⟨-, -, rfl⟩ | ⟨-, -, rfl⟩ | ⟨-, -, -, rfl⟩
  · exact { hs with }
  · exact { hs with }
  · exact { hs with }
  · exact { hp, hs with wb_fresh := by simp [Phase.onBus] }

theorem fetchDescriptors (hs : Fresh s) (h : s.fetchDescriptors = .ok s') : Fresh s' := by
  have hp := hs.toPhases.fetchDescriptors h
  rcases fetchDescriptors_cases h with rfl | ⟨-, -, -, rfl⟩
  · exact hs
  · exact { hp, hs with fetch_fresh := by simp [Phase.onBus] }

theorem wbComplete (hs : Fresh s) {f : Bool} (h : s.wbComplete f = .ok s') : Fresh s' := by
  obtain ⟨d, t, -, -, ht, h⟩ := wbComplete_cases h
  have hd : Fresh (s.wbDone d) :=
    { hs.toPhases.wbDone d, hs with wb_fresh := by simp [DescCache.wbDone, Phase.onBus] }
  have hti : Fresh t := by
    rcases wbMore_cases ht with ⟨-, ht⟩ | ⟨-, rfl⟩
    · exact Fresh.writeback (s := { s.wbDone d with moreToWb := false }) { hd with } ht
    · exact hd
  rcases h with rfl | h
  · exact hti
  · exact hti.fetchDescriptors h

theorem areaWrite (hs : Fresh s) {o : Op T} (h : s.step o = .ok s') (ho : o.IsAreaWrite) :
    Fresh s' := by
  have hp := hs.toPhases.areaWrite h ho
  obtain ⟨-, hcur, hout, _, _, _, rfl⟩ := areaWrite_cases h ho
  refine of_onBus_none hp ?_ ?_
  · simp [reset, hs.fetch_eq_idle hcur, Phase.onBus]
  · simp [reset, hs.wb_eq_idle hout, Phase.onBus]

theorem step (hs : Fresh s) {o : Op T} (ho : s.CleanChange o) (h : s.step o = .ok s') :
    Fresh s' := by
  have hp := hs.toPhases.step h
  cases o with
  | writeTail v r =>
    have hv : Fresh { s with descTail := v } := { hs with }
    rcases writeTail_cases h with rfl | h
    · exact hv
    · exact hv.fetchDescriptors h
  | fetchDescriptors => exact hs.fetchDescriptors h
  | fetchDelayEvent r =>
    obtain ⟨-, rfl | ⟨-, rfl⟩⟩ := fetchDescriptors1_cases h
    · exact hs
    · exact { hp, hs with fetch_fresh := by simp [Phase.onBus] }
  | fetchEvent buf =>
    obtain ⟨d, -, -, -, rfl⟩ := fetchComplete_cases h
    exact { hp, hs with fetch_fresh := by simp [Phase.onBus] }
  | useDesc f =>
    obtain ⟨c, rest, -, rfl⟩ := useDesc_cases h
    exact { hs with }
  | modifyDesc f =>
    obtain ⟨c, rest, -, rfl⟩ := modifyDesc_cases h
    exact { hs with }
  | writeback a => exact hs.writeback h
  | wbDelayEvent r =>
    obtain ⟨-, rfl | ⟨-, -, rfl⟩⟩ := writeback1_cases h
    · exact hs
    · exact { hp, hs with wb_fresh := by simp [Phase.onBus] }
  | wbEvent f => exact hs.wbComplete h
  | reset =>
    cases h
    exact of_onBus_none hp ho.2.1 ho.2.2
  | writeHead v | writeLen v | writeBaseLow v | writeBaseHigh v => exact hs.areaWrite h trivial

end Fresh

theorem change_empties {o : Op T} (ho : o.IsChange) (h : s.step o = .ok s') :
    s'.cachePnt = 0 ∧ s'.usedCache = [] ∧ s'.unusedCache = [] := by
  by_cases ha : o.IsAreaWrite
  · obtain ⟨-, -, -, _, _, _, rfl⟩ := areaWrite_cases h ha
    exact ⟨rfl, rfl, rfl⟩
  · cases o with
    | reset =>
      cases h
      exact ⟨rfl, rfl, rfl⟩
    | _ => exact absurd ho ha

theorem CleanChange.descHead {o : Op T} (hc : s.CleanChange o) (ho : o.IsChange)
    (h : s.step o = .ok s') : s'.descHead = 0 := by
  cases o with
  | reset =>
    cases h
    exact hc.1
  | writeHead v | writeLen v | writeBaseLow v | writeBaseHigh v =>
    obtain ⟨-, -, -, rfl⟩ := areaChanged_cases h
    exact hc
  | _ => exact ho.elim

/-- In every run that changes the ring only to head 0 and resets it only with no DMA on the bus,
the cache agrees with the registers after each change, and no DMA issued before a change completes
after it. -/
theorem change_consistent {base len size : ℕ} {ops : List (Op T)} {o : Op T} {s s' : DescCache T}
    (hadm : Admits step CleanChange (init base len size) (ops ++ [o]))
    (hrun : run step (init base len size) ops = .ok s) (h : s.step o = .ok s') :
    (o.IsChange → s'.cachePnt = s'.descHead ∧ s'.usedCache = [] ∧ s'.unusedCache = [])
      ∧ ¬ s.StaleDma o := by
  obtain ⟨hops, hlast⟩ := admits_append hadm
  have hc : s.CleanChange o := (hlast s hrun).1
  have hs : Fresh s :=
    Admits.inv (fun _ _ _ hi hk hst => hi.step hk hst) hops (Fresh.init base len size) hrun
  refine ⟨fun ho => ?_, hs.not_stale o⟩
  obtain ⟨hp, hu, hn⟩ := change_empties ho h
  exact ⟨hp.trans (hc.descHead ho h).symm, hu, hn⟩

instance (s : DescCache T) : ∀ o, Decidable (s.CleanChange o)
  | .reset => inferInstanceAs (Decidable (_ ∧ _ ∧ _))
  | .writeHead val => inferInstanceAs (Decidable (val = 0))
  | .writeLen _ | .writeBaseLow _ | .writeBaseHigh _ =>
    inferInstanceAs (Decidable (s.descHead = 0))
  | .writeTail _ _ | .fetchDescriptors | .fetchDelayEvent _ | .fetchEvent _ | .useDesc _
  | .modifyDesc _ | .writeback _ | .wbDelayEvent _ | .wbEvent _ => .isTrue trivial

/-- A ring one slot into its lap is given up while a fetch is on the bus. -/
def interruptedOps : List (Op ℕ) :=
  [.writeTail 1 true, .fetchDelayEvent true, .fetchEvent [7], .useDesc id, .writeback 0,
    .wbDelayEvent true, .wbEvent false, .writeTail 2 true, .fetchDelayEvent true]

/-- After a reset the next fetch is from slot 0 with the head at slot 1, and the fetch issued before
the reset brings a descriptor into the emptied cache. -/
theorem reset_inconsistent : ∃ s s' s'', run step (init 4096 8 8) interruptedOps = .ok s
    ∧ s.step .reset = .ok s' ∧ s'.cachePnt ≠ s'.descHead
    ∧ s'.StaleDma (.fetchEvent [9]) ∧ s'.step (.fetchEvent [9]) = .ok s''
    ∧ s'.unusedCache = [] ∧ s''.unusedCache ≠ [] := by
  refine ⟨_, _, _, rfl, rfl, by decide, ⟨_, rfl, by decide⟩, rfl, rfl, by decide⟩

def cleanOps : List (Op ℕ) :=
  [.writeTail 1 true, .fetchDelayEvent true, .fetchEvent [7], .writeHead 0, .writeLen 128,
    .writeTail 1 true]

theorem change_consistent_cleanOps : ∃ s s', run step (init 4096 8 8) cleanOps = .ok s
    ∧ s.step .reset = .ok s' ∧ s.curFetching ≠ 0
    ∧ ((Op.reset : Op ℕ).IsChange →
      s'.cachePnt = s'.descHead ∧ s'.usedCache = [] ∧ s'.unusedCache = [])
    ∧ ¬ s.StaleDma .reset := by
  have hadm : Admits step CleanChange (init 4096 8 8) (cleanOps ++ [.reset]) := by decide
  exact ⟨_, _, rfl, rfl, by decide, change_consistent hadm rfl rfl⟩

end DescCache

end Gem5
