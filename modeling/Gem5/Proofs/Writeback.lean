import Gem5.Proofs.Engines

/-!
# A write-back with no alignment

`writeback(0)` is meant to write back everything used. When a write-back is out it has to be
remembered, and is not if the one out has alignment 0 itself. As long as no such call comes, and no
reset in the middle of a write-back, the descriptors of the last `writeback(0)` are written back.
-/

namespace Gem5

open List

namespace DescCache

open Machine

variable {T : Type} {s s' : DescCache T}

def WbIdle (s : DescCache T) : Prop := s.wbOut = 0 ∧ s.moreToWb = false

/-- The step loses no write-back: a `writeback(0)` finds no write-back out, or one it is remembered
behind, or one that has all used descriptors, and a reset finds none out. -/
def WbKept (s : DescCache T) : Op T → Prop
  | .writeback a => a = 0 →
      s.wbOut = 0 ∨ s.wbAlignment ≠ 0 ∨ s.moreToWb = true ∨ s.usedCache.length ≤ s.wbOut
  | .reset => s.WbIdle
  | _ => True

/-- The write-back engine will write the descriptor: it is in write-back, or is to follow. -/
def WbPending (s : DescCache T) (c : Cached T) : Prop :=
  c ∈ s.usedCache.take s.wbOut
    ∨ (c ∈ s.usedCache ∧ s.moreToWb = true
      ∧ (s.wbOut ≠ 0 ∧ s.wbAlignment = 0 ∨ s.wbOut = 0 ∧ s.descLen ≤ s.descHead))

def Written (s : DescCache T) (c : Cached T) : Prop := c ∈ s.writes.map Prod.snd

def WbNoted (s : DescCache T) : Prop := ∀ c ∈ s.wb0Used, s.Written c ∨ s.WbPending c

theorem WbNoted.written (hs : s.WbNoted) (hi : s.WbIdle) : ∀ c ∈ s.wb0Used, s.Written c := by
  intro c hc
  rcases hs c hc with hw | hp | ⟨-, hm, -⟩
  · exact hw
  · simp [hi.1, take_zero] at hp
  · simp [hi.2] at hm

theorem writeback_zero_pending (hk : s.WbKept (.writeback 0)) (h : s.writeback 0 = .ok s') :
    ∀ c ∈ s.usedCache, s'.WbPending c := by
  intro c hc
  rcases writeback_cases h with ⟨hout, -, rfl⟩ | ⟨hout, hlt, rfl⟩ | ⟨hout, hmax, rfl⟩
      | ⟨hout, hmax, -, rfl⟩
  · exact .inr ⟨hc, rfl, .inl ⟨hout, rfl⟩⟩
  · have hal : s.wbAlignment = 0 := by bv_omega
    rcases hk rfl with h0 | h0 | hm | hle
    · exact absurd h0 hout
    · exact absurd hal h0
    · exact .inr ⟨hc, hm, .inl ⟨hout, hal⟩⟩
    · refine .inl ?_
      rw [show (s.noteWb0 0).usedCache = s.usedCache from rfl,
        show (s.noteWb0 0).wbOut = s.wbOut from rfl, take_of_length_le hle]
      exact hc
  · have hpos : 0 < s.usedCache.length := length_pos_of_mem hc
    simp only [maxToWb, ne_eq, not_true_eq_false, if_false] at hmax
    split_ifs at hmax with hwrap
    · exact .inr ⟨hc, decide_eq_true hwrap, .inr ⟨hout, Nat.sub_eq_zero_iff_le.1 hmax⟩⟩
    · omega
  · by_cases hwrap : s.descLen ≤ s.usedCache.length + s.descHead
    · exact .inr ⟨hc, decide_eq_true hwrap, .inl ⟨hmax, rfl⟩⟩
    · refine .inl ?_
      have hall : s.maxToWb 0 = s.usedCache.length := by simp [maxToWb, hwrap]
      show c ∈ s.usedCache.take (s.maxToWb 0)
      rwa [hall, take_length]

theorem writeback_pending {a : BitVec 64} (h : s.writeback a = .ok s') {c : Cached T}
    (hc : s.WbPending c) : s'.WbPending c := by
  rcases writeback_cases h with ⟨hout, hlt, rfl⟩ | ⟨-, -, rfl⟩ | ⟨hout, -, rfl⟩
      | ⟨hout, hmax, -, rfl⟩
  · rcases hc with ht | ⟨-, -, ⟨-, hal⟩ | ⟨h0, -⟩⟩
    · exact .inl ht
    · rw [hal] at hlt
      exact absurd hlt (by bv_omega)
    · exact absurd h0 hout
  · exact hc
  · rcases hc with ht | ⟨hu, -, ⟨h0, -⟩ | ⟨-, hh⟩⟩
    · simp [hout, take_zero] at ht
    · exact absurd hout h0
    · have hwrap : s.descLen ≤ s.usedCache.length + s.descHead := by omega
      exact .inr ⟨hu, decide_eq_true hwrap, .inr ⟨hout, hh⟩⟩
  · rcases hc with ht | ⟨-, -, ⟨h0, -⟩ | ⟨-, hh⟩⟩
    · simp [hout, take_zero] at ht
    · exact absurd hout h0
    · have hwrap : s.descLen ≤ s.usedCache.length + s.descHead := by omega
      rw [maxToWb, if_pos hwrap] at hmax
      omega

theorem writeback_frame {a : BitVec 64} (h : s.writeback a = .ok s') :
    s'.writes = s.writes ∧ s'.wb0Used = if a = 0 then s.usedCache else s.wb0Used := by
  rcases writeback_cases h with ⟨-, -, rfl⟩ | ⟨-, -, rfl⟩ | ⟨-, -, rfl⟩ | ⟨-, -, -, rfl⟩
    <;> exact ⟨rfl, rfl⟩

theorem WbNoted.writeback {a : BitVec 64} (hs : a ≠ 0 → s.WbNoted)
    (hk : s.WbKept (.writeback a)) (h : s.writeback a = .ok s') : s'.WbNoted := by
  obtain ⟨hw, hn⟩ := writeback_frame h
  intro c hc
  rw [hn] at hc
  unfold Written
  rw [hw]
  split_ifs at hc with ha
  · subst ha
    exact .inr (writeback_zero_pending hk h c hc)
  · exact (hs ha c hc).imp_right (writeback_pending h)

theorem WbNoted.fetchDescriptors (hs : s.WbNoted) (h : s.fetchDescriptors = .ok s') :
    s'.WbNoted := by
  rcases fetchDescriptors_cases h with rfl | ⟨-, -, -, rfl⟩ <;> exact hs

theorem WbNoted.wbDone (hs : s.WbNoted) (hh : WbHeld s) {d : WbDma T} (hd : s.wb = .dma d) :
    ∀ c ∈ s.wb0Used, (s.wbDone d).Written c ∨ (s.moreToWb = true ∧ s.wbAlignment = 0) := by
  intro c hc
  have happ : (s.wbDone d).writes.map Prod.snd
      = s.writes.map Prod.snd ++ s.usedCache.take s.wbOut := by
    rw [← hh.map_snd_written hd, ← map_append]
    rfl
  unfold Written
  rw [happ]
  rcases hs c hc with hw | ht | ⟨-, hm, ⟨-, hal⟩ | ⟨h0, -⟩⟩
  · exact .inl (mem_append_left _ hw)
  · exact .inl (mem_append_right _ ht)
  · exact .inr ⟨hm, hal⟩
  · simp [hh.wb_eq_idle h0] at hd

theorem WbNoted.wbComplete (hs : s.WbNoted) (hh : WbHeld s) {f : Bool}
    (h : s.wbComplete f = .ok s') : s'.WbNoted := by
  obtain ⟨d, t, hd, -, ht, h⟩ := wbComplete_cases h
  have hdone := hs.wbDone hh hd
  have hti : t.WbNoted := by
    rcases wbMore_cases ht with ⟨-, ht⟩ | ⟨hm, rfl⟩
    · refine WbNoted.writeback (fun ha c hc => ?_) (fun _ => .inl rfl) ht
      rcases hdone c hc with hw | ⟨-, hal⟩
      · exact .inl hw
      · exact absurd hal ha
    · intro c hc
      rcases hdone c hc with hw | ⟨hm', -⟩
      · exact .inl hw
      · simp [show (s.wbDone d).moreToWb = s.moreToWb from rfl, hm'] at hm
  rcases h with rfl | h
  · exact hti
  · exact hti.fetchDescriptors h

theorem WbNoted.useDesc (hs : s.WbNoted) (hh : WbHeld s) {f : T → T}
    (h : s.useDesc f = .ok s') : s'.WbNoted := by
  obtain ⟨c₀, rest, -, rfl⟩ := useDesc_cases h
  intro c hc
  rcases hs c hc with hw | ht | ⟨hu, hr⟩
  · exact .inl hw
  · refine .inr (.inl ?_)
    show c ∈ (s.usedCache ++ _).take s.wbOut
    rwa [take_append_of_le_length hh.wbOut_le]
  · exact .inr (.inr ⟨mem_append_left _ hu, hr⟩)

theorem WbNoted.of_written (h : ∀ c ∈ s.wb0Used, s.Written c) : s.WbNoted :=
  fun c hc => .inl (h c hc)

theorem WbNoted.areaWrite (hs : s.WbNoted) {o : Op T} (h : s.step o = .ok s')
    (ho : o.IsAreaWrite) : s'.WbNoted := by
  obtain ⟨hu, -, -, _, _, _, rfl⟩ := areaWrite_cases h ho
  refine WbNoted.of_written fun c hc => ?_
  rcases hs c hc with hw | ht | ⟨hc, -⟩
  · exact hw
  · simp [hu, take_nil] at ht
  · simp [hu] at hc

theorem WbNoted.step (hs : s.WbNoted) (hh : WbHeld s) {o : Op T} (hk : s.WbKept o)
    (h : s.step o = .ok s') : s'.WbNoted := by
  cases o with
  | writeTail v r =>
    rcases writeTail_cases h with rfl | h
    · exact hs
    · exact WbNoted.fetchDescriptors (s := { s with descTail := v }) hs h
  | fetchDescriptors => exact hs.fetchDescriptors h
  | fetchDelayEvent r =>
    obtain ⟨-, rfl | ⟨-, rfl⟩⟩ := fetchDescriptors1_cases h <;> exact hs
  | fetchEvent buf =>
    obtain ⟨d, -, -, -, rfl⟩ := fetchComplete_cases h
    exact hs
  | useDesc f => exact hs.useDesc hh h
  | modifyDesc f =>
    obtain ⟨c, rest, -, rfl⟩ := modifyDesc_cases h
    exact hs
  | writeback a => exact WbNoted.writeback (fun _ => hs) hk h
  | wbDelayEvent r =>
    obtain ⟨-, rfl | ⟨-, -, rfl⟩⟩ := writeback1_cases h <;> exact hs
  | wbEvent f => exact hs.wbComplete hh h
  | reset =>
    cases h
    exact WbNoted.of_written (hs.written hk)
  | writeHead v | writeLen v | writeBaseLow v | writeBaseHigh v => exact hs.areaWrite h trivial

theorem WbNoted.run {base len size : ℕ} {ops : List (Op T)}
    (hops : Admits DescCache.step WbKept (init base len size) ops)
    (h : run DescCache.step (init base len size) ops = .ok s) : WbHeld s ∧ s.WbNoted := by
  refine Admits.inv (I := fun s => WbHeld s ∧ s.WbNoted) (fun s o s' hi hk hst => ?_) hops
    ⟨WbHeld.init base len size, fun c hc => by cases hc⟩ h
  refine ⟨hi.1.step (fun ho => ?_) hst, hi.2.step hi.1 hk hst⟩
  subst ho
  exact hk.1

/-- In every run whose steps lose no write-back, the descriptors that were used at the last
`writeback(0)` are written back whenever the engine is idle. -/
theorem writeback_written {base len size : ℕ} {ops : List (Op T)}
    (hops : Admits step WbKept (init base len size) ops) {s : DescCache T}
    (h : run step (init base len size) ops = .ok s) (hidle : s.WbIdle) :
    ∀ c ∈ s.wb0Used, c ∈ s.writes.map Prod.snd :=
  (WbNoted.run hops h).2.written hidle

instance (s : DescCache T) : Decidable s.WbIdle :=
  inferInstanceAs (Decidable (_ ∧ _))

instance (s : DescCache T) : ∀ o, Decidable (s.WbKept o)
  | .writeback a => inferInstanceAs (Decidable (a = 0 → _))
  | .reset => inferInstanceAs (Decidable s.WbIdle)
  | .writeTail _ _ | .fetchDescriptors | .fetchDelayEvent _ | .fetchEvent _ | .useDesc _
  | .modifyDesc _ | .wbDelayEvent _ | .wbEvent _ | .writeHead _ | .writeLen _
  | .writeBaseLow _ | .writeBaseHigh _ => .isTrue trivial

def rememberedOps : List (Op ℕ) :=
  [.writeTail 6 true, .fetchDelayEvent true, .fetchEvent [1, 2, 3, 4, 5, 6], .useDesc id,
    .useDesc id, .useDesc id, .useDesc id, .useDesc id, .writeback 3, .useDesc id, .writeback 0,
    .wbDelayEvent true, .wbEvent false, .wbDelayEvent true, .wbEvent false]

theorem writeback_written_rememberedOps :
    ∃ s, run step (init 4096 8 8) rememberedOps = .ok s
      ∧ (s.WbIdle ∧ s.wb0Used ≠ []) ∧ ∀ c ∈ s.wb0Used, c ∈ s.writes.map Prod.snd := by
  have hadm : Admits step WbKept (init 4096 8 8) rememberedOps := by decide
  have hend : Ends (run step (init 4096 8 8) rememberedOps)
      fun s => s.WbIdle ∧ s.wb0Used ≠ [] := by decide
  obtain ⟨s, hs, hidle⟩ := hend.exists
  exact ⟨s, hs, hidle, writeback_written hadm hs hidle.1⟩

def lostOps : List (Op ℕ) :=
  [.writeTail 2 true, .fetchDelayEvent true, .fetchEvent [7, 8], .useDesc id, .writeback 0,
    .useDesc id, .writeback 0, .wbDelayEvent true, .wbEvent true]

/-- The descriptor used between two calls of `writeback(0)` is not written back by the second. -/
theorem writeback_lost : ∃ s, run step (init 4096 8 8) lostOps = .ok s
    ∧ s.WbIdle ∧ ∃ c ∈ s.wb0Used, c ∉ s.writes.map Prod.snd := by
  have hend : Ends (run step (init 4096 8 8) lostOps)
      fun s => s.WbIdle ∧ ∃ c ∈ s.wb0Used, c ∉ s.writes.map Prod.snd := by decide
  exact hend.exists

end DescCache

end Gem5
