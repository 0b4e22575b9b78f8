import Gem5.DescCache

/-!
# What each operation of the descriptor cache does

One lemma per operation, with all that a successful call says of the state before and after. The
invariants of the cache are proved from these.
-/

namespace Gem5

namespace DescCache

variable {r : Bool}

open Machine

variable {T : Type} {s s' : DescCache T}

theorem alignDown_le (n : ℕ) (mask : BitVec 64) : alignDown n mask ≤ n := by
  unfold alignDown
  rw [BitVec.toNat_and, BitVec.toNat_ofNat]
  exact Nat.and_le_left.trans (Nat.mod_le _ _)

theorem maxToWb_le (s : DescCache T) (a : BitVec 64) : s.maxToWb a ≤ s.usedCache.length := by
  unfold maxToWb
  have := alignDown_le s.usedCache.length a
  split_ifs <;> omega

theorem maxToWb_lap (h : s.descHead < s.descLen) (a : BitVec 64) :
    s.descHead + s.maxToWb a ≤ s.descLen := by
  have := s.maxToWb_le a
  by_cases hw : s.descLen ≤ s.usedCache.length + s.descHead
  · rw [maxToWb, if_pos hw]
    omega
  · omega

theorem maxToFetch_le :
    s.maxToFetch ≤ s.size - s.usedCache.length - s.unusedCache.length
      ∧ s.maxToFetch ≤
        if s.cachePnt ≤ s.descTail then s.descTail - s.cachePnt else s.descLen - s.cachePnt :=
  ⟨min_le_right _ _, min_le_left _ _⟩

/-- The cache after `writeback` with no write-back out, before one is started. -/
def wbAsked (s : DescCache T) (a : BitVec 64) : DescCache T :=
  { s.noteWb0 a with
    moreToWb := decide (s.descLen ≤ s.usedCache.length + s.descHead)
    wbAlignment := a }

theorem writeback_cases {a : BitVec 64} (h : s.writeback a = .ok s') :
    (s.wbOut ≠ 0 ∧ a < s.wbAlignment
      ∧ s' = { s.noteWb0 a with moreToWb := true, wbAlignment := a })
    ∨ (s.wbOut ≠ 0 ∧ ¬ a < s.wbAlignment ∧ s' = s.noteWb0 a)
    ∨ (s.wbOut = 0 ∧ s.maxToWb a = 0 ∧ s' = s.wbAsked a)
    ∨ (s.wbOut = 0 ∧ s.maxToWb a ≠ 0 ∧ s.wb.isIdle = true
        ∧ s' = { s.wbAsked a with wbOut := s.maxToWb a, wb := .delay }) := by
  simp only [writeback] at h
  split_ifs at h with h1 h2 h3
  · cases h
    exact .inl ⟨h1, h2, rfl⟩
  · cases h
    exact .inr (.inl ⟨h1, h2, rfl⟩)
  · cases h
    exact .inr (.inr (.inl ⟨not_not.1 h1, h3, rfl⟩))
  · obtain ⟨_, hr, rfl⟩ := bind_pure_ok.1 h
    exact .inr (.inr (.inr ⟨not_not.1 h1, h3, require_ok.1 hr, rfl⟩))

theorem writeback1_cases (h : s.writeback1 r = .ok s') :
    s.wb = .delay ∧ (s' = s ∨ (s.wbOut ≠ 0 ∧ s.wbOut ≤ s.usedCache.length
      ∧ s' = { s with wb := .dma ⟨s.epoch, s.descBase + s.descHead * descBytes,
          s.usedCache.take s.wbOut⟩ })) := by
  unfold writeback1 at h
  split at h
  · rename_i hd
    split_ifs at h
    · simp only [bind_ok, require_ok, inBounds_ok] at h
      obtain ⟨_, -, _, hle, _, hne, h⟩ := h
      cases h
      exact ⟨hd, .inr ⟨hne, hle, rfl⟩⟩
    · cases h
      exact ⟨hd, .inl rfl⟩
  · cases h

theorem fetchDescriptors_cases (h : s.fetchDescriptors = .ok s') :
    s' = s ∨ (s.curFetching = 0 ∧ s.maxToFetch ≠ 0 ∧ s.fetch.isIdle = true
      ∧ s' = { s with curFetching := s.maxToFetch, fetch := .delay }) := by
  unfold fetchDescriptors at h
  split_ifs at h with h1 h2
  · cases h
    exact .inl rfl
  · cases h
    exact .inl rfl
  · obtain ⟨_, hr, rfl⟩ := bind_pure_ok.1 h
    exact .inr ⟨not_not.1 h1, h2, require_ok.1 hr, rfl⟩

theorem fetchDescriptors1_cases (h : s.fetchDescriptors1 r = .ok s') :
    s.fetch = .delay ∧ (s' = s ∨ (s.curFetching ≠ 0
      ∧ s' = { s with fetch := .dma ⟨s.epoch, s.descBase + s.cachePnt * descBytes⟩ })) := by
  unfold fetchDescriptors1 at h
  split at h
  · rename_i hd
    split_ifs at h
    · simp only [bind_ok, require_ok] at h
      obtain ⟨_, hne, h⟩ := h
      cases h
      exact ⟨hd, .inr ⟨hne, rfl⟩⟩
    · cases h
      exact ⟨hd, .inl rfl⟩
  · cases h

theorem fetchComplete_cases {buf : List T} (h : s.fetchComplete buf = .ok s') :
    ∃ d, s.fetch = .dma d ∧ buf.length = s.curFetching ∧ s.cachePnt + s.curFetching ≤ s.descLen
      ∧ s' = { s with
        unusedCache := s.unusedCache ++ s.fetched d.addr buf
        cachePnt := if s.cachePnt + s.curFetching = s.descLen then 0
          else s.cachePnt + s.curFetching
        curFetching := 0
        fetch := .idle
        reads := s.reads ++ s.fetched d.addr buf } := by
  unfold fetchComplete at h
  split at h
  · rename_i d hd
    split_ifs at h with hlen
    simp only [bind_ok, require_ok] at h
    obtain ⟨_, hle, h⟩ := h
    cases h
    exact ⟨d, hd, hlen, hle, rfl⟩
  · cases h

theorem wbMore_cases (h : s.wbMore = .ok s') :
    (s.moreToWb = true ∧ writeback { s with moreToWb := false } s.wbAlignment = .ok s')
      ∨ (s.moreToWb = false ∧ s' = s) := by
  unfold wbMore at h
  split_ifs at h with hm
  · exact .inl ⟨hm, h⟩
  · cases h
    exact .inr ⟨by simpa using hm, rfl⟩

/-- A completed write-back drops its descriptors, asks for the rest if there is more to write back,
and may fetch. -/
theorem wbComplete_cases {f : Bool} (h : s.wbComplete f = .ok s') :
    ∃ d t, s.wb = .dma d ∧ s.wbOut ≤ s.usedCache.length ∧ (s.wbDone d).wbMore = .ok t
      ∧ (s' = t ∨ t.fetchDescriptors = .ok s') := by
  unfold wbComplete at h
  split at h
  · rename_i d hd
    simp only [bind_ok, require_ok] at h
    obtain ⟨_, hle, t, ht, h⟩ := h
    refine ⟨d, t, hd, hle, ht, ?_⟩
    split_ifs at h
    · exact .inr h
    · cases h
      exact .inl rfl
  · cases h

theorem useDesc_cases {f : T → T} (h : s.useDesc f = .ok s') :
    ∃ c rest, s.unusedCache = c :: rest ∧ s' = { s with
      unusedCache := rest
      usedCache := s.usedCache ++ [{ c with desc := f c.desc }] } := by
  unfold useDesc at h
  split at h
  · cases h
  · rename_i c rest hc
    cases h
    exact ⟨c, rest, hc, rfl⟩

theorem modifyDesc_cases {f : T → T} (h : s.modifyDesc f = .ok s') :
    ∃ c rest, s.unusedCache = c :: rest
      ∧ s' = { s with unusedCache := { c with desc := f c.desc } :: rest } := by
  unfold modifyDesc at h
  split at h
  · cases h
  · rename_i c rest hc
    cases h
    exact ⟨c, rest, hc, rfl⟩

theorem areaChanged_cases (h : s.areaChanged = .ok s') :
    s.usedCache = [] ∧ s.curFetching = 0 ∧ s.wbOut = 0 ∧ s' = s.reset := by
  unfold areaChanged at h
  split_ifs at h with hc
  cases h
  simp only [not_or, Nat.not_lt, Nat.le_zero, List.length_eq_zero_iff, not_not, gt_iff_lt] at hc
  exact ⟨hc.1, hc.2.1, hc.2.2, rfl⟩

/-- The writes of the head, the length and the base of the ring. -/
def Op.IsAreaWrite : Op T → Prop
  | .writeHead _ | .writeLen _ | .writeBaseLow _ | .writeBaseHigh _ => True
  | _ => False

theorem areaWrite_cases {o : Op T} (h : s.step o = .ok s') (ho : o.IsAreaWrite) :
    s.usedCache = [] ∧ s.curFetching = 0 ∧ s.wbOut = 0
      ∧ ∃ base head len,
        s' = reset { s with descBase := base, descHead := head, descLen := len } := by
  cases o with
  | writeHead v | writeLen v | writeBaseLow v | writeBaseHigh v =>
    obtain ⟨h1, h2, h3, rfl⟩ := areaChanged_cases h
    exact ⟨h1, h2, h3, _, _, _, rfl⟩
  | _ => exact ho.elim

theorem writeTail_cases {v : ℕ} (h : s.step (.writeTail v r) = .ok s') :
    s' = { s with descTail := v } ∨ fetchDescriptors { s with descTail := v } = .ok s' := by
  simp only [step] at h
  split_ifs at h
  · exact .inr h
  · cases h
    exact .inl rfl

/-- No descriptor was fetched or used. -/
structure Untouched (s s' : DescCache T) : Prop where
  unused : s'.unusedCache = s.unusedCache
  reads : s'.reads = s.reads

namespace Untouched

theorem refl (s : DescCache T) : Untouched s s := ⟨rfl, rfl⟩

theorem trans {t : DescCache T} (h : Untouched s s') (h' : Untouched s' t) : Untouched s t :=
  ⟨h'.unused.trans h.unused, h'.reads.trans h.reads⟩

theorem writeback {a : BitVec 64} (h : s.writeback a = .ok s') : Untouched s s' := by
  rcases writeback_cases h with ⟨-, -, rfl⟩ | ⟨-, -, rfl⟩ | ⟨-, -, rfl⟩ | ⟨-, -, -, rfl⟩
    <;> exact ⟨rfl, rfl⟩

theorem fetchDescriptors (h : s.fetchDescriptors = .ok s') : Untouched s s' := by
  rcases fetchDescriptors_cases h with rfl | ⟨-, -, -, rfl⟩
  · exact .refl s'
  · exact ⟨rfl, rfl⟩

theorem fetchDescriptors1 (h : s.fetchDescriptors1 r = .ok s') : Untouched s s' := by
  obtain ⟨-, rfl | ⟨-, rfl⟩⟩ := fetchDescriptors1_cases h
  · exact .refl s'
  · exact ⟨rfl, rfl⟩

theorem writeback1 (h : s.writeback1 r = .ok s') : Untouched s s' := by
  obtain ⟨-, rfl | ⟨-, -, rfl⟩⟩ := writeback1_cases h
  · exact .refl s'
  · exact ⟨rfl, rfl⟩

theorem wbMore (h : s.wbMore = .ok s') : Untouched s s' := by
  rcases wbMore_cases h with ⟨-, h⟩ | ⟨-, rfl⟩
  · exact ⟨(writeback h).unused, (writeback h).reads⟩
  · exact .refl s'

theorem wbComplete {f : Bool} (h : s.wbComplete f = .ok s') : Untouched s s' := by
  obtain ⟨d, t, -, -, ht, rfl | h⟩ := wbComplete_cases h
  · exact ⟨(wbMore ht).unused, (wbMore ht).reads⟩
  · have hu := (wbMore ht).trans (fetchDescriptors h)
    exact ⟨hu.unused, hu.reads⟩

theorem writeTail {v : ℕ} (h : s.step (.writeTail v r) = .ok s') : Untouched s s' := by
  rcases writeTail_cases h with rfl | h
  · exact ⟨rfl, rfl⟩
  · exact ⟨(fetchDescriptors h).unused, (fetchDescriptors h).reads⟩

end Untouched

theorem reads_le_step {o : Op T} (h : s.step o = .ok s') : s.reads.length ≤ s'.reads.length := by
  have harea : o.IsAreaWrite → s.reads.length ≤ s'.reads.length := fun ho => by
    obtain ⟨-, -, -, _, _, _, rfl⟩ := areaWrite_cases h ho
    exact le_rfl
  cases o with
  | writeTail v r => rw [(Untouched.writeTail h).reads]
  | fetchDescriptors => rw [(Untouched.fetchDescriptors h).reads]
  | fetchDelayEvent r => rw [(Untouched.fetchDescriptors1 h).reads]
  | fetchEvent buf =>
    obtain ⟨d, -, -, -, rfl⟩ := fetchComplete_cases h
    simp
  | useDesc f =>
    obtain ⟨c, rest, -, rfl⟩ := useDesc_cases h
    exact le_rfl
  | modifyDesc f =>
    obtain ⟨c, rest, -, rfl⟩ := modifyDesc_cases h
    exact le_rfl
  | writeback a => rw [(Untouched.writeback h).reads]
  | wbDelayEvent r => rw [(Untouched.writeback1 h).reads]
  | wbEvent f => rw [(Untouched.wbComplete h).reads]
  | reset =>
    cases h
    exact le_rfl
  | writeHead v | writeLen v | writeBaseLow v | writeBaseHigh v => exact harea trivial

end DescCache

end Gem5
