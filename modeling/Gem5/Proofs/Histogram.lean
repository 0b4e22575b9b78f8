import Gem5.Histogram

/-!
# The buckets of the histogram count its samples

Numbered from the one that starts at 0, the buckets `2 * i` and `2 * i + 1` are put together into
bucket `i` by every growth (`Grown.regrow`). Only one to both sides may leave a bucket behind: its
loop downwards ends too early if the number of buckets is 3 modulo 4.
-/

namespace Gem5

open List Function

namespace HistStor

open Machine

variable {n k size : ℕ} {log : List (ℤ × ℤ)} {s s' : HistStor} {c : ℤ → ℤ} {o o' d i p : ℤ}

/-- How often the samples from `lo` up to `hi` were counted. -/
def weight (log : List (ℤ × ℤ)) (lo hi : ℤ) : ℤ :=
  (log.map fun x => if lo ≤ x.1 ∧ x.1 < hi then x.2 else 0).sum

/-- Every sample falls into a bucket, and every bucket counts the samples that fall into it. -/
structure Counted (s : HistStor) : Prop where
  range : s.maxBucket + s.bucketSize = s.minBucket + s.size * s.bucketSize
  within : ∀ x ∈ s.log, s.minBucket ≤ x.1 ∧ x.1 < s.maxBucket + s.bucketSize
  count : ∀ i, 0 ≤ i → i < s.size → s.cvec i
    = weight s.log (s.minBucket + i * s.bucketSize) (s.minBucket + (i + 1) * s.bucketSize)

theorem weight_add {l m h : ℤ} (hl : l ≤ m) (hh : m ≤ h) :
    weight log l h = weight log l m + weight log m h := by
  rw [weight, weight, weight, ← sum_map_add]
  congr 1
  refine map_congr_left fun x _ => ?_
  split_ifs <;> omega

theorem weight_eq_zero {lo hi : ℤ} (h : ∀ x ∈ log, x.1 < lo ∨ hi ≤ x.1) : weight log lo hi = 0 := by
  refine sum_eq_zero fun w hw => ?_
  obtain ⟨x, hx, rfl⟩ := mem_map.1 hw
  have := h x hx
  exact if_neg (by omega)

/-- The bucket at `i` gets what is in the pair it has come to, which no earlier turn has changed. -/
theorem merge_eq (hd : d = 1 ∨ d = -1) (hp : 0 ≤ d * (p - i))
    (hz : ∀ j : ℤ, j < 0 ∨ size ≤ j → c j = 0)
    (hb : ∀ t : ℕ, t < k → 0 ≤ i + d * t ∧ i + d * t < size ∧ 0 ≤ p + 2 * d * t
      ∧ p + 2 * d * t < size) :
    ∃ c', merge size d k i p c = .ok (c', p + 2 * d * k)
      ∧ ∀ j, c' j = if 0 ≤ d * (j - i) ∧ d * (j - i) < k then
        c (p + 2 * (j - i)) + c (p + 2 * (j - i) + d) else c j := by
  induction k generalizing i p c with
  | zero =>
    refine ⟨c, by simp [merge], fun j => (if_neg ?_).symm⟩
    omega
  | succ k ih =>
    have h0 := hb 0 (Nat.succ_pos k)
    simp only [Nat.cast_zero, mul_zero, add_zero] at h0
    have hne : p + d ≠ i := by rcases hd with rfl | rfl <;> omega
    have hsum : (if 0 ≤ p + d ∧ p + d < size then update
          (update c i (c p)) i (update c i (c p) i
            + update c i (c p) (p + d))
        else update c i (c p)) = update c i (c p + c (p + d)) := by
      split_ifs with hin
      · simp [update_of_ne hne]
      · rw [hz (p + d) (by omega), add_zero]
    obtain ⟨c', hc', hval⟩ := ih (i := i + d) (p := p + 2 * d)
      (c := update c i (c p + c (p + d)))
      (by rcases hd with rfl | rfl <;> omega)
      (fun j hj => by rw [update_of_ne (by omega)]; exact hz j hj)
      (fun t ht => by
        have := hb (t + 1) (by omega)
        push_cast at this
        rcases hd with rfl | rfl <;> omega)
    refine ⟨c', ?_, fun j => ?_⟩
    · rw [merge, (inBounds_ok (u := ())).2 h0]
      simp only [ok_bind]
      rw [hsum, hc']
      congr 2
      push_cast
      ring
    · rw [hval, show p + 2 * d + 2 * (j - (i + d)) = p + 2 * (j - i) by ring]
      by_cases hj : j = i
      · subst hj
        rw [if_neg (by rcases hd with rfl | rfl <;> omega), update_self,
          if_pos (by simp), sub_self, mul_zero, add_zero]
      · rw [update_of_ne hj]
        by_cases hin : 0 ≤ d * (j - i) ∧ d * (j - i) < (k + 1 : ℕ)
        · rw [if_pos (by rcases hd with rfl | rfl <;> omega), if_pos hin,
            update_of_ne (by rcases hd with rfl | rfl <;> omega),
            update_of_ne (by rcases hd with rfl | rfl <;> omega)]
        · rw [if_neg (by rcases hd with rfl | rfl <;> omega), if_neg hin]

/-- The samples of `log` are counted in `n` buckets, and the one with number `o` starts at 0. -/
structure Grown (n : ℕ) (log : List (ℤ × ℤ)) (o : ℤ) (s : HistStor) : Prop where
  size : s.size = n
  samples : s.log = log
  two : 2 ≤ n
  pos : 0 < s.bucketSize
  origin : o = 0 ∨ o = n / 2
  min : s.minBucket = -(o * s.bucketSize)
  max : s.maxBucket + s.bucketSize = (n - o) * s.bucketSize
  within : ∀ x ∈ log, -(o * s.bucketSize) ≤ x.1 ∧ x.1 < (n - o) * s.bucketSize
  count : ∀ i, s.cvec i = weight log ((i - o) * s.bucketSize) ((i - o + 1) * s.bucketSize)

namespace Grown

theorem counted (h : Grown n log o s) : Counted s where
  range := by
    rw [h.max, h.min, h.size]
    ring
  within := by
    rw [h.samples, h.min, h.max]
    exact h.within
  count i _ _ := by
    rw [h.count, h.min, h.samples]
    congr 1 <;> ring

theorem outside (h : Grown n log o s) : ∀ i : ℤ, i < 0 ∨ n ≤ i → s.cvec i = 0 := by
  intro i hi
  rw [h.count]
  refine weight_eq_zero fun x hx => ?_
  obtain ⟨hlo, hhi⟩ := h.within x hx
  have hpos := h.pos
  rcases hi with hi | hi
  · exact .inr (by nlinarith)
  · exact .inl (by nlinarith)

theorem regrow (h : Grown n log o s) (hsize : s'.size = s.size) (hlog : s'.log = s.log)
    (hbucket : s'.bucketSize = s.bucketSize * 2) (ho : o' = 0 ∨ o' = n / 2) (hlow : o ≤ 2 * o')
    (hhigh : n - o ≤ 2 * (n - o')) (hmin : s'.minBucket = -(o' * s'.bucketSize))
    (hmax : s'.maxBucket + s'.bucketSize = (n - o') * s'.bucketSize)
    (hc : ∀ i, s'.cvec i = s.cvec (o + 2 * (i - o')) + s.cvec (o + 2 * (i - o') + 1)) :
    Grown n log o' s' := by
  have hpos := h.pos
  refine ⟨hsize.trans h.size, hlog.trans h.samples, h.two, by omega, ho, hmin, hmax, ?_, ?_⟩
  · intro x hx
    obtain ⟨hlo, hhi⟩ := h.within x hx
    rw [hbucket]
    constructor <;> nlinarith
  · intro i
    rw [hc, h.count, h.count, hbucket]
    refine Eq.symm ((weight_add (m := (2 * (i - o') + 1) * s.bucketSize) ?_ ?_).trans ?_)
    · nlinarith
    · nlinarith
    · congr 2 <;> ring

theorem growUp (h : Grown n log 0 s) :
    Ends s.growUp fun s' => Grown n log 0 s' ∧ s'.bucketSize = s.bucketSize * 2 := by
  obtain rfl := h.size
  have hout := h.outside
  have hmin := h.min
  have hmax := h.max
  obtain ⟨c, hc, hval⟩ := merge_eq (d := 1) (i := 0) (p := 0) (k := (s.size + 1) / 2)
    (.inl rfl) (by omega) hout (fun t ht => by omega)
  simp only [HistStor.growUp, hc, ok_bind]
  rw [require_of (by omega)]
  refine .of_ok rfl ⟨h.regrow rfl rfl rfl (.inl rfl) le_rfl (by omega) ?_ ?_ fun i => ?_, rfl⟩
  · linarith
  · linarith
  · simp only [clear, hval]
    split_ifs with h₁ h₂
    · rw [hout _ (by omega), hout _ (by omega), add_zero]
    · rfl
    · rw [hout _ (by omega), hout _ (by omega), hout _ (by omega), add_zero]

theorem growDown (h : Grown n log 0 s) : Ends s.growDown fun s' => Grown n log (n / 2) s'
    ∧ s'.bucketSize = s.bucketSize * 2 ∧ s'.cvec 0 = 0 := by
  obtain rfl := h.size
  have htwo := h.two
  have hout := h.outside
  have hm := h.max
  simp only [HistStor.growDown, decide_eq_true_eq]
  set pair := if (s.size - 1) % 2 = 0 then s.size - 2 else s.size - 1 with hdef
  set less := if (s.size - 1) % 2 = 0 then 0 else s.bucketSize with hless
  have hpair : pair + 1 = 2 * (s.size / 2) := by split_ifs at hdef <;> omega
  have hmax : s.maxBucket + less = 2 * (s.size / 2 : ℤ) * s.bucketSize := by
    split_ifs at hless with heven
    · rw [show (s.size : ℤ) = 2 * (s.size / 2 : ℤ) + 1 by omega] at hm
      linarith
    · rw [show (s.size : ℤ) = 2 * (s.size / 2 : ℤ) by omega] at hm
      linarith
  obtain ⟨c, hc, hval⟩ := merge_eq (d := -1) (i := pair) (p := pair)
    (k := pair + 1 - s.size / 2) (.inr rfl) (by omega) hout (fun t ht => by omega)
  rw [hc, ok_bind]
  refine .of_ok rfl ⟨h.regrow rfl rfl rfl (.inr rfl) (by omega) (by omega) ?_ ?_ fun i => ?_, rfl,
    if_pos (by omega)⟩
  · linarith
  · linarith
  · simp only [clear, hval]
    split_ifs with h₁ h₂
    · rw [hout _ (by omega), hout _ (by omega), add_zero]
    · rw [add_comm]
      congr 2 <;> omega
    · by_cases hi : i = 2 * (s.size / 2 : ℤ)
      · rw [hout (_ + 1) (by omega), add_zero]
        congr 1
        omega
      · rw [hout i (by omega), hout _ (by omega), hout _ (by omega), add_zero]

theorem growOut (h : Grown n log (n / 2) s) (h0 : n % 4 = 3 → s.cvec 0 = 0) :
    Ends s.growOut fun s' => (Grown n log (n / 2) s' ∧ (n % 4 = 3 → s'.cvec 0 = 0))
      ∧ s'.bucketSize = s.bucketSize * 2 := by
  obtain rfl := h.size
  have htwo := h.two
  have hout := h.outside
  have hmin := h.min
  have hmax := h.max
  obtain ⟨c, hc, hval⟩ := merge_eq (d := -1) (i := (s.size / 2 : ℕ) - 1)
    (p := (s.size / 2 : ℕ) - 1) (k := s.size / 2 - (s.size - s.size / 2) / 2) (.inr rfl)
    (by omega) hout (fun t ht => by omega)
  have hout' : ∀ j : ℤ, j < 0 ∨ s.size ≤ j →
      clear 0 ((s.size - s.size / 2) / 2 : ℕ) c j = 0 := fun j hj => by
    rw [clear, if_neg (by omega), hval, if_neg (by omega), hout j hj]
  have hhigh : ∀ j : ℤ, s.size / 2 ≤ j →
      clear 0 ((s.size - s.size / 2) / 2 : ℕ) c j = s.cvec j := fun j hj => by
    rw [clear, if_neg (by omega), hval, if_neg (by omega)]
  obtain ⟨c', hc', hval'⟩ := merge_eq (d := 1) (i := (s.size / 2 : ℕ)) (p := (s.size / 2 : ℕ))
    (k := s.size / 2 + (s.size - s.size / 2 + 1) / 2 - s.size / 2) (.inl rfl) (by omega) hout'
    (fun t ht => by omega)
  simp only [HistStor.growOut, hc, ok_bind]
  rw [require_of (by omega), ok_bind, hc', ok_bind, require_of (by omega), ok_bind]
  refine .of_ok rfl ⟨⟨h.regrow rfl rfl rfl (.inr rfl) (by omega) (by omega) ?_ ?_ fun i => ?_,
    fun hn => ?_⟩, rfl⟩
  · linarith
  · linarith
  · show clear _ _ c' i = _
    rw [clear, hval']
    split_ifs with h₁ h₂
    · rw [hout _ (by omega), hout _ (by omega), add_zero]
    · rw [hhigh _ (by omega), hhigh _ (by omega)]
      rfl
    · rw [clear, hval]
      split_ifs with h₃ h₄
      · rw [hout (_ + _) (by omega), zero_add]
        by_cases hi : (s.size / 2 : ℤ) + 2 * (i - s.size / 2) + 1 = 0
        · rw [hi, h0 (by omega)]
        · rw [hout _ (by omega)]
      · rw [add_comm]
        congr 2 <;> omega
      · rw [hout i (by omega), hout _ (by omega), hout _ (by omega), add_zero]
  · simp only [clear, hval']
    rw [if_neg (by omega), if_neg (by omega), if_pos (by omega)]

/-- A sample within the range is counted. -/
theorem count_sample (h : Grown n log o s) {x : ℤ × ℤ} (hlow : s.tooLow x.1 = false)
    (hhigh : s.tooHigh x.1 = false) {j : ℤ} (hj : j = (x.1 - s.minBucket) / s.bucketSize) :
    (0 ≤ j ∧ j < s.size) ∧ Grown n (log ++ [x]) o { s with
      cvec := update s.cvec j (s.cvec j + x.2)
      log := s.log ++ [x] } := by
  have hpos := h.pos
  have hin := And.intro (not_lt.1 (of_decide_eq_false hlow)) (not_le.1 (of_decide_eq_false hhigh))
  rw [h.min, h.max] at hin
  have hindex : ∀ i, i = j ↔ (i - o) * s.bucketSize ≤ x.1
      ∧ x.1 < (i - o + 1) * s.bucketSize := fun i => by
    rw [hj, h.min, le_antisymm_iff, Int.le_ediv_iff_mul_le hpos, ← Int.lt_add_one_iff (b := i),
      Int.ediv_lt_iff_lt_mul hpos]
    constructor
    · rintro ⟨h₁, h₂⟩
      constructor <;> linarith
    · rintro ⟨h₁, h₂⟩
      constructor <;> linarith
  obtain ⟨hge, hlt⟩ := (hindex j).1 rfl
  refine ⟨⟨by nlinarith, by rw [h.size]; nlinarith⟩,
    { h with
      samples := congrArg (· ++ [x]) h.samples
      within := fun y hy => ?_
      count := fun i => ?_ }⟩
  · rcases mem_append.1 hy with hy | hy
    · exact h.within y hy
    · rwa [mem_singleton.1 hy]
  · have hsum : weight (log ++ [x]) ((i - o) * s.bucketSize) ((i - o + 1) * s.bucketSize)
        = s.cvec i + if i = j then x.2 else 0 := by
      rw [h.count, weight, map_append, sum_append, map_singleton,
        sum_singleton, if_congr (hindex i).symm rfl rfl]
      rfl
    show update _ _ _ i = _
    rw [hsum]
    split_ifs with hi
    · rw [← hi, update_self]
    · rw [update_of_ne hi, add_zero]

end Grown

/-- A loop that makes the buckets larger ends, once they are larger than the sample. -/
theorem growWhile_ends {out : HistStor → Bool} {grow : HistStor → Except Halt HistStor}
    {I : HistStor → Prop} {v : ℤ} (hI : ∀ s, I s → 0 < s.bucketSize)
    (hgrow : ∀ s, I s → Ends (grow s) fun s' => I s' ∧ s'.bucketSize = s.bucketSize * 2)
    (hout : ∀ s, I s → v.natAbs < s.bucketSize → out s = false) :
    ∀ (turns : ℕ) {s : HistStor}, I s → v.natAbs < s.bucketSize + turns →
      Ends (growWhile out grow turns s) fun s' => I s' ∧ out s' = false
  | 0, s, hs, hlt => by
    have ho := hout s hs (by omega)
    rw [growWhile, ho]
    exact .of_ok rfl ⟨hs, ho⟩
  | turns + 1, s, hs, hlt => by
    have hpos := hI s hs
    rw [growWhile]
    split_ifs with ho
    · refine (hgrow s hs).bind fun t ht => growWhile_ends hI hgrow hout turns ht.1 ?_
      have := ht.2
      omega
    · exact .of_ok rfl ⟨hs, Bool.eq_false_iff.2 ho⟩

theorem growOut_loop {out : HistStor → Bool} {v : ℤ} (hs : Grown n log (n / 2) s)
    (h0 : n % 4 = 3 → s.cvec 0 = 0)
    (hout : ∀ t, Grown n log (n / 2) t → v.natAbs < t.bucketSize → out t = false) :
    Ends (growWhile out growOut v.natAbs s) fun t => Grown n log (n / 2) t ∧ out t = false := by
  have hpos := hs.pos
  refine (growWhile_ends (v := v) (I := fun t => Grown n log (n / 2) t
    ∧ (n % 4 = 3 → t.cvec 0 = 0)) (fun t ht => ht.1.pos) (fun t ht => ht.1.growOut ht.2)
    (fun t ht => hout t ht.1) v.natAbs ⟨hs, h0⟩ (by omega)).mono fun t ht => ⟨ht.1.1, ht.2⟩

theorem makeRoom_ends (hs : Grown n log o s) {x : ℤ × ℤ} (hkeeps : s.Keeps x) :
    Ends (s.makeRoom x.1) fun t => ∃ o, Grown n log o t ∧ t.tooLow x.1 = false
      ∧ t.tooHigh x.1 = false := by
  have hpos := hs.pos
  have htwo := hs.two
  have hmin := hs.min
  have hmax := hs.max
  have hzero : s.minBucket = 0 → Grown n log 0 s := fun hm => by
    rw [hm, eq_comm, neg_eq_zero, mul_eq_zero] at hmin
    exact hmin.resolve_right hpos.ne' ▸ hs
  have hhalf : s.minBucket ≠ 0 → Grown n log (n / 2) s := fun hm => by
    rcases hs.origin with rfl | rfl
    · exact absurd (hmin.trans (by simp)) hm
    · exact hs
  have h0 : s.tooLow x.1 = true ∨ s.tooHigh x.1 = true → s.minBucket ≠ 0 → n % 4 = 3 →
      s.cvec 0 = 0 := fun hout hm => hs.size ▸ hkeeps hm hout
  -- beyond one end of the range the other end is far away
  have hhigh : ∀ {o t}, Grown n log o t → x.1 < t.bucketSize → t.tooHigh x.1 = false := by
    intro o t ht hlt
    have := ht.pos
    have ho : o < n := by rcases ht.origin with rfl | rfl <;> omega
    refine decide_eq_false fun hle => ?_
    rw [ht.max] at hle
    nlinarith
  have hlow : ∀ {o t}, Grown n log o t → 0 ≤ x.1 ∨ 0 < o ∧ -t.bucketSize < x.1 →
      t.tooLow x.1 = false := by
    intro o t ht hlt
    have := ht.pos
    have ho : 0 ≤ o := by rcases ht.origin with rfl | rfl <;> omega
    refine decide_eq_false fun hle => ?_
    rw [ht.min] at hle
    rcases hlt with hlt | ⟨ho', hlt⟩ <;> nlinarith
  have hnonneg : s.tooHigh x.1 = true → 0 ≤ x.1 := fun hh => by
    have := of_decide_eq_true hh
    have ho : o < n := by rcases hs.origin with rfl | rfl <;> omega
    nlinarith
  unfold makeRoom
  split_ifs with hl hm hh hm
  · have hneg : x.1 < 0 := hm ▸ of_decide_eq_true hl
    refine (hzero hm).growDown.bind fun t ht => ?_
    refine (growOut_loop ht.1 (fun _ => ht.2.2) fun u hu hv =>
      hlow hu (.inr ⟨by omega, by omega⟩)).mono fun u hu => ⟨_, hu.1, hu.2, ?_⟩
    exact hhigh hu.1 (hneg.trans hu.1.pos)
  · have hneg : x.1 < 0 := by
      have := of_decide_eq_true hl
      have ho : 0 ≤ o := by rcases hs.origin with rfl | rfl <;> omega
      nlinarith
    refine (growOut_loop (hhalf hm) (h0 (.inl hl) hm) fun u hu hv =>
      hlow hu (.inr ⟨by omega, by omega⟩)).mono fun u hu => ⟨_, hu.1, hu.2, ?_⟩
    exact hhigh hu.1 (hneg.trans hu.1.pos)
  · refine (growWhile_ends (v := x.1) (I := Grown n log 0) (fun t ht => ht.pos)
      (fun t ht => ht.growUp) (fun t ht hv => hhigh ht (by omega)) _ (hzero hm)
      (by omega)).mono fun u hu => ⟨0, hu.1, hlow hu.1 (.inl (hnonneg hh)), hu.2⟩
  · refine (growOut_loop (hhalf hm) (h0 (.inr hh) hm) fun u hu hv => hhigh hu (by omega)).mono
      fun u hu => ⟨_, hu.1, hlow hu.1 (.inl (hnonneg hh)), hu.2⟩
  · exact .of_ok rfl ⟨o, hs, Bool.eq_false_iff.2 hl, Bool.eq_false_iff.2 hh⟩

theorem sample_ends (hs : Grown n log o s) {x : ℤ × ℤ} (hkeeps : s.Keeps x) :
    Ends (s.sample x) fun s' => ∃ o, Grown n (log ++ [x]) o s' := by
  have hlt : s.minBucket < s.maxBucket := by
    have hmin := hs.min
    have hmax := hs.max
    have hpos := hs.pos
    have htwo : (2 : ℤ) ≤ n := Int.ofNat_le.2 hs.two
    nlinarith
  rw [sample, require_of hlt, ok_bind]
  refine (makeRoom_ends hs hkeeps).bind fun t ht => ?_
  obtain ⟨o, ht, hlow, hhigh⟩ := ht
  obtain ⟨hindex, hnew⟩ := ht.count_sample hlow hhigh rfl
  simp only [require_of ht.pos, require_of hindex, ok_bind]
  exact .of_ok rfl ⟨o, hnew⟩

theorem reset_grown (h : 2 ≤ n) : Grown n [] 0 (reset n) where
  size := rfl
  samples := rfl
  two := h
  pos := Int.one_pos
  origin := .inl rfl
  min := rfl
  max := by simp [reset]
  within := nofun
  count _ := rfl

theorem run_ends : ∀ (samples : List (ℤ × ℤ)) {s : HistStor} {log : List (ℤ × ℤ)} {o : ℤ},
    Grown n log o s → Admits sample Keeps s samples →
      Ends (run sample s samples) fun s' => ∃ o, Grown n (log ++ samples) o s'
  | [], s, log, o, hs, _ => .of_ok rfl ⟨o, (append_nil log).symm ▸ hs⟩
  | x :: samples, s, log, o, hs, hadm => by
    obtain ⟨s', hs', o', hgrown⟩ := (sample_ends hs hadm.1).exists
    rw [run, hs', ok_bind, append_cons]
    exact run_ends samples hgrown (hadm.2 s' hs')

end HistStor

end Gem5
