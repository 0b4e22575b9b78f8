import Gem5.Basic

/-!
# A histogram that grows

`HistStor` of `base/stats/storage.cc`. The buckets are of one size, and when a sample is out of their
range the size is doubled and the contents of neighbours are put together in place. The samples are
integers. The sums of the samples, of their squares and of their logarithms are left out, and `log`,
the samples with their numbers, is history.
-/

namespace Gem5

open Machine

structure HistStor where
  size : ℕ
  cvec : ℤ → ℤ
  minBucket : ℤ
  maxBucket : ℤ
  bucketSize : ℤ
  log : List (ℤ × ℤ)

namespace HistStor

/-- The loops that put two buckets together, `turns` times: downwards for `d = -1`, where the source
looks at the lower end of the buckets, and upwards for `d = 1`, where it looks at the upper end. -/
def merge (size : ℕ) (d : ℤ) : ℕ → ℤ → ℤ → (ℤ → ℤ) → Except Halt ((ℤ → ℤ) × ℤ)
  | 0, _, pair, cvec => .ok (cvec, pair)
  | turns + 1, i, pair, cvec => do
    inBounds (0 ≤ i ∧ i < size ∧ 0 ≤ pair ∧ pair < size) "cvec[i] = cvec[pair]"
    let cvec := Function.update cvec i (cvec pair)
    let cvec := if 0 ≤ pair + d ∧ pair + d < size then
        Function.update cvec i (cvec i + cvec (pair + d)) else cvec
    merge size d turns (i + d) (pair + 2 * d) cvec

def clear (first last : ℤ) (cvec : ℤ → ℤ) (i : ℤ) : ℤ :=
  if first ≤ i ∧ i < last then 0 else cvec i

def growOut (s : HistStor) : Except Halt HistStor := do
  let zeroIdx := s.size / 2
  let topHalf := zeroIdx + (s.size - zeroIdx + 1) / 2
  let bottomHalf := (s.size - zeroIdx) / 2
  let (cvec, lowPair) ← merge s.size (-1) (zeroIdx - bottomHalf) (zeroIdx - 1) (zeroIdx - 1) s.cvec
  require (lowPair = 0 ∨ lowPair = -1 ∨ lowPair = -2)
    "low_pair == 0 || low_pair == -1 || low_pair == -2"
  let (cvec, highPair) ← merge s.size 1 (topHalf - zeroIdx) zeroIdx zeroIdx (clear 0 bottomHalf cvec)
  require (highPair = s.size ∨ highPair = s.size + 1)
    "high_pair == size || high_pair == size + 1"
  return { s with
    cvec := clear topHalf s.size cvec
    maxBucket := s.maxBucket * 2
    minBucket := s.minBucket * 2
    bucketSize := s.bucketSize * 2 }

def growDown (s : HistStor) : Except Halt HistStor := do
  let zeroIdx := s.size / 2
  let even : Bool := (s.size - 1) % 2 = 0
  let pair : ℕ := if even then s.size - 2 else s.size - 1
  let (cvec, _) ← merge s.size (-1) (pair + 1 - zeroIdx) pair pair s.cvec
  let less := if even then 0 else s.bucketSize
  return { s with
    cvec := clear 0 zeroIdx cvec
    minBucket := -s.maxBucket - less
    maxBucket := s.maxBucket - less
    bucketSize := s.bucketSize * 2 }

def growUp (s : HistStor) : Except Halt HistStor := do
  let half := (s.size + 1) / 2
  let (cvec, pair) ← merge s.size 1 half 0 0 s.cvec
  require (pair = s.size ∨ pair = s.size + 1) "pair == size || pair == size + 1"
  return { s with
    cvec := clear half s.size cvec
    maxBucket := s.maxBucket * 2
    bucketSize := s.bucketSize * 2 }

/-- `while (out) grow();`, for at most so many turns. -/
def growWhile (out : HistStor → Bool) (grow : HistStor → Except Halt HistStor) :
    ℕ → HistStor → Except Halt HistStor
  | 0, s => if out s then .error (.undefined "the loop goes on") else .ok s
  | turns + 1, s => if out s then grow s >>= growWhile out grow turns else .ok s

def tooLow (val : ℤ) (s : HistStor) : Bool := val < s.minBucket

def tooHigh (val : ℤ) (s : HistStor) : Bool := s.maxBucket + s.bucketSize ≤ val

/-- The growth before a sample. Each turn of a loop makes the buckets larger, by one at least. -/
def makeRoom (s : HistStor) (val : ℤ) : Except Halt HistStor :=
  if s.tooLow val then do
    let s ← if s.minBucket = 0 then s.growDown else .ok s
    growWhile (tooLow val) growOut val.natAbs s
  else if s.tooHigh val then
    growWhile (tooHigh val) (if s.minBucket = 0 then growUp else growOut) val.natAbs s
  else .ok s

def sample (s : HistStor) (x : ℤ × ℤ) : Except Halt HistStor := do
  let (val, number) := x
  require (s.minBucket < s.maxBucket) "min_bucket < max_bucket"
  let s ← s.makeRoom val
  require (0 < s.bucketSize) "bucket_size > 0"
  let index := (val - s.minBucket) / s.bucketSize
  require (0 ≤ index ∧ index < s.size) "index < size()"
  return { s with
    cvec := Function.update s.cvec index (s.cvec index + number)
    log := s.log ++ [x] }

/-- `reset`, with which the storage is constructed. -/
def reset (buckets : ℕ) : HistStor where
  size := buckets
  cvec := fun _ => 0
  minBucket := 0
  maxBucket := buckets - 1
  bucketSize := 1
  log := []

/-- The sample does not make the histogram grow to both sides while its first bucket counts a sample
and would be lost, which it is if the number of buckets is of this kind. -/
def Keeps (s : HistStor) (x : ℤ × ℤ) : Prop :=
  s.minBucket ≠ 0 → s.tooLow x.1 = true ∨ s.tooHigh x.1 = true → s.size % 4 = 3 → s.cvec 0 = 0

instance (s : HistStor) (x : ℤ × ℤ) : Decidable (s.Keeps x) := inferInstanceAs (Decidable (_ → _))

end HistStor

end Gem5
