import Gem5.Basic

/-!
# Address ranges

`AddrRange` and the functions on bits that it uses. A range is an interval of addresses, or the part
of it for which the parities of the address under the masks are the match value. The offset of an
address takes the lowest bit of each mask out of it.
-/

namespace Gem5.Base

open Machine

abbrev Addr := BitVec 64

def maxAddr : Addr := .allOnes 64

/-! ## Bits -/

def popCount (val : Addr) : ℕ := ((Finset.range 64).filter fun j => val.getLsbD j = true).card

def ctz64 (value : Addr) : ℕ := if value ≠ 0 then value.ctz.toNat else 64

/-- `mask(nbits)`. -/
def maskBits (nbits : ℕ) : Addr := if 64 ≤ nbits then .allOnes 64 else (1#64 <<< nbits) - 1#64

/-- `mask(first, last)`, where `first + 1` is an `unsigned`. -/
def maskRange (first last : ℕ) : Addr := maskBits ((first + 1) % 2 ^ 32) &&& ~~~maskBits last

/-- `insertBits(val, first, last, bit_val)` but for its assertion, which always holds here. -/
def insertBits (val : Addr) (first last : ℕ) (bitVal : Addr) : Addr :=
  (val &&& ~~~maskRange first last) ||| ((bitVal <<< last) &&& maskRange first last)

/-! ## Ranges -/

structure AddrRange where
  start : Addr
  end_ : Addr
  masks : List Addr := []
  intlvMatch : BitVec 8 := 0
  deriving DecidableEq, Repr

namespace AddrRange

variable (r : AddrRange)

def interleaved : Bool := 0 < r.masks.length

def size : Addr := (r.end_ - r.start) >>> r.masks.length

def sel (a : Addr) : ℕ → List Addr → ℕ
  | _, [] => 0
  | i, mask :: masks => (popCount (a &&& mask) % 2) <<< i ||| sel a (i + 1) masks

def inRange (a : Addr) : Bool := r.start ≤ a ∧ a < r.end_

def contains (a : Addr) : Bool := r.inRange a && sel a 0 r.masks == r.intlvMatch.toNat

def masksLsb : List ℕ := (r.masks.map ctz64).mergeSort (· ≤ ·)

/-- The loop over the sorted bits. `intlv_bit - i - 1` is converted to `unsigned`. -/
def removeBits : ℕ → List ℕ → Addr → Addr
  | _, [], a => a
  | i, intlvBit :: bits, a =>
    removeBits (i + 1) bits
      (if 0 < intlvBit then insertBits (a >>> 1) ((intlvBit + 2 ^ 32 - i - 1) % 2 ^ 32) 0 a else a >>> 1)

def removeIntlvBits (a : Addr) : Addr :=
  if r.interleaved then removeBits 0 r.masksLsb a else a

def insertIntlvBit (intlvBit : ℕ) (a : Addr) : Addr :=
  if 0 < intlvBit then insertBits (a <<< 1) (intlvBit - 1) 0 a else a <<< 1

/-- The first loop of `addIntlvBits`, over the sorted bits. -/
def insertIntlv : List ℕ → Addr → Addr
  | [], a => a
  | intlvBit :: bits, a => insertIntlv bits (insertIntlvBit intlvBit a)

/-- `~(1 << lsb)`, an `int` that is converted to an address. -/
def lsbClear (lsb : ℕ) : Except Halt Addr :=
  if lsb < 32 then .ok ((~~~(1#32 <<< lsb)).signExtend 64) else .error (.undefined "1 << lsb")

/-- The second loop of `addIntlvBits`, from the mask with number `i` on. -/
def setLsbs (intlvMatch : BitVec 8) : ℕ → List Addr → Addr → Except Halt Addr
  | _, [], a => .ok a
  | i, mask :: masks, a => do
    let lsb := ctz64 mask
    let intlvBit := intlvMatch.getLsbD i
    let clear ← lsbClear lsb
    let masked := a &&& mask &&& clear
    let bitVal := .ofNat 64 (intlvBit.toNat ^^^ popCount masked)
    setLsbs intlvMatch (i + 1) masks (insertBits a lsb lsb bitVal)

def addIntlvBits (a : Addr) : Except Halt Addr :=
  if r.interleaved then setLsbs r.intlvMatch 0 r.masks (insertIntlv r.masksLsb a) else .ok a

def getOffset (a : Addr) : Addr :=
  if r.inRange a then
    if r.interleaved then r.removeIntlvBits a - r.removeIntlvBits r.start else a - r.start
  else maxAddr

/-- `combined_mask` of `granularity`, which is an `int`. -/
def combinedMask : BitVec 32 :=
  r.masks.foldl (fun combined mask => (combined.signExtend 64 ||| mask).setWidth 32) 0

def granularity : Except Halt Addr :=
  if r.interleaved then
    let lowestBit := ctz64 (r.combinedMask.signExtend 64)
    if lowestBit < 64 then .ok (1#64 <<< lowestBit) else .error (.undefined "1ULL << lowest_bit")
  else .ok r.size

def mergesWith (s : AddrRange) : Bool := s.start == r.start && s.end_ == r.end_ && s.masks == r.masks

def intersects (s : AddrRange) : Except Halt Bool :=
  if r.start ≥ s.end_ ∨ r.end_ ≤ s.start then .ok false
  else if !r.interleaved && !s.interleaved then .ok true
  else if s.size = 1 then .ok (r.contains s.start)
  else if r.mergesWith s then .ok (r.intlvMatch == s.intlvMatch)
  else .error (.panic "Cannot test intersection")

def isSubset (s : AddrRange) : Except Halt Bool :=
  if r.interleaved then .error (.panic "Cannot test subset of interleaved range")
  else if s.interleaved then
    if s.contains r.start && s.contains (r.end_ - 1) then do
      let granularity ← s.granularity
      return r.size ≤ granularity
    else .ok false
  else .ok (r.start ≥ s.start && r.end_ ≤ s.end_)

/-- `operator<`. -/
def lt (s : AddrRange) : Bool :=
  if r.start ≠ s.start then r.start < s.start
  else if r.interleaved && s.interleaved then r.intlvMatch < s.intlvMatch
  else r.interleaved

/-- `RangeSize(start, size)`. -/
def ofSize (start size : Addr) : AddrRange := { start, end_ := start + size }

end AddrRange

end Gem5.Base
