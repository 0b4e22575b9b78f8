import Gem5.Basic

/-!
# The LRU replacement policy with way partitioning

`LRU` of `lru_rp.cc`. The candidates are the replacement data of the ways of one set, in order. The victim
for an I/O block is the first way that was invalidated for I/O, or else the one of the ways in the mask
that was touched longest ago. If there is neither, it is way 0.
-/

namespace Gem5

structure LRUReplData where
  lastTouchTick : ℕ := 0
  ioInvalidated : Bool := false
  deriving DecidableEq, Repr

namespace LRUReplData

def invalidate (_ : LRUReplData) : LRUReplData := ⟨0, false⟩

def invalidateDDIO (_ : LRUReplData) : LRUReplData := ⟨0, true⟩

/-- Both `touch` and `reset`. -/
def touch (d : LRUReplData) (curTick : ℕ) : LRUReplData := { d with lastTouchTick := curTick }

end LRUReplData

namespace LRU

/-- The loop of `getVictim`, with the victim so far. -/
def victimLoop : List LRUReplData → ℕ → ℕ × LRUReplData → ℕ
  | [], _, victim => victim.1
  | c :: cs, way, victim =>
    victimLoop cs (way + 1)
      (if c.lastTouchTick < victim.2.lastTouchTick then (way, c) else victim)

def getVictim : List LRUReplData → Except Halt ℕ
  | [] => .error (.assertion "candidates.size() > 0")
  | c :: cs => .ok (victimLoop (c :: cs) 0 (0, c))

def inPart (way : ℕ) (c : LRUReplData) : Option (ℕ × LRUReplData) → ℕ × LRUReplData
  | none => (way, c)
  | some victim => if c.lastTouchTick < victim.2.lastTouchTick then (way, c) else victim

/-- The loop of `getVictimWayPart`. -/
def wayPartLoop (wayPart : BitVec 32) :
    List LRUReplData → ℕ → Option (ℕ × LRUReplData) → Except Halt ℕ
  | [], _, victim => .ok (victim.elim 0 Prod.fst)
  | c :: cs, way, victim =>
    if c.ioInvalidated then .ok way
    else do
      require (way + 1 < 32) "way < 32"
      wayPartLoop wayPart cs (way + 1)
        (if wayPart.getLsbD way then some (inPart way c victim) else victim)

def getVictimWayPart (candidates : List LRUReplData) (wayPart : BitVec 32) : Except Halt ℕ :=
  if candidates.isEmpty then .error (.assertion "candidates.size() > 0")
  else wayPartLoop wayPart candidates 0 none

end LRU

end Gem5
