import Mathlib

/-!
# Load-linked and store-conditional in a cache block

The locks of `CacheBlk` in `cache_blk.hh`. A load-linked leaves a lock on its bytes, in front of the
others, and takes every lock away that has bytes in common with it. A store-conditional looks for a
lock of its context that has all its bytes.
-/

namespace Gem5

/-- The request of an access to a block. It has some bytes, and they are in the address space. -/
structure LockRequest where
  contextId : ℕ
  paddr : ℕ
  size : ℕ
  size_pos : 0 < size
  fits : paddr + size ≤ 2 ^ 64
  deriving DecidableEq, Repr

namespace LockRequest

variable (req : LockRequest)

/-- The address of the last byte, `req_high`. -/
def high : ℕ := (req.paddr + req.size - 1) % 2 ^ 64

def bytes : Set ℕ := Set.Ico req.paddr (req.paddr + req.size)

end LockRequest

structure Lock where
  contextId : ℕ
  lowAddr : ℕ
  highAddr : ℕ
  deriving DecidableEq, Repr

namespace Lock

def ofRequest (req : LockRequest) : Lock := ⟨req.contextId, req.paddr, req.high⟩

variable (l : Lock) (req : LockRequest)

def matchesRequest : Bool :=
  l.contextId = req.contextId ∧ req.paddr ≥ l.lowAddr ∧ req.high ≤ l.highAddr

def intersects : Bool := req.paddr ≤ l.highAddr ∧ req.high ≥ l.lowAddr

def bytes : Set ℕ := Set.Icc l.lowAddr l.highAddr

end Lock

namespace LoadLocks

def trackLoadLocked (lockList : List Lock) (req : LockRequest) : List Lock :=
  .ofRequest req :: lockList.filter fun l => !l.intersects req

def clearLoadLocks (lockList : List Lock) (req : LockRequest) : List Lock :=
  lockList.filter fun l => !(l.intersects req && l.contextId != req.contextId)

/-- The loop of `checkWrite`: the first lock that matches is erased. -/
def takeMatching (req : LockRequest) : List Lock → Bool × List Lock
  | [] => (false, [])
  | l :: ls =>
    if l.matchesRequest req then (true, ls)
    else ((takeMatching req ls).1, l :: (takeMatching req ls).2)

def checkWrite (lockList : List Lock) (isLLSC : Bool) (req : LockRequest) : Bool × List Lock :=
  if !isLLSC && lockList.isEmpty then (true, lockList)
  else if isLLSC then
    let found := takeMatching req lockList
    (found.1, clearLoadLocks found.2 req)
  else (true, clearLoadLocks lockList req)

inductive Op
  | loadLocked (req : LockRequest)
  | store (req : LockRequest)
  | storeCond (req : LockRequest)
  | invalidate
  deriving DecidableEq, Repr

def Op.request? : Op → Option LockRequest
  | .loadLocked req | .store req | .storeCond req => some req
  | .invalidate => none

def step (lockList : List Lock) : Op → List Lock
  | .loadLocked req => trackLoadLocked lockList req
  | .store req => (checkWrite lockList false req).2
  | .storeCond req => (checkWrite lockList true req).2
  | .invalidate => []

def lockList (ops : List Op) : List Lock := ops.foldl step []

def succeeds (ops : List Op) (req : LockRequest) : Bool := (checkWrite (lockList ops) true req).1

end LoadLocks

end Gem5
