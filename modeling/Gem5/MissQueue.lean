import Gem5.Mshr

/-!
# The miss queue

`MSHRQueue` of `mshr_queue.cc`, with `Queue` of `queue.hh`. The lists hold the places of registers in
one array. A register that is allocated and not in service is on the ready list, which is kept in the
order of the ready times. The iterators that a register keeps are its places in the lists.
-/

namespace Gem5

def Mshr.blank : Mshr where
  blkAddr := 0
  blkSize := 0
  isSecure := false
  readyTime := 0
  order := 0
  inService := false
  isUncacheable := false
  downstreamPending := false
  pendingModified := false
  postInvalidate := false
  postDowngrade := false
  wasWholeLineWrite := false
  isForward := false
  wasBlockIO := false
  qidFromDev := -1
  isDdioPkt := false
  isHeader := false
  targets := .init 0
  deferredTargets := .init 0

def Mshr.getNumTargets (m : Mshr) : ℕ := m.targets.targets.length + m.deferredTargets.targets.length

def Mshr.hasTargets (m : Mshr) : Bool := !m.targets.targets.isEmpty

def Mshr.popTarget (m : Mshr) : Mshr :=
  { m with targets := { m.targets with targets := m.targets.targets.tail } }

/-- `MSHR::delay`. -/
def Mshr.delay (m : Mshr) (curTick delayTicks : ℕ) : Except Halt Mshr := do
  require (m.readyTime ≤ curTick) "readyTime <= curTick()"
  return { m with readyTime := (curTick + delayTicks) % 2 ^ 64 }

/-- The queue. `signals` are the calls made to the registers of the caches above. -/
structure MissQueue where
  entries : List Mshr
  allocatedList : List ℕ
  readyList : List ℕ
  freeList : List ℕ
  numInService : ℤ
  allocated : ℤ
  curTick : ℕ
  signals : List Signal
  deriving DecidableEq, Repr

namespace MissQueue

def init (numEntries : ℕ) : MissQueue :=
  ⟨List.replicate numEntries .blank, [], [], List.range numEntries, 0, 0, 0, []⟩

variable (q : MissQueue)

def entry (i : ℕ) : Except Halt Mshr :=
  match q.entries[i]? with
  | none => .error (.outOfBounds "entries")
  | some m => .ok m

def setEntry (i : ℕ) (m : Mshr) : MissQueue := { q with entries := q.entries.set i m }

def readyTime (i : ℕ) : ℕ := (q.entries[i]?).elim 0 Mshr.readyTime

def insertReady (i : ℕ) : List ℕ → Except Halt (List ℕ)
  | [] => .error (.panic "Failed to add to ready list.")
  | j :: l =>
    if q.readyTime j > q.readyTime i then .ok (i :: j :: l)
    else do return j :: (← insertReady i l)

def addToReadyList (i : ℕ) : Except Halt (List ℕ) :=
  match q.readyList.getLast? with
  | none => .ok [i]
  | some back =>
    if q.readyTime back ≤ q.readyTime i then .ok (q.readyList ++ [i])
    else q.insertReady i q.readyList

def eraseReady (i : ℕ) : Except Halt MissQueue :=
  if i ∈ q.readyList then .ok { q with readyList := q.readyList.erase i }
  else .error (.undefined "readyIter")

def getNext : Option ℕ :=
  match q.readyList with
  | [] => none
  | i :: _ => if q.readyTime i > q.curTick then none else some i

def nextReadyTime : ℕ :=
  match q.readyList with
  | [] => maxTick
  | i :: _ => q.readyTime i

def makeReady (i : ℕ) : Except Halt MissQueue := do
  return { q with readyList := ← q.addToReadyList i }

def allocate (blkAddr blkSize : ℕ) (pkt : Packet) (whenReady order : ℕ) (allocOnFill : Bool) :
    Except Halt MissQueue :=
  match q.freeList with
  | [] => .error (.assertion "!freeList.empty()")
  | i :: free => do
    let m ← q.entry i
    require (m.getNumTargets = 0) "mshr->getNumTargets() == 0"
    let (m', sig) ← Mshr.allocate blkAddr blkSize pkt whenReady order allocOnFill
    makeReady { q.setEntry i m' with
      freeList := free
      allocatedList := q.allocatedList ++ [i]
      allocated := q.allocated + 1
      signals := q.signals ++ sig } i

def leave (i : ℕ) (m : Mshr) : Except Halt MissQueue :=
  if m.inService then .ok { q with numInService := q.numInService - 1 } else q.eraseReady i

def deallocate (i : ℕ) : Except Halt MissQueue := do
  let m ← q.entry i
  if i ∈ q.allocatedList then do
    let q' ← q.leave i m
    let m' ← m.deallocate
    return { q'.setEntry i m' with
      allocatedList := q.allocatedList.erase i
      freeList := i :: q.freeList
      allocated := q.allocated - 1 }
  else .error (.undefined "allocIter")

/-- `readyList.splice`: the register goes before the given one, or to the end. -/
def splice (pos : Option ℕ) (i : ℕ) : List ℕ :=
  match pos with
  | none => q.readyList.erase i ++ [i]
  | some j =>
    if j = i then q.readyList
    else (q.readyList.erase i).takeWhile (· ≠ j) ++ i :: (q.readyList.erase i).dropWhile (· ≠ j)

def delay (i delayTicks : ℕ) : Except Halt MissQueue := do
  let m ← q.entry i
  let m' ← m.delay q.curTick delayTicks
  if i ∈ q.readyList then
    let q' := q.setEntry i m'
    let pos := (q.readyList.dropWhile (· ≠ i)).find? fun j =>
      decide (q'.readyTime i ≥ q'.readyTime j)
    return { q' with readyList := q'.splice pos i }
  else .error (.undefined "readyIter")

def markInService (i : ℕ) (pendingModifiedResp : Bool) : Except Halt MissQueue := do
  let m ← q.entry i
  let (m', sig) ← m.markInService pendingModifiedResp
  let q' ← eraseReady { q.setEntry i m' with signals := q.signals ++ sig } i
  return { q' with numInService := q'.numInService + 1 }

def markPending (i : ℕ) : Except Halt MissQueue := do
  let m ← q.entry i
  let m' ← m.markPending
  makeReady { q.setEntry i m' with numInService := q.numInService - 1 } i

/-- What `recvTimingResp` does to the register before it is made pending or deallocated: the targets
that the response serves are taken out, and deferred ones take their place. -/
def serve (i : ℕ) (cmd : MemCmd) : Except Halt MissQueue := do
  let m ← q.entry i
  let served ← m.extractServiceableTargets cmd
  let promoted ← served.2.promoteDeferredTargets q.curTick
  return q.setEntry i promoted.2

inductive Op
  | allocate (blkAddr blkSize : ℕ) (pkt : Packet) (whenReady order : ℕ) (allocOnFill : Bool)
  | allocateTarget (i : ℕ) (pkt : Packet) (readyTime order : ℕ) (allocOnFill : Bool)
  | delay (i delayTicks : ℕ)
  | markInService (i : ℕ) (pendingModifiedResp : Bool)
  | serve (i : ℕ) (cmd : MemCmd)
  | markPending (i : ℕ)
  | deallocate (i : ℕ)
  | advance (ticks : ℕ)
  deriving DecidableEq, Repr

def addTarget (i : ℕ) (pkt : Packet) (readyTime order : ℕ) (allocOnFill : Bool) :
    Except Halt MissQueue := do
  let m ← q.entry i
  let (m', sig) ← m.allocateTarget pkt readyTime order allocOnFill
  return { q.setEntry i m' with signals := q.signals ++ sig }

def step (q : MissQueue) : Op → Except Halt MissQueue
  | .allocate blkAddr blkSize pkt whenReady order allocOnFill =>
    q.allocate blkAddr blkSize pkt whenReady order allocOnFill
  | .allocateTarget i pkt readyTime order allocOnFill =>
    q.addTarget i pkt readyTime order allocOnFill
  | .delay i delayTicks => q.delay i delayTicks
  | .markInService i pendingModifiedResp => q.markInService i pendingModifiedResp
  | .serve i cmd =>
    if (q.entries[i]?).elim false Mshr.inService then q.serve i cmd else .error .notScheduled
  | .markPending i => q.markPending i
  | .deallocate i => q.deallocate i
  | .advance ticks =>
    if q.curTick + ticks ≤ maxTick then .ok { q with curTick := q.curTick + ticks }
    else .error .notScheduled

def ReadyInOrder : Prop := q.readyList.Pairwise fun i j => q.readyTime i ≤ q.readyTime j

instance : Decidable q.ReadyInOrder := inferInstanceAs (Decidable (List.Pairwise _ _))

def DelaysWithin (i delayTicks : ℕ) : Prop :=
  (∀ j ∈ (q.readyList.takeWhile (· ≠ i)).getLast?,
    q.readyTime j ≤ (q.curTick + delayTicks) % 2 ^ 64)
  ∧ ∀ j ∈ (q.readyList.dropWhile (· ≠ i)).tail.head?,
    (q.curTick + delayTicks) % 2 ^ 64 ≤ q.readyTime j

instance (i delayTicks : ℕ) : Decidable (q.DelaysWithin i delayTicks) :=
  inferInstanceAs (Decidable (_ ∧ _))

def InPlace (q : MissQueue) : Op → Prop
  | .delay i delayTicks => q.DelaysWithin i delayTicks
  | _ => True

instance (q : MissQueue) (op : Op) : Decidable (q.InPlace op) :=
  match op with
  | .delay i delayTicks => inferInstanceAs (Decidable (q.DelaysWithin i delayTicks))
  | .allocate .. | .allocateTarget .. | .markInService .. | .serve .. | .markPending _
  | .deallocate _ | .advance _ => inferInstanceAs (Decidable True)

def inService (i : ℕ) : Bool := (q.entries[i]?).elim false Mshr.inService

def moveToFront (i : ℕ) : Except Halt MissQueue := do
  let m ← q.entry i
  if m.inService then return q
  else if i ∈ q.readyList then return { q with readyList := i :: q.readyList.erase i }
  else .error (.undefined "readyIter")

/-- What `forceDeallocateTarget` does once the first target of the register is gone. -/
def dropTarget (i : ℕ) (m : Mshr) : Except Halt MissQueue :=
  if m.hasTargets then .ok (q.setEntry i m)
  else do
    let promoted ← m.promoteDeferredTargets q.curTick
    if promoted.1 then return q.setEntry i promoted.2
    else (q.setEntry i promoted.2).deallocate i

end MissQueue

structure ReservedQueue where
  queue : MissQueue
  numReserve : ℤ
  numReserveDDIOWrite : ℤ
  deriving DecidableEq, Repr

namespace ReservedQueue

def init (numEntries reserve : ℕ) : ReservedQueue := ⟨.init (numEntries + reserve), reserve, 0⟩

variable (r : ReservedQueue)

def numEntries : ℤ := r.queue.entries.length

def isEmpty : Bool := r.queue.allocated = 0

def isFull : Bool := r.queue.allocated ≥ r.numEntries - r.numReserve - r.numReserveDDIOWrite

def reserveDDIOWrite : Except Halt ReservedQueue := do
  require (r.numReserveDDIOWrite + 1 < r.numEntries) "numReserveDDIOWrite < numEntries"
  return { r with numReserveDDIOWrite := r.numReserveDDIOWrite + 1 }

def unreserveDDIOWrite : Except Halt ReservedQueue := do
  require (r.numReserveDDIOWrite - 1 ≥ 0) "numReserveDDIOWrite >= 0"
  return { r with numReserveDDIOWrite := r.numReserveDDIOWrite - 1 }

def forceDeallocateTarget (i : ℕ) : Except Halt (Bool × ReservedQueue) := do
  let m ← r.queue.entry i
  require (m.hasTargets = true) "mshr->hasTargets()"
  let q ← r.queue.dropTarget i m.popTarget
  return (r.isFull && !isFull { r with queue := q }, { r with queue := q })

inductive Op
  | queue (op : MissQueue.Op)
  | moveToFront (i : ℕ)
  | forceDeallocateTarget (i : ℕ)
  | reserveDDIOWrite
  | unreserveDDIOWrite
  deriving DecidableEq, Repr

def step (r : ReservedQueue) : Op → Except Halt ReservedQueue
  | .queue op => do return { r with queue := ← r.queue.step op }
  | .moveToFront i => do return { r with queue := ← r.queue.moveToFront i }
  | .forceDeallocateTarget i => do return (← r.forceDeallocateTarget i).2
  | .reserveDDIOWrite => r.reserveDDIOWrite
  | .unreserveDDIOWrite => r.unreserveDDIOWrite

end ReservedQueue

end Gem5
