import Gem5.Basic

/-!
# The event queue

`EventQueue` of `eventq.cc`, for one thread. `nextBin` leads from the top event of a bin to that of
the next one and `nextInBin` to the next event of the same bin. Below the top of a bin `nextBin` is
not kept up to date. `inserted` and `ran` are history.
-/

namespace Gem5

structure EventQueue where
  events : ℕ
  priority : ℕ → ℤ
  head : Option ℕ
  curTick : ℕ
  nextBin : ℕ → Option ℕ
  nextInBin : ℕ → Option ℕ
  whenOf : ℕ → ℕ
  onQueue : ℕ → Bool
  scheduled : ℕ → Bool
  squashed : ℕ → Bool
  inserted : ℕ → ℕ
  inserts : ℕ
  ran : List ℕ

namespace EventQueue

open Function (update)

variable (q : EventQueue)

def init (events : ℕ) (priority : ℕ → ℤ) : EventQueue where
  events := events
  priority := priority
  head := none
  curTick := 0
  nextBin := fun _ => none
  nextInBin := fun _ => none
  whenOf := fun _ => 0
  onQueue := fun _ => false
  scheduled := fun _ => false
  squashed := fun _ => false
  inserted := fun _ => 0
  inserts := 0
  ran := []

def key (e : ℕ) : ℕ ×ₗ ℤ := toLex (q.whenOf e, q.priority e)

def insertBefore (event : ℕ) : Option ℕ → EventQueue
  | none => { q with
      nextBin := update q.nextBin event none
      nextInBin := update q.nextInBin event none }
  | some curr =>
    if q.key event < q.key curr then { q with
      nextBin := update q.nextBin event (some curr)
      nextInBin := update q.nextInBin event none }
    else { q with
      nextBin := update q.nextBin event (q.nextBin curr)
      nextInBin := update q.nextInBin event (some curr) }

/-- The loop that looks for the bin of an event: the top of the bin before it, and its own. The first
argument bounds the number of rounds. -/
def findBin (event : ℕ) : ℕ → ℕ → Option ℕ → Except Halt (ℕ × Option ℕ)
  | 0, _, _ => .error (.undefined "while (curr && *curr < *event)")
  | _ + 1, prev, none => .ok (prev, none)
  | n + 1, prev, some curr =>
    if q.key curr < q.key event then findBin event n curr (q.nextBin curr)
    else .ok (prev, some curr)

def stamp (event : ℕ) : EventQueue :=
  { q with inserted := update q.inserted event q.inserts, inserts := q.inserts + 1 }

def link (prev : ℕ) (next : Option ℕ) : EventQueue :=
  { q with nextBin := update q.nextBin prev next }

def setHead (head : Option ℕ) : EventQueue := { q with head := head }

def insert (event : ℕ) : Except Halt EventQueue :=
  match q.head with
  | none => .ok (((q.stamp event).insertBefore event none).setHead (some event))
  | some head =>
    if q.key event ≤ q.key head then
      .ok (((q.stamp event).insertBefore event (some head)).setHead (some event))
    else do
      let (prev, curr) ← q.findBin event (q.events + 1) head (q.nextBin head)
      return ((q.stamp event).insertBefore event curr).link prev (some event)

def findInBin (event : ℕ) : ℕ → ℕ → Option ℕ → Except Halt ℕ
  | 0, _, _ => .error (.undefined "while (event != next)")
  | _ + 1, _, none => .error (.panic "event not found!")
  | n + 1, curr, some next =>
    if next = event then .ok curr else findInBin event n next (q.nextInBin next)

def removeItem (event top : ℕ) : Except Halt (EventQueue × Option ℕ) :=
  if event = top then
    match q.nextInBin top with
    | none => .ok (q, q.nextBin top)
    | some next => .ok (q.link next (q.nextBin top), some next)
  else do
    let curr ← q.findInBin event (q.events + 1) top (q.nextInBin top)
    return ({ q with nextInBin := update q.nextInBin curr (q.nextInBin event) }, some top)

def remove (event : ℕ) : Except Halt EventQueue :=
  match q.head with
  | none => .error (.panic "event not found!")
  | some head => do
    require (q.onQueue event = true) "event->queue == this"
    if q.key head = q.key event then do
      let (q, top) ← q.removeItem event head
      return q.setHead top
    else do
      let (prev, curr) ← q.findBin event (q.events + 1) head (q.nextBin head)
      match curr with
      | none => .error (.panic "event not found!")
      | some curr => do
        panicIf (q.key curr ≠ q.key event) "event not found!"
        let (q, top) ← q.removeItem event curr
        return q.link prev top

def setWhen (event tick : ℕ) : EventQueue :=
  { q with whenOf := update q.whenOf event tick, onQueue := update q.onQueue event true }

def schedule (event tick : ℕ) : Except Halt EventQueue := do
  require (q.curTick ≤ tick) "when >= getCurTick()"
  require (q.scheduled event = false) "!event->scheduled()"
  let q ← (q.setWhen event tick).insert event
  return { q with scheduled := update q.scheduled event true }

def deschedule (event : ℕ) : Except Halt EventQueue := do
  require (q.scheduled event = true) "event->scheduled()"
  let q ← q.remove event
  return { q with
    squashed := update q.squashed event false
    scheduled := update q.scheduled event false }

def unqueue (event : ℕ) : Except Halt EventQueue :=
  if q.scheduled event then q.remove event else .ok q

def reschedule (event tick : ℕ) (always : Bool) : Except Halt EventQueue := do
  require (q.curTick ≤ tick) "when >= getCurTick()"
  require (always = true ∨ q.scheduled event = true) "always || event->scheduled()"
  let q ← q.unqueue event
  let q ← (q.setWhen event tick).insert event
  return { q with
    squashed := update q.squashed event false
    scheduled := update q.scheduled event true }

def popHead (event : ℕ) : EventQueue :=
  match q.nextInBin event with
  | some next => (q.link next (q.nextBin event)).setHead (some next)
  | none => q.setHead (q.nextBin event)

/-- `serviceOne` up to the call of `process`. What that does is a part of the run. -/
def serviceOne : Except Halt EventQueue :=
  match q.head with
  | none => .error (.undefined "head->nextInBin")
  | some event =>
    let q' := { q.popHead event with scheduled := update q.scheduled event false }
    if q.squashed event then .ok { q' with squashed := update q.squashed event false }
    else .ok { q' with curTick := q.whenOf event, ran := q.ran ++ [event] }

inductive Op
  | schedule (event tick : ℕ)
  | deschedule (event : ℕ)
  | reschedule (event tick : ℕ) (always : Bool)
  | squash (event : ℕ)
  | serviceOne
  deriving DecidableEq, Repr

def Op.isValid (events : ℕ) : Op → Bool
  | .schedule e _ | .deschedule e | .reschedule e _ _ | .squash e => e < events
  | .serviceOne => true

def step (q : EventQueue) (o : Op) : Except Halt EventQueue :=
  if o.isValid q.events then
    match o with
    | .schedule e tick => q.schedule e tick
    | .deschedule e => q.deschedule e
    | .reschedule e tick always => q.reschedule e tick always
    | .squash e => .ok { q with squashed := update q.squashed e true }
    | .serviceOne => q.serviceOne
  else .error .notScheduled

def Respects (q : EventQueue) : Op → Prop
  | .schedule e tick => e < q.events ∧ q.curTick ≤ tick ∧ q.scheduled e = false
  | .deschedule e => q.scheduled e = true
  | .reschedule e tick always =>
    e < q.events ∧ q.curTick ≤ tick ∧ (always = true ∨ q.scheduled e = true)
  | .squash e => e < q.events
  | .serviceOne => ∃ e, q.scheduled e = true

end EventQueue

end Gem5
