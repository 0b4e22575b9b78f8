import Gem5.Basic

/-!
# The clock of a clocked object

`Clocked` of `clocked_object.hh`, and the change of its domain's period in `clock_domain.cc`, which
first aligns the members of the domain. A derived domain does the same with its own period before it
takes the new one over. Ticks are numbers without a bound.
-/

namespace Gem5

open Machine

/-- `clockPeriod` is that of the domain. -/
structure ClockedObject where
  tick : ℕ
  cycle : ℕ
  clockPeriod : ℕ
  curTick : ℕ
  deriving DecidableEq, Repr

namespace ClockedObject

variable (s : ClockedObject)

def init (clockPeriod curTick : ℕ) : ClockedObject := ⟨0, 0, clockPeriod, curTick⟩

def divCeil (a b : ℕ) : ℕ := (a + b - 1) / b

def update : ClockedObject :=
  if s.tick ≥ s.curTick then s
  else
    let s := { s with tick := s.tick + s.clockPeriod, cycle := s.cycle + 1 }
    if s.tick ≥ s.curTick then s
    else
      let elapsedCycles := divCeil (s.curTick - s.tick) s.clockPeriod
      { s with
        cycle := s.cycle + elapsedCycles
        tick := s.tick + elapsedCycles * s.clockPeriod }

def clockEdge (cycles : ℕ := 0) : ℕ := s.update.tick + s.clockPeriod * cycles

def curCycle : ℕ := s.update.cycle

/-- `SrcClockDomain::clockPeriod(clock_period)`. -/
def setClockPeriod (clockPeriod : ℕ) : Except Halt ClockedObject := do
  panicIf (clockPeriod = 0) "clock period of zero"
  return { s.update with clockPeriod }

/-- A query is a call of `clockEdge` or `curCycle`. -/
inductive Op
  | advance (ticks : ℕ)
  | query
  | setClockPeriod (clockPeriod : ℕ)

def step : Op → Except Halt ClockedObject
  | .advance ticks => .ok { s with curTick := s.curTick + ticks }
  | .query => .ok s.update
  | .setClockPeriod clockPeriod => s.setClockPeriod clockPeriod

/-- The next edge is less than a new period away. -/
def EdgeNear : Op → Prop
  | .setClockPeriod clockPeriod => s.clockEdge < s.curTick + clockPeriod
  | _ => True

instance : ∀ o, Decidable (s.EdgeNear o)
  | .setClockPeriod _ => inferInstanceAs (Decidable (_ < _))
  | .advance _ | .query => .isTrue trivial

end ClockedObject

end Gem5
