import Gem5.Machine

/-!
# How the simulator stops, and its events

A step of a simulated device ends in its next state or stops the simulation: an `assert` or a
`panic` of the source, an access past the end of an object, or another undefined operation. An event
is the tick it is scheduled for, and one that is not scheduled cannot fire.
-/

namespace Gem5

open Machine

inductive Halt
  | assertion (cond : String)
  | panic (msg : String)
  | outOfBounds (access : String)
  | undefined (what : String)
  | notScheduled
  deriving DecidableEq, Repr

/-- `assert(cond)`. -/
def require (c : Prop) [Decidable c] (cond : String) : Except Halt Unit :=
  if c then .ok () else .error (.assertion cond)

@[simp] theorem require_ok {c : Prop} [Decidable c] {cond : String} {u : Unit} :
    require c cond = .ok u ↔ c := by
  unfold require
  split_ifs with h <;> simp [h]

theorem require_of {c : Prop} [Decidable c] (h : c) (cond : String) : require c cond = .ok () :=
  if_pos h

/-- `panic_if(c, msg)`. -/
def panicIf (c : Prop) [Decidable c] (msg : String) : Except Halt Unit :=
  if c then .error (.panic msg) else .ok ()

@[simp] theorem panicIf_ok {c : Prop} [Decidable c] {msg : String} {u : Unit} :
    panicIf c msg = .ok u ↔ ¬c := by
  unfold panicIf
  split_ifs with h <;> simp [h]

def inBounds (c : Prop) [Decidable c] (access : String) : Except Halt Unit :=
  if c then .ok () else .error (.outOfBounds access)

@[simp] theorem inBounds_ok {c : Prop} [Decidable c] {access : String} {u : Unit} :
    inBounds c access = .ok u ↔ c := by
  unfold inBounds
  split_ifs with h <;> simp [h]

/-- `schedule(event, when)`. -/
def schedule (curTick : ℕ) (event : Option ℕ) (tick : ℕ) : Except Halt (Option ℕ) := do
  require (curTick ≤ tick) "when >= getCurTick()"
  require (event = none) "!event->scheduled()"
  return some tick

@[simp] theorem schedule_ok {curTick tick : ℕ} {event event' : Option ℕ} :
    schedule curTick event tick = .ok event' ↔
      curTick ≤ tick ∧ event = none ∧ event' = some tick := by
  simp only [schedule, bind_ok, require_ok]
  constructor
  · rintro ⟨_, hle, _, he, h⟩
    exact ⟨hle, he, (Except.ok.inj h).symm⟩
  · rintro ⟨hle, he, rfl⟩
    exact ⟨(), hle, (), he, rfl⟩

/-- `reschedule(event, when, always)`. -/
def reschedule (curTick : ℕ) (event : Option ℕ) (tick : ℕ) (always : Bool) :
    Except Halt (Option ℕ) := do
  require (curTick ≤ tick) "when >= getCurTick()"
  require (always = true ∨ event.isSome) "always || event->scheduled()"
  return some tick

@[simp] theorem reschedule_ok {curTick tick : ℕ} {event event' : Option ℕ} {always : Bool} :
    reschedule curTick event tick always = .ok event' ↔
      curTick ≤ tick ∧ (always = true ∨ event.isSome) ∧ event' = some tick := by
  simp only [reschedule, bind_ok, require_ok]
  constructor
  · rintro ⟨_, hle, _, he, h⟩
    exact ⟨hle, he, (Except.ok.inj h).symm⟩
  · rintro ⟨hle, he, rfl⟩
    exact ⟨(), hle, (), he, rfl⟩

/-- The largest tick, `MaxTick`. -/
def maxTick : ℕ := 2 ^ 64 - 1

def clockEdge (clockPeriod curTick cycles : ℕ) : ℕ :=
  (curTick + clockPeriod - 1) / clockPeriod * clockPeriod + clockPeriod * cycles

theorem le_clockEdge {clockPeriod : ℕ} (hp : 0 < clockPeriod) (curTick cycles : ℕ) :
    curTick + clockPeriod * cycles ≤ clockEdge clockPeriod curTick cycles := by
  have hlt : curTick + clockPeriod - 1 <
      clockPeriod * ((curTick + clockPeriod - 1) / clockPeriod + 1) := Nat.lt_mul_div_succ _ hp
  rw [Nat.mul_succ, Nat.mul_comm] at hlt
  unfold clockEdge
  omega

/-- Where an object is in draining its buffers, `DrainState`. -/
inductive DrainState
  | running
  | draining
  | drained
  deriving DecidableEq, Repr

end Gem5
