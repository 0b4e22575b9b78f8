import Gem5.Basic

/-!
# The NIC's interrupts

The cause, mask and throttling registers of `IGbE`, its interrupt events, and the interrupt line to
the CPU. A cause is posted at once or, within the throttling interval of the last interrupt, when
`interEvent` fires.
-/

namespace Gem5

structure Intr where
  icr : BitVec 32
  imr : BitVec 32
  iam : BitVec 32
  itr : BitVec 32
  ctrlExt : BitVec 32
  /-- `config.command.interruptDisable`. -/
  interruptDisable : Bool
  interEvent : Option ℕ
  rdtrEvent : Option ℕ
  radvEvent : Option ℕ
  tadvEvent : Option ℕ
  tidvEvent : Option ℕ
  lastInterrupt : ℕ
  curTick : ℕ
  line : Bool
  deriving DecidableEq, Repr

namespace Intr

def init : Intr where
  icr := 0
  imr := 0
  iam := 0
  itr := 0
  ctrlExt := 0
  interruptDisable := false
  interEvent := none
  rdtrEvent := none
  radvEvent := none
  tadvEvent := none
  tidvEvent := none
  lastInterrupt := 0
  curTick := 0
  line := false

/-- `IT_TXDW`, also the field `txdw` of the cause register. -/
def txdw : BitVec 32 := 0x1

/-- `IT_RXT`, also the field `rxt0` of the cause register. -/
def rxt0 : BitVec 32 := 0x80

def rxo : BitVec 32 := 0x40

def rxdmt : BitVec 32 := 0x10

def txqe : BitVec 32 := 0x2

def txdlow : BitVec 32 := 0x8000

def srpd : BitVec 32 := 0x10000

def intAssert : BitVec 32 := 0x80000000

/-- `itr.interval()`. -/
def interval (s : Intr) : ℕ := s.itr.toNat % 2 ^ 16

/-- `ctrl_ext.iame()`. -/
def iame (s : Intr) : Bool := s.ctrlExt.getLsbD 27

def Pending (s : Intr) : Prop := s.icr &&& s.imr ≠ 0

instance (s : Intr) : Decidable s.Pending := inferInstanceAs (Decidable (_ ≠ _))

def delayed (s : Intr) : BitVec 32 :=
  (if s.rdtrEvent.isSome ∨ s.radvEvent.isSome then rxt0 else 0)
    ||| (if s.tadvEvent.isSome ∨ s.tidvEvent.isSome then txdw else 0)

def cpuPostInt (s : Intr) : Intr :=
  if s.interruptDisable then s
  else if ¬ s.Pending then s
  else { s with
    icr := s.icr ||| s.delayed ||| intAssert
    interEvent := none
    rdtrEvent := none
    radvEvent := none
    tadvEvent := none
    tidvEvent := none
    lastInterrupt := s.curTick
    line := true }

def cpuClearInt (s : Intr) : Intr :=
  if s.icr &&& intAssert ≠ 0 then { s with icr := s.icr &&& ~~~intAssert, line := false }
  else s

def intTime (ns : ℕ) (s : Intr) : ℕ := s.lastInterrupt + ns * 256 * s.interval

def schedInter (s : Intr) (tick : ℕ) : Except Halt Intr :=
  if s.interEvent.isSome then .ok s
  else do
    let e ← schedule s.curTick s.interEvent tick
    return { s with interEvent := e }

def postInterrupt (ns : ℕ) (s : Intr) (t : BitVec 32) (now : Bool) : Except Halt Intr := do
  require (t ≠ 0) "t"
  if t &&& s.icr ≠ 0 ∧ now = false then return s
  else
    let s := { s with icr := s.icr ||| t }
    if s.interval = 0 ∨ now = true ∨ s.intTime ns ≤ s.curTick then
      return cpuPostInt { s with interEvent := none }
    else
      require (0 < s.intTime ns) "int_time > 0"
      s.schedInter (s.intTime ns)

def clearUnlessPending (s : Intr) : Intr :=
  if s.Pending then s else cpuClearInt { s with interEvent := none }

def chkInterrupt (ns : ℕ) (s : Intr) : Except Halt Intr :=
  let s := s.clearUnlessPending
  if s.Pending then
    if s.interval = 0 then .ok s.cpuPostInt
    else s.schedInter (s.curTick + ns * 256 * s.interval)
  else .ok s

/-- `mask(30)`, the causes a read of the cause register clears. -/
def mask30 : BitVec 32 := 0x3fffffff

/-- A read of the cause register, which returns `s.icr`. -/
def readICR (ns : ℕ) (s : Intr) : Except Halt Intr :=
  let icr := if s.icr &&& intAssert ≠ 0 ∨ s.imr = 0 then s.icr &&& ~~~mask30 else s.icr
  let imr := if s.iame = true ∧ icr &&& intAssert ≠ 0 then s.imr &&& ~~~s.iam else s.imr
  chkInterrupt ns { s with icr := icr, imr := imr }

def writeICR (ns : ℕ) (s : Intr) (val : BitVec 32) : Except Halt Intr :=
  let imr := if s.iame then s.imr &&& ~~~s.iam else s.imr
  chkInterrupt ns { s with icr := ~~~(val &&& 0x7fffffff) &&& s.icr, imr := imr }

inductive Timer
  | rdtr
  | radv
  | tadv
  | tidv
  deriving DecidableEq, Repr

def event (s : Intr) : Timer → Option ℕ
  | .rdtr => s.rdtrEvent
  | .radv => s.radvEvent
  | .tadv => s.tadvEvent
  | .tidv => s.tidvEvent

def setEvent (s : Intr) (e : Option ℕ) : Timer → Intr
  | .rdtr => { s with rdtrEvent := e }
  | .radv => { s with radvEvent := e }
  | .tadv => { s with tadvEvent := e }
  | .tidv => { s with tidvEvent := e }

def Timer.cause : Timer → BitVec 32
  | .rdtr | .radv => rxt0
  | .tadv | .tidv => txdw

/-- Starts a timer as a finished packet does. `rdtr` and `tidv` are started again, `rdtr` only if it
is running, and the two absolute timers `radv` and `tadv` run on. -/
def startTimer (s : Intr) (delay : ℕ) (t : Timer) : Except Halt Intr :=
  match t with
  | .rdtr => do
    let e ← reschedule s.curTick s.rdtrEvent (s.curTick + delay) false
    return { s with rdtrEvent := e }
  | .tidv => do
    let e ← reschedule s.curTick s.tidvEvent (s.curTick + delay) true
    return { s with tidvEvent := e }
  | .radv =>
    if s.radvEvent.isSome then .ok s
    else do
      let e ← schedule s.curTick s.radvEvent (s.curTick + delay)
      return { s with radvEvent := e }
  | .tadv =>
    if s.tadvEvent.isSome then .ok s
    else do
      let e ← schedule s.curTick s.tadvEvent (s.curTick + delay)
      return { s with tadvEvent := e }

def startTimerIf (s : Intr) (c : Prop) [Decidable c] (delay : ℕ) (t : Timer) : Except Halt Intr :=
  if c then s.startTimer delay t else .ok s

def fireInter (s : Intr) : Except Halt Intr :=
  if s.interEvent = some s.curTick then .ok (cpuPostInt { s with interEvent := none })
  else .error .notScheduled

/-- `rdtrProcess` and its like, without the write-back they ask for. -/
def fireTimer (ns : ℕ) (s : Intr) (t : Timer) : Except Halt Intr :=
  if s.event t = some s.curTick then postInterrupt ns (s.setEvent none t) t.cause false
  else .error .notScheduled

def advance (s : Intr) (tick : ℕ) : Except Halt Intr :=
  if s.curTick ≤ tick ∧ ∀ e ∈ [s.interEvent, s.rdtrEvent, s.radvEvent, s.tadvEvent, s.tidvEvent],
      ∀ t ∈ e, tick ≤ t then .ok { s with curTick := tick }
  else .error .notScheduled

inductive Op
  | postInterrupt (t : BitVec 32) (now : Bool)
  | readICR
  | writeICR (val : BitVec 32)
  | writeITR (val : BitVec 32)
  | writeICS (val : BitVec 32)
  | writeIMS (val : BitVec 32)
  | writeIMC (val : BitVec 32)
  | writeIAM (val : BitVec 32)
  | writeCtrlExt (val : BitVec 32)
  | writeCommand (interruptDisable : Bool)
  | startTimer (delay : ℕ) (t : Timer)
  | fireInter
  | fireTimer (t : Timer)
  | advance (tick : ℕ)
  deriving DecidableEq, Repr

def step (ns : ℕ) (s : Intr) : Op → Except Halt Intr
  | .postInterrupt t now => s.postInterrupt ns t now
  | .readICR => s.readICR ns
  | .writeICR val => s.writeICR ns val
  | .writeITR val => .ok { s with itr := val }
  | .writeICS val => s.postInterrupt ns val false
  | .writeIMS val => chkInterrupt ns { s with imr := s.imr ||| val }
  | .writeIMC val => chkInterrupt ns { s with imr := s.imr &&& ~~~val }
  | .writeIAM val => .ok { s with iam := val }
  | .writeCtrlExt val => .ok { s with ctrlExt := val }
  | .writeCommand d => .ok { s with interruptDisable := d }
  | .startTimer delay t => s.startTimer delay t
  | .fireInter => s.fireInter
  | .fireTimer t => s.fireTimer ns t
  | .advance tick => s.advance tick

def Op.disables (b : Bool) : Op → Bool
  | .writeCommand d => d
  | _ => b

/-- A write that clears the interrupt-disable bit finds no unmasked cause that is not posted. -/
def ClearsPosted (s : Intr) (o : Op) : Prop :=
  o = .writeCommand false → s.Pending → s.line = true ∨ s.interEvent.isSome = true

instance (s : Intr) (o : Op) : Decidable (s.ClearsPosted o) :=
  inferInstanceAs (Decidable (_ → _ → _))

/-- Whether the step asserts the line: it then does so also if the line was low before. No function
of the device reads the line. -/
def asserts (ns : ℕ) (s : Intr) (o : Op) : Bool :=
  match step ns { s with line := false } o with
  | .ok s' => s'.line
  | .error _ => false

def Op.immediate : Op → Bool
  | .postInterrupt _ now => now
  | _ => false

end Intr

/-- The interrupts with a history of the assertions of the line: the tick, and whether it was
immediate. -/
structure IntrLog where
  intr : Intr
  asserted : List (ℕ × Bool)
  deriving DecidableEq, Repr

def IntrLog.step (ns : ℕ) (u : IntrLog) (o : Intr.Op) : Except Halt IntrLog := do
  let s ← u.intr.step ns o
  return ⟨s, if u.intr.asserts ns o then u.asserted ++ [(u.intr.curTick, o.immediate)]
    else u.asserted⟩

end Gem5
