import Gem5.Basic

/-!
# A layer of the crossbar

`BaseXBar::Layer`, through which several source ports send to one destination port. A port that is
refused is put on a waiting list, whose first is told to retry when the layer is released or the
peer asks for a retry, and may call the layer again inside that call. So a call in progress is part
of the state.
-/

namespace Gem5

open Machine
open Function (update)

inductive LayerState
  | idle
  | busy
  | retry
  deriving DecidableEq, Repr

/-- The layer, in a crossbar with a clock and a header latency in cycles. `refused` says which ports
were refused and have not been told to retry since. -/
structure XBarLayer (P : Type) where
  clockPeriod : ℕ
  headerLatency : ℕ
  curTick : ℕ := 0
  state : LayerState := .idle
  waitingForLayer : List P := []
  waitingForPeer : Option P := none
  releaseEvent : Option ℕ := none
  drainState : DrainState := .running
  forwarding : Option P := none
  retrying : Bool := false
  refused : P → Bool := fun _ => false

namespace XBarLayer

variable {P : Type} [DecidableEq P] (l : XBarLayer P)

def clockEdge (cycles : ℕ) : ℕ := Gem5.clockEdge l.clockPeriod l.curTick cycles

def occupyLayer (tick : ℕ) : Except Halt (XBarLayer P) := do
  require (l.state = .busy) "state == BUSY"
  require (tick ≠ 0) "until != 0"
  let event ← schedule l.curTick l.releaseEvent tick
  return { l with releaseEvent := event }

/-- A port presents a packet. The layer takes it, and its forward is in progress, or refuses it. -/
def tryTiming (port : P) : Except Halt (XBarLayer P) :=
  if l.state = .busy ∨ l.waitingForPeer.isSome = true then do
    require (port ∉ l.waitingForLayer) "find(waitingForLayer, src_port) == end()"
    return { l with
      waitingForLayer := l.waitingForLayer ++ [port], refused := update l.refused port true }
  else .ok { l with state := .busy, forwarding := some port }

def succeededTiming (busyTime : ℕ) : Except Halt (XBarLayer P) := do
  require (l.state = .busy) "state == BUSY"
  l.occupyLayer busyTime

def failedTiming (port : P) (busyTime : ℕ) : Except Halt (XBarLayer P) := do
  require (l.waitingForPeer = none) "waitingForPeer == NULL"
  require (l.state = .busy) "state == BUSY"
  { l with waitingForPeer := some port, refused := update l.refused port true }.occupyLayer busyTime

/-- The forward was successful. The layer is busy until the header and the payload are sent. -/
def forwardSucceeded (payloadDelay : ℕ) : Except Halt (XBarLayer P) :=
  match l.forwarding with
  | none => .error .notScheduled
  | some _ =>
    { l with forwarding := none }.succeededTiming (l.clockEdge l.headerLatency + payloadDelay)

def forwardFailed : Except Halt (XBarLayer P) :=
  match l.forwarding with
  | none => .error .notScheduled
  | some port => { l with forwarding := none }.failedTiming port (l.clockEdge 1)

/-- `retryWaiting` up to the call of `sendRetry`. -/
def retryWaiting : Except Halt (XBarLayer P) := do
  require (l.waitingForLayer ≠ []) "!waitingForLayer.empty()"
  require (l.state = .idle) "state == IDLE"
  match l.waitingForLayer with
  | [] => .error (.undefined "waitingForLayer.front()")
  | port :: ports => return { l with
      state := .retry, waitingForLayer := ports, retrying := true,
      refused := update l.refused port false }

/-- The rest of `retryWaiting`. If the port has not called the layer, it stays busy for now. -/
def sendRetryReturned : Except Halt (XBarLayer P) :=
  if l.retrying then
    if l.state = .retry then
      { l with retrying := false, state := .busy }.occupyLayer (l.clockEdge 0)
    else .ok { l with retrying := false }
  else .error .notScheduled

def releaseLayer : Except Halt (XBarLayer P) :=
  if l.releaseEvent = some l.curTick then do
    let fired := { l with releaseEvent := none }
    require (fired.state = .busy) "state == BUSY"
    require (fired.releaseEvent = none) "!releaseEvent.scheduled()"
    let l' := { fired with state := .idle }
    if l.waitingForLayer ≠ [] then
      if l.waitingForPeer = none then l'.retryWaiting else return l'
    else if l.waitingForPeer = none ∧ l.drainState = .draining then
      return { l' with drainState := .drained }
    else return l'
  else .error .notScheduled

def recvRetry : Except Halt (XBarLayer P) :=
  match l.waitingForPeer with
  | none => .error (.assertion "waitingForPeer != NULL")
  | some port =>
    let l' := { l with waitingForLayer := port :: l.waitingForLayer, waitingForPeer := none }
    if l.state = .idle then l'.retryWaiting
    else do
      require (l.state = .busy) "state == BUSY"
      return l'

def drain : XBarLayer P :=
  { l with drainState := if l.state = .idle then .drained else .draining }

def advance (tick : ℕ) : Except Halt (XBarLayer P) :=
  if l.curTick ≤ tick ∧ ∀ w ∈ l.releaseEvent, tick ≤ w then .ok { l with curTick := tick }
  else .error .notScheduled

inductive Op (P : Type)
  | advance (tick : ℕ)
  | tryTiming (port : P)
  | forwardSucceeded (payloadDelay : ℕ)
  | forwardFailed
  | sendRetryReturned
  | releaseLayer
  | recvRetry
  | drain
  deriving DecidableEq, Repr

def step (l : XBarLayer P) : Op P → Except Halt (XBarLayer P)
  | .advance tick => l.advance tick
  | .tryTiming port => l.tryTiming port
  | .forwardSucceeded payloadDelay => l.forwardSucceeded payloadDelay
  | .forwardFailed => l.forwardFailed
  | .sendRetryReturned => l.sendRetryReturned
  | .releaseLayer => l.releaseLayer
  | .recvRetry => l.recvRetry
  | .drain => .ok l.drain

/-- The retry protocol. A port that was refused does not come again until it is told to, nor one whose
packet is being forwarded, the peer asks for a retry only after it refused, and time goes on and the
release event fires when no call is in progress. -/
def Respects (l : XBarLayer P) : Op P → Prop
  | .advance tick => (l.forwarding = none ∧ l.retrying = false) ∧ l.curTick ≤ tick
      ∧ ∀ w ∈ l.releaseEvent, tick ≤ w
  | .tryTiming port => l.refused port = false ∧ l.forwarding ≠ some port
  | .forwardSucceeded _ | .forwardFailed => l.forwarding.isSome = true
  | .sendRetryReturned => l.retrying = true ∧ l.forwarding = none
  | .releaseLayer => (l.forwarding = none ∧ l.retrying = false) ∧ l.releaseEvent = some l.curTick
  | .recvRetry => l.waitingForPeer.isSome = true
  | .drain => True

instance (l : XBarLayer P) : DecidablePred l.Respects
  | .advance _ => inferInstanceAs (Decidable (_ ∧ _))
  | .tryTiming _ => inferInstanceAs (Decidable (_ ∧ _))
  | .forwardSucceeded _ => inferInstanceAs (Decidable (_ = _))
  | .forwardFailed => inferInstanceAs (Decidable (_ = _))
  | .sendRetryReturned => inferInstanceAs (Decidable (_ ∧ _))
  | .releaseLayer => inferInstanceAs (Decidable (_ ∧ _))
  | .recvRetry => inferInstanceAs (Decidable (_ = _))
  | .drain => .isTrue trivial

end XBarLayer

end Gem5
