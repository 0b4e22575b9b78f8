import Gem5.Packet

/-!
# The timing packet queue

`PacketQueue`, which sends deferred packets through a port. A packet is put into the transmit list by
the tick it is ready at, and only one that comes to the front arms the send event. The port accepts
the first packet, and may put further ones into the queue before the call returns, or refuses it.
-/

namespace Gem5

open Machine

structure DeferredPacket where
  tick : ℕ
  pkt : Packet
  deriving DecidableEq, Repr

structure PacketQueue where
  forceOrder : Bool
  disableSanityCheck : Bool
  curTick : ℕ := 0
  transmitList : List DeferredPacket := []
  sendEvent : Option ℕ := none
  waitingOnRetry : Bool := false
  drainState : DrainState := .running
  enqueued : List DeferredPacket := []
  sent : List DeferredPacket := []
  deriving DecidableEq, Repr

namespace PacketQueue

variable (q : PacketQueue)

def deferredPacketReadyTime : ℕ :=
  match q.transmitList with
  | [] => maxTick
  | dp :: _ => dp.tick

def deferredPacketReady : Bool :=
  match q.transmitList with
  | [] => false
  | dp :: _ => dp.tick ≤ q.curTick

def arm (tick : ℕ) : Except Halt PacketQueue :=
  match q.sendEvent with
  | none => do
    let event ← schedule q.curTick q.sendEvent tick
    return { q with sendEvent := event }
  | some w =>
    if tick < w then do
      let event ← reschedule q.curTick q.sendEvent tick false
      return { q with sendEvent := event }
    else .ok q

def schedSendEvent (tick : ℕ) : Except Halt PacketQueue :=
  if q.waitingOnRetry then do
    require (q.sendEvent = none) "!sendEvent.scheduled()"
    return q
  else if tick ≠ maxTick then q.arm (max tick ((q.curTick + 1) % 2 ^ 64))
  else if q.drainState = .draining ∧ q.transmitList = [] ∧ q.sendEvent = none then
    .ok { q with drainState := .drained }
  else .ok q

/-- The search from the back for a packet to stay behind. It goes over the reversed list, and `after`
is what it has passed. Also whether it came to the front. -/
def emplace (stop : DeferredPacket → Bool) (dp : DeferredPacket) :
    List DeferredPacket → List DeferredPacket → List DeferredPacket × Bool
  | [], after => (dp :: after, true)
  | x :: before, after =>
    if stop x then ((x :: before).reverse ++ dp :: after, false)
    else emplace stop dp before (x :: after)

def staysBehind (dp x : DeferredPacket) : Bool :=
  q.forceOrder && x.pkt.matchAddr dp.pkt || x.tick ≤ dp.tick

def schedSendTiming (dp : DeferredPacket) : Except Halt PacketQueue := do
  require (q.curTick ≤ dp.tick) "when >= curTick()"
  require (dp.pkt.expressSnoop = false) "!pkt->isExpressSnoop()"
  panicIf (q.disableSanityCheck = false ∧ 128 < q.transmitList.length)
    "Packet queue has grown beyond 128 packets"
  let placed := emplace (q.staysBehind dp) dp q.transmitList.reverse []
  let q' := { q with transmitList := placed.1, enqueued := q.enqueued ++ [dp] }
  if placed.2 then q'.schedSendEvent dp.tick else return q'

/-- What the port answers. If it accepts, it may call `schedSendTiming` before it returns. -/
inductive Reply
  | refused
  | accepted (calls : List DeferredPacket)
  deriving DecidableEq, Repr

def sendDeferredPacket (reply : Reply) : Except Halt PacketQueue := do
  require (q.waitingOnRetry = false) "!waitingOnRetry"
  require (q.deferredPacketReady = true) "deferredPacketReady()"
  match q.transmitList with
  | [] => .error (.undefined "transmitList.front()")
  | dp :: rest =>
    match reply with
    | .refused => return { q with waitingOnRetry := true, transmitList := dp :: rest }
    | .accepted calls =>
      let q' ← run schedSendTiming { q with transmitList := rest, sent := q.sent ++ [dp] } calls
      { q' with waitingOnRetry := false }.schedSendEvent q'.deferredPacketReadyTime

def processSendEvent (reply : Reply) : Except Halt PacketQueue :=
  if q.sendEvent = some q.curTick then do
    require (q.waitingOnRetry = false) "!waitingOnRetry"
    { q with sendEvent := none }.sendDeferredPacket reply
  else .error .notScheduled

def retry (reply : Reply) : Except Halt PacketQueue := do
  require (q.waitingOnRetry = true) "waitingOnRetry"
  { q with waitingOnRetry := false }.sendDeferredPacket reply

def drain : PacketQueue :=
  { q with drainState := if q.transmitList = [] then .drained else .draining }

def advance (tick : ℕ) : Except Halt PacketQueue :=
  if q.curTick ≤ tick ∧ ∀ w ∈ q.sendEvent, tick ≤ w then .ok { q with curTick := tick }
  else .error .notScheduled

inductive Op
  | advance (tick : ℕ)
  | schedSendTiming (dp : DeferredPacket)
  | processSendEvent (reply : Reply)
  | retry (reply : Reply)
  | drain
  deriving DecidableEq, Repr

def step (q : PacketQueue) : Op → Except Halt PacketQueue
  | .advance tick => q.advance tick
  | .schedSendTiming dp => q.schedSendTiming dp
  | .processSendEvent reply => q.processSendEvent reply
  | .retry reply => q.retry reply
  | .drain => .ok q.drain

/-- What a caller of `schedSendTiming` has to see to: the packet is not ready in the past and some time
before the end of time, it is no express snoop, and the size limit is not hit. -/
def Accepts (q : PacketQueue) (dp : DeferredPacket) : Prop :=
  (q.curTick ≤ dp.tick ∧ dp.tick < maxTick) ∧ dp.pkt.expressSnoop = false
    ∧ (q.disableSanityCheck = true ∨ q.transmitList.length ≤ 128)

instance (q : PacketQueue) (dp : DeferredPacket) : Decidable (q.Accepts dp) := by
  delta Accepts
  infer_instance

/-- The same of the calls that the port makes, once the first packet is off the list. -/
def AcceptsCalls (q : PacketQueue) : Reply → Prop
  | .refused => True
  | .accepted calls =>
    Admits schedSendTiming Accepts { q with
      transmitList := q.transmitList.tail, sendEvent := none, waitingOnRetry := false,
      sent := q.sent ++ q.transmitList.take 1 } calls

instance (q : PacketQueue) : DecidablePred q.AcceptsCalls
  | .refused => .isTrue trivial
  | .accepted _ => Admits.dec _ _

/-- Time stays below its end and does not pass the send event, the send event fires when it is due, and
a retry comes for a packet that was refused. -/
def Respects (q : PacketQueue) : Op → Prop
  | .advance tick => (q.curTick ≤ tick ∧ tick < maxTick) ∧ ∀ w ∈ q.sendEvent, tick ≤ w
  | .schedSendTiming dp => q.Accepts dp
  | .processSendEvent reply => q.sendEvent = some q.curTick ∧ q.AcceptsCalls reply
  | .retry reply => q.waitingOnRetry = true ∧ q.AcceptsCalls reply
  | .drain => True

instance (q : PacketQueue) : DecidablePred q.Respects
  | .advance _ => inferInstanceAs (Decidable (_ ∧ _))
  | .schedSendTiming dp => inferInstanceAs (Decidable (q.Accepts dp))
  | .processSendEvent _ => inferInstanceAs (Decidable (_ ∧ _))
  | .retry _ => inferInstanceAs (Decidable (_ ∧ _))
  | .drain => .isTrue trivial

end PacketQueue

end Gem5
